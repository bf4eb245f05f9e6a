import IdentifyBench.Proofs.Running
import IdentifyBench.Proofs.Whereabouts

/-! Neither process is lost in a run. A step leaves both of them where they can go on, as long as it
returns; with an instant that lies beyond the limit one of them may go missing, and with a source that
has run dry the stimulus does. The clock stays, so that a run never starves before its limit. -/
namespace IdentifyBench

namespace Bench

variable {σ : Type}

@[simp] theorem start_now (b : Bench σ) : b.start.now = b.now := by
  unfold start
  split <;> rfl

@[simp] theorem start_limit (b : Bench σ) : b.start.limit = b.limit := by
  unfold start
  split <;> rfl

@[simp] theorem start_maxRounds (b : Bench σ) : b.start.maxRounds = b.maxRounds := by
  unfold start
  split <;> rfl

theorem start_of_started {b : Bench σ} (started : b.started = true) : b.start = b := by
  rw [start, if_pos started]

theorem start_start (b : Bench σ) : b.start.start = b.start := by
  apply start_of_started
  unfold start
  split
  · assumption
  · rfl

def next? (b : Bench σ) : Option Wakeup := b.start.agenda.head?

def arrive (b : Bench σ) : Bench σ := { b.start with now := b.next?.elim b.now (·.time) }

theorem arrive_of_next {b : Bench σ} {first : Wakeup} {rest : Agenda}
    (next : b.start.agenda = first :: rest) : b.arrive = { b.start with now := first.time } := by
  have due : b.next? = some first := by
    rw [next?, next]
    rfl
  rw [arrive, due]
  rfl

theorem arrive_of_nil {b : Bench σ} (empty : b.start.agenda = []) : b.arrive = b.start := by
  have idle : b.next? = none := by
    rw [next?, empty]
    rfl
  rw [arrive, idle]
  dsimp only [Option.elim]
  rw [← start_now]

theorem arrive_start (b : Bench σ) : b.start.arrive = b.arrive := by
  rw [arrive, arrive, next?, next?, start_start, start_now]

/-- The bench has not stopped, and what is due next lies within the limit. -/
def Simulates (b : Bench σ) : Prop :=
  b.stopped = false ∧ ∃ first ∈ b.next?, ∀ limit ∈ b.limit, first.time ≤ limit

def Ahead (b : Bench σ) : Prop := ∀ w ∈ b.agenda, b.now < w.time

variable [WordSource σ]

theorem stepWithin_of_stopped {b : Bench σ} (stopped : b.stopped = true) (wakeups : Nat) :
    b.stepWithin wakeups = ⟨b, [], .ok (.stopped b.now)⟩ := by
  rw [stepWithin, if_pos stopped]

theorem stepWithin_of_simulates {b : Bench σ} (simulates : b.Simulates) (wakeups : Nat) :
    b.stepWithin wakeups = (drain (wakeups + 1) b.arrive).andThen fun d _ => d.conclude := by
  obtain ⟨going, first, next, within⟩ := simulates
  obtain ⟨rest, agenda⟩ := List.head?_eq_some_iff.mp next
  have unlimited : b.start.limit.filter (· < first.time) = none := by
    rw [start_limit, Option.filter_eq_none_iff]
    intro limit given
    simpa using within limit given
  have arrived : b.arrive = { b.start with now := first.time, agenda := first :: rest } := by
    rw [arrive_of_next agenda, ← agenda]
  rw [stepWithin, if_neg (by simp [going]), arrived, ← instant_eq b.start wakeups first rest]
  dsimp only
  rw [agenda]
  dsimp only
  rw [unlimited]

/-- What a step comes to: nothing is scheduled, or what is due next lies beyond the limit, or the next
instant is gone through. -/
theorem stepWithin_cases {b : Bench σ} (going : b.stopped = false) :
    (b.start.agenda = [] ∧ ∀ wakeups, b.stepWithin wakeups = .fail b.start (.starved b.now)) ∨
      (∃ first rest, ∃ limit ∈ b.limit, limit < first.time ∧ b.start.agenda = first :: rest ∧
        ∀ wakeups, b.stepWithin wakeups = .fail { b.start with agenda := rest } (.timeLimit limit)) ∨
      b.Simulates := by
  cases agenda : b.start.agenda with
  | nil =>
    refine .inl ⟨rfl, fun wakeups => ?_⟩
    rw [stepWithin, if_neg (by simp [going])]
    dsimp only
    rw [agenda]
    dsimp only
    rw [start_now]
  | cons first rest =>
    cases limited : b.start.limit.filter (· < first.time) with
    | some limit =>
      obtain ⟨given, beyond⟩ := Option.filter_eq_some_iff.mp limited
      rw [start_limit] at given
      refine .inr (.inl ⟨first, rest, limit, given, of_decide_eq_true beyond, rfl, fun wakeups => ?_⟩)
      rw [stepWithin, if_neg (by simp [going])]
      dsimp only
      rw [agenda]
      dsimp only
      rw [limited]
    | none =>
      rw [start_limit, Option.filter_eq_none_iff] at limited
      refine .inr (.inr ⟨going, first, ?_, fun limit given => ?_⟩)
      · rw [next?, agenda]
        rfl
      · simpa using limited limit given

namespace Housed

variable {s : Settings} {tick : Option Instant} {place : Whereabouts} {b : Bench σ}

omit [WordSource σ] in
theorem start_eq (housed : b.Housed s tick place) : b.start = b := start_of_started housed.started

omit [WordSource σ] in
theorem reached (housed : b.Housed s tick place) {w : Wakeup} (soonest : b.agenda.Soonest w) :
    { b with now := w.time }.Housed s tick place :=
  { housed with
    early := (housed.within w soonest.1).2
    within := fun v inside => ⟨soonest.2 v inside, (housed.within v inside).2⟩ }

omit [WordSource σ] in
theorem arrived (housed : b.Housed s tick place) :
    b.arrive.Housed s tick place ∧ b.now ≤ b.arrive.now := by
  cases next : b.agenda with
  | nil =>
    rw [arrive_of_nil (by rw [housed.start_eq, next]), housed.start_eq]
    exact ⟨housed, Nat.le_refl _⟩
  | cons first rest =>
    have ordered := housed.ordered
    rw [next] at ordered
    have soonest : b.agenda.Soonest first := by
      rw [next]
      exact Agenda.soonest_first ordered
    rw [arrive_of_next (by rw [housed.start_eq, next]), housed.start_eq]
    exact ⟨housed.reached soonest, (housed.within first soonest.1).1⟩

omit [WordSource σ] in
theorem refused (housed : b.Housed s tick place) {w : Wakeup} (inside : w ∈ b.agenda) :
    ∃ tick' place', (b.without w).Housed s tick' place' := by
  obtain ⟨t, p⟩ := w
  cases p with
  | clock => exact ⟨_, _, (housed.taken_clock inside).2⟩
  | stimulus => exact ⟨_, _, (housed.taken_stimulus inside).2⟩

omit [WordSource σ] in
theorem tick_mem (housed : b.Housed s tick place) {c : Instant} (due : c ∈ tick) :
    ⟨c, .clock⟩ ∈ b.agenda := by
  rw [← Agenda.mem_times, housed.clockDue]
  exact Option.mem_toList.mpr due

omit [WordSource σ] in
/-- A settled instant leaves the clock and the stimulus ahead, if the fetch delay takes time. -/
theorem ahead_of_passes {place' : Whereabouts} {d e : Bench σ} (before : d.Housed s tick place)
    (ahead : d.Ahead) (after : e.Housed s tick place') (passes : place.Passes s d.now place')
    (now : e.now = d.now) (ticks : tick.isSome = true) (delayed : 0 < s.timetable.fetch) : e.Ahead := by
  have early : d.now < Instant.last := by
    obtain ⟨c, due⟩ := Option.isSome_iff_exists.mp ticks
    have inside := before.tick_mem due
    exact Nat.lt_of_lt_of_le (ahead _ inside) (before.within _ inside).2
  intro w inside
  rw [now]
  obtain ⟨time, process⟩ := w
  have due := Agenda.mem_times.mpr inside
  cases process with
  | clock =>
    rw [after.clockDue, ← before.clockDue] at due
    exact ahead _ (Agenda.mem_times.mp due)
  | stimulus =>
    rw [after.stimulusDue] at due
    rcases passes with rfl | ⟨_, rfl⟩
    · rw [← before.stimulusDue] at due
      exact ahead _ (Agenda.mem_times.mp due)
    · rw [List.mem_singleton.mp due]
      exact Instant.lt_after early delayed

theorem step (housed : b.Housed s tick place) (going : b.stopped = false) :
    b.step.Ends
      (fun d _ _ => ∃ tick' place', d.Housed s tick' place' ∧ b.now ≤ d.now ∧
        (place ≠ .lost → place' ≠ .lost) ∧
        (tick.isSome → tick'.isSome ∧ (∀ c ∈ tick', d.now < c) ∧
          (0 < s.timetable.fetch → d.Ahead)))
      fun d _ halt => ∃ tick' place', d.Housed s tick' place' ∧ b.now ≤ d.now ∧
        (tick.isSome → (∃ limit, halt = .failure (.timeLimit limit)) ∨
          tick'.isSome ∧ ∀ t, halt ≠ .failure (.starved t)) := by
  rcases stepWithin_cases going with
    ⟨empty, step⟩ | ⟨first, rest, limit, _, _, next, step⟩ | simulates
  · rw [Bench.step, step, Turn.ends_fail, housed.start_eq]
    refine ⟨tick, place, housed, Nat.le_refl _, fun ticks => ?_⟩
    obtain ⟨c, due⟩ := Option.isSome_iff_exists.mp ticks
    have inside := housed.tick_mem due
    rw [housed.start_eq] at empty
    rw [empty] at inside
    cases inside
  · rw [housed.start_eq] at next step
    rw [Bench.step, step, Turn.ends_fail]
    obtain ⟨tick', place', refused⟩ := housed.refused (w := first) (by simp [next])
    rw [without_first next] at refused
    exact ⟨tick', place', refused, Nat.le_refl _, fun _ => .inl ⟨limit, rfl⟩⟩
  · obtain ⟨arrived, later⟩ := housed.arrived
    rw [Bench.step, stepWithin_of_simulates simulates, Turn.andThen_ends]
    refine ((arrived.drain _).and_state (frame_drain _ _)).mono ?_ ?_
    -- What is scheduled lies ahead once all is woken, and to settle adds the fetch delay at most.
    · rintro d _ _ ⟨⟨tick', place', drained, ticks, kept, ahead⟩, frame⟩
      obtain ⟨place'', concluded, passes, now, unsettled⟩ := drained.conclude
      have reached : b.now ≤ d.conclude.state.now := by
        rw [now, frame.now]
        exact later
      unfold Turn.Ends
      split
      · refine ⟨tick', place'', concluded, reached, ?_, fun moved => ⟨ticks moved, ?_, ?_⟩⟩
        · intro present
          rcases passes with rfl | ⟨_, rfl⟩
          · exact kept present
          · exact Whereabouts.noConfusion
        · intro c due
          rw [now]
          exact ahead _ (drained.tick_mem due)
        · exact drained.ahead_of_passes ahead concluded passes now (ticks moved)
      · rename_i halt halts
        refine ⟨tick', place'', concluded, reached, fun moved => .inr ⟨ticks moved, ?_⟩⟩
        rintro t rfl
        obtain ⟨_, _, impossible⟩ := unsettled _ halts
        cases impossible
    · rintro d _ halt ⟨⟨tick', place', drained, ticks, halts⟩, frame⟩
      refine ⟨tick', place', drained, ?_, fun moved => .inr ⟨ticks moved, ?_⟩⟩
      · rw [frame.now]
        exact later
      · rintro t rfl
        rcases halts with impossible | ⟨_, _, impossible⟩ <;> cases impossible

theorem now_le_step (housed : b.Housed s tick place) : b.now ≤ b.step.state.now := by
  cases going : b.stopped with
  | true =>
    rw [Bench.step, stepWithin_of_stopped going]
  | false =>
    apply Turn.Ends.state (P := fun d : Bench σ => b.now ≤ d.now)
    refine (housed.step going).mono ?_ ?_
    · rintro d _ _ ⟨_, _, _, later, _⟩
      exact later
    · rintro d _ _ ⟨_, _, _, later, _⟩
      exact later

theorem step_arrives (housed : b.Housed s tick place) (simulates : b.Simulates) :
    b.step.state.now = b.arrive.now := by
  apply Turn.Ends.state (P := fun d : Bench σ => d.now = b.arrive.now)
  rw [Bench.step, stepWithin_of_simulates simulates, Turn.andThen_ends]
  refine ((housed.arrived.1.drain _).and_state (frame_drain _ _)).mono ?_ ?_
  · rintro d _ _ ⟨⟨_, _, drained, _⟩, frame⟩
    obtain ⟨_, _, _, now, _⟩ := drained.conclude
    unfold Turn.Ends
    split <;> exact now.trans frame.now
  · rintro d _ _ ⟨_, frame⟩
    exact frame.now

theorem step_now (housed : b.Housed s tick place) (simulates : b.Simulates) :
    ∃ w ∈ b.agenda, b.step.state.now = w.time := by
  obtain ⟨_, first, next, _⟩ := id simulates
  obtain ⟨rest, agenda⟩ := List.head?_eq_some_iff.mp next
  rw [housed.step_arrives simulates, arrive_of_next agenda]
  rw [housed.start_eq] at agenda
  exact ⟨first, by simp [agenda], rfl⟩

theorem calm_drained (housed : b.Housed s tick place) (left : Nat) :
    (Bench.drain left b.arrive).state.Calm := by
  apply Turn.Ends.state (P := Bench.Calm)
  refine (housed.arrived.1.drain left).mono ?_ ?_
  · rintro _ _ _ ⟨_, _, drained, _⟩
    exact drained.calm
  · rintro _ _ _ ⟨_, _, drained, _⟩
    exact drained.calm

end Housed

theorem resumeStimulus_of_awaitFetch {b : Bench σ} (waits : b.stimulus.phase = .awaitFetch) :
    b.resumeStimulus.result = .ok () ∧ b.resumeStimulus.state.bus = b.bus := by
  unfold resumeStimulus Stimulus.resume
  rw [waits]
  exact ⟨rfl, rfl⟩

variable (s : Settings) (source : σ)

/-- The clock stays on the agenda as long as no step has been refused. -/
theorem housed_after (k : Nat) :
    ∃ tick place, ((Bench.start (.new s source)).after k).Housed s tick place ∧
      ((∀ i < k, ∀ limit, ((Bench.start (.new s source)).after i).step.result ≠
        .error (.failure (.timeLimit limit))) → tick.isSome) := by
  induction k with
  | zero => exact ⟨_, _, housed_start s source, fun _ => rfl⟩
  | succ k ih =>
    obtain ⟨tick, place, housed, ticks⟩ := ih
    have earlier {P : Nat → Prop} (all : ∀ i < k + 1, P i) : ∀ i < k, P i := fun i below =>
      all i (Nat.lt_succ_of_lt below)
    cases going : ((Bench.start (.new s source)).after k).stopped with
    | true =>
      rw [after, Bench.step, stepWithin_of_stopped going]
      exact ⟨tick, place, housed, fun unrefused => ticks (earlier unrefused)⟩
    | false =>
      have ends := housed.step going
      unfold Turn.Ends at ends
      split at ends
      · obtain ⟨tick', place', stepped, _, _, ticks'⟩ := ends
        exact ⟨tick', place', stepped, fun unrefused => (ticks' (ticks (earlier unrefused))).1⟩
      · rename_i halt halts
        obtain ⟨tick', place', stepped, _, ticks'⟩ := ends
        refine ⟨tick', place', stepped, fun unrefused => ?_⟩
        rcases ticks' (ticks (earlier unrefused)) with ⟨limit, rfl⟩ | ⟨moved, _⟩
        · exact absurd halts (unrefused k (Nat.lt_succ_self k) limit)
        · exact moved

theorem kept_after {k : Nat}
    (returned : ∀ i < k, ∃ outcome,
      ((Bench.start (.new s source)).after i).step.result = .ok outcome) :
    ∃ c place, ((Bench.start (.new s source)).after k).Housed s (some c) place ∧ place ≠ .lost ∧
      (0 < k → ((Bench.start (.new s source)).after k).now < c ∧
        (0 < s.timetable.fetch → ((Bench.start (.new s source)).after k).Ahead)) := by
  induction k with
  | zero => exact ⟨0, _, housed_start s source, Whereabouts.noConfusion, nofun⟩
  | succ k ih =>
    obtain ⟨c, place, housed, present, ahead⟩ := ih fun i below =>
      returned i (Nat.lt_succ_of_lt below)
    cases going : ((Bench.start (.new s source)).after k).stopped with
    | true =>
      have positive : 0 < k := by
        refine Nat.pos_of_ne_zero ?_
        rintro rfl
        cases going
      rw [after, Bench.step, stepWithin_of_stopped going]
      exact ⟨c, place, housed, present, fun _ => ahead positive⟩
    | false =>
      have ends := housed.step going
      obtain ⟨outcome, returns⟩ := returned k (Nat.lt_succ_self k)
      rw [Turn.ends_iff_of_ok returns] at ends
      obtain ⟨tick', place', stepped, _, present', ticks⟩ := ends
      obtain ⟨ticks, later, ahead'⟩ := ticks rfl
      obtain ⟨c', rfl⟩ := Option.isSome_iff_exists.mp ticks
      exact ⟨c', place', stepped, present' present, fun _ => ⟨later c' rfl, ahead'⟩⟩

theorem refused_of_starved {k : Nat} {t : Instant}
    (starves : ((Bench.start (.new s source)).after k).step.result = .error (.failure (.starved t))) :
    ∃ i < k, ∃ limit, ((Bench.start (.new s source)).after i).step.result =
      .error (.failure (.timeLimit limit)) := by
  by_contra unrefused
  obtain ⟨tick, place, housed, ticks⟩ := housed_after s source k
  have ticks := ticks fun i below limit refused => unrefused ⟨i, below, limit, refused⟩
  cases going : ((Bench.start (.new s source)).after k).stopped with
  | true =>
    rw [step, stepWithin_of_stopped going] at starves
    cases starves
  | false =>
    have ends := housed.step going
    rw [Turn.ends_iff_of_error starves] at ends
    obtain ⟨_, _, _, _, halts⟩ := ends
    rcases halts ticks with ⟨_, impossible⟩ | ⟨_, different⟩
    · cases impossible
    · exact different t rfl

end Bench

namespace Recording

variable {σ κ : Type} [WordSource σ] [Sink κ]

theorem result_of_bench {r : Recording σ κ} {halt : Halt} (halts : r.step.result = .error halt)
    (simulated : ∀ t fault, halt ≠ .failure (.traceWrite t fault)) :
    r.bench.step.result = .error halt := by
  unfold step at halts
  dsimp only at halts
  split at halts
  · exact halts
  · split at halts
    · cases halts
      exact absurd rfl (simulated _ _)
    · split at halts
      · cases halts
        exact absurd rfl (simulated _ _)
      · exact halts

theorem step_of_bench_error {r : Recording σ κ} {halt : Halt}
    (halts : r.bench.step.result = .error halt) : r.step.result = .error halt := by
  unfold step
  dsimp only
  rw [halts, if_pos (by simp [Except.isOk, Except.toBool])]

section

variable (s : Settings) (source : σ) (waveform : Option Waveform) (out : κ)

theorem fresh_after_bench {n : Nat} (positive : 0 < n) :
    ((fresh s source waveform out).after n).bench = (Bench.start (.new s source)).after n :=
  (after_bench _ n).trans (Bench.after_start s source positive).symm

theorem fresh_after_arrive (n : Nat) :
    ((fresh s source waveform out).after n).bench.arrive =
      ((Bench.start (.new s source)).after n).arrive := by
  rcases Nat.eq_zero_or_pos n with rfl | positive
  · exact (Bench.arrive_start _).symm
  · rw [fresh_after_bench s source waveform out positive]

theorem fresh_after_simulates (n : Nat) :
    ((fresh s source waveform out).after n).bench.Simulates ↔
      ((Bench.start (.new s source)).after n).Simulates := by
  rcases Nat.eq_zero_or_pos n with rfl | positive
  · unfold Bench.Simulates Bench.next? Bench.after after
    rw [Bench.start_start]
    exact Iff.rfl
  · rw [fresh_after_bench s source waveform out positive]

theorem fresh_after_stepWithin (n wakeups : Nat) :
    ((fresh s source waveform out).after n).bench.stepWithin wakeups =
      ((Bench.start (.new s source)).after n).stepWithin wakeups := by
  rcases Nat.eq_zero_or_pos n with rfl | positive
  · rfl
  · rw [fresh_after_bench s source waveform out positive]

theorem fresh_bench_step (n : Nat) :
    ((fresh s source waveform out).after n).bench.step =
      ((Bench.start (.new s source)).after n).step :=
  fresh_after_stepWithin s source waveform out n Bench.maxWakeups

variable {s source waveform out}

theorem bench_returned {n : Nat}
    (returned : ∀ i < n, ∃ outcome,
      ((fresh s source waveform out).after i).step.result = .ok outcome) :
    ∀ i < n, ∃ outcome, ((Bench.start (.new s source)).after i).step.result = .ok outcome := by
  intro i below
  obtain ⟨outcome, returns⟩ := returned i below
  rw [← fresh_bench_step s source waveform out]
  exact ⟨outcome, bench_result_of_step_ok returns⟩

theorem fresh_now_le (n : Nat) :
    ((fresh s source waveform out).after n).bench.now ≤
      ((fresh s source waveform out).after (n + 1)).bench.now := by
  rcases Nat.eq_zero_or_pos n with rfl | positive
  · exact Nat.zero_le _
  · obtain ⟨tick, place, housed, _⟩ := Bench.housed_after s source n
    rw [fresh_after_bench s source waveform out positive,
      fresh_after_bench s source waveform out (Nat.succ_pos n)]
    exact housed.now_le_step

end

/-- After every step of a run whose steps have all returned, the clock has one wake-up, which lies
ahead, and the stimulus is in one place: it has one wake-up, which is not behind, or it waits for an
edge, or it has asked for the stop. Where an instant comes to settle, a stimulus that waits will pass
the edge without a write and without a failure. Time never goes back, and if words take time to fetch,
each instant that is gone through is a later one. The agenda runs empty only after a step that was
refused, whatever else has failed. -/
theorem step_keeps (s : Settings) (source : σ) (waveform : Option Waveform) (out : κ) :
    let r := fresh s source waveform out
    (∀ n, 0 < n → (∀ i < n, ∃ outcome, (r.after i).step.result = .ok outcome) →
      let b := (r.after n).bench
      (∃ c, b.agenda.times .clock = [c] ∧ b.now < c) ∧
      ((∃ t, b.agenda.times .stimulus = [t] ∧ b.now ≤ t) ∧ b.awaitingEdge = false ∧
          b.stopped = false ∨
        b.agenda.times .stimulus = [] ∧ b.awaitingEdge = true ∧ b.stopped = false ∧
          b.stimulus.phase = .awaitFetch ∨
        b.agenda.times .stimulus = [] ∧ b.awaitingEdge = false ∧ b.stopped = true)) ∧
    (∀ n bus, let d := (Bench.drain (Bench.maxWakeups + 1) (r.after n).bench.arrive).state
      d.awaitingEdge = true → d.stimulus.phase = .awaitFetch ∧
        (Bench.resumeStimulus { d with awaitingEdge := false, bus }).result = .ok () ∧
        (Bench.resumeStimulus { d with awaitingEdge := false, bus }).state.bus = bus) ∧
    (∀ n, (r.after n).bench.now ≤ (r.after (n + 1)).bench.now) ∧
    (0 < s.stimulus.fetchDelay → ∀ j n, j < n →
      (∀ i < n, ∃ outcome, (r.after i).step.result = .ok outcome) → (r.after n).bench.Simulates →
      (r.after (j + 1)).bench.now < (r.after (n + 1)).bench.now) ∧
    ∀ n t, (r.after n).step.result = .error (.failure (.starved t)) →
      ∃ i < n, ∃ limit, (r.after i).step.result = .error (.failure (.timeLimit limit)) := by
  intro r
  have monotone (n : Nat) : (r.after n).bench.now ≤ (r.after (n + 1)).bench.now := fresh_now_le n
  refine ⟨?_, ?_, monotone, ?_, ?_⟩
  · intro n positive returned b
    obtain ⟨c, place, housed, present, later⟩ := Bench.kept_after s source (bench_returned returned)
    rw [← fresh_after_bench s source waveform out positive] at housed later
    refine ⟨⟨c, housed.clockDue, (later positive).1⟩, ?_⟩
    cases place with
    | scheduled t =>
      have due : t ∈ b.agenda.times .stimulus := by
        rw [housed.stimulusDue]
        exact List.mem_singleton_self t
      have inside := Agenda.mem_times.mp due
      exact .inl ⟨⟨t, housed.stimulusDue, (housed.within _ inside).1⟩, housed.awaiting, housed.stopped⟩
    | atEdge =>
      exact .inr (.inl ⟨housed.stimulusDue, housed.awaiting, housed.stopped, housed.suits⟩)
    | finished => exact .inr (.inr ⟨housed.stimulusDue, housed.awaiting, housed.stopped⟩)
    | lost => exact absurd rfl present
  · intro n bus d awaiting
    obtain ⟨tick, place, housed, _⟩ := Bench.housed_after s source n
    have calm : d.Calm := by
      rw [show d = (Bench.drain (Bench.maxWakeups + 1) (r.after n).bench.arrive).state from rfl,
        fresh_after_arrive]
      exact housed.calm_drained _
    have waits := calm awaiting
    exact ⟨waits, Bench.resumeStimulus_of_awaitFetch
      (b := { d with awaitingEdge := false, bus }) waits⟩
  · intro delayed j n before returned simulates
    have positive : 0 < n := Nat.lt_of_le_of_lt (Nat.zero_le j) before
    obtain ⟨c, place, housed, _, later⟩ := Bench.kept_after s source (bench_returned returned)
    rw [← fresh_after_bench s source waveform out positive] at housed later
    obtain ⟨w, inside, now⟩ := housed.step_now simulates
    rw [← step_bench] at now
    have reached := monotone_nat_of_le_succ (f := fun k => (r.after k).bench.now) monotone before
    have ahead := (later positive).2 (UInt64.lt_iff_toNat_lt.mp delayed) w inside
    exact Nat.lt_of_le_of_lt reached (Nat.lt_of_lt_of_eq ahead now.symm)
  · intro n t starves
    have starves := result_of_bench starves nofun
    rw [fresh_bench_step] at starves
    obtain ⟨i, below, limit, refused⟩ := Bench.refused_of_starved s source starves
    rw [← fresh_bench_step s source waveform out] at refused
    exact ⟨i, below, limit, step_of_bench_error refused⟩

/-- After the first step the word is on its way, and the second step goes through a later instant. -/
theorem keeps_of_delayed_word :
    ∃ r : Recording (List Word) Memory,
      r = fresh { Settings.immediate 1 with stimulus.fetchDelay := 3 } [5] none (.empty none) ∧
      (r.after 0).step.result = .ok (.advanced 0) ∧ (r.after 1).bench.Simulates ∧
      (∃ c, (r.after 1).bench.agenda.times .clock = [c] ∧ (r.after 1).bench.now < c) ∧
      (r.after 1).bench.now < (r.after 2).bench.now := by
  have keeps := step_keeps { Settings.immediate 1 with stimulus.fetchDelay := 3 } ([5] : List Word) none
    (Memory.empty none)
  obtain ⟨r, same⟩ : ∃ r : Recording (List Word) Memory,
      r = fresh { Settings.immediate 1 with stimulus.fetchDelay := 3 } [5] none (.empty none) := ⟨_, rfl⟩
  dsimp only at keeps
  rw [← same] at keeps
  have returns : (r.after 0).step.result = .ok (.advanced 0) := by
    rw [same]
    exact Turn.result_of_toOption (by decide +kernel)
  have returned : ∀ i < 1, ∃ outcome, (r.after i).step.result = .ok outcome := by
    intro i first
    obtain rfl := Nat.lt_one_iff.mp first
    exact ⟨_, returns⟩
  have simulates : (r.after 1).bench.Simulates := by
    have unlimited : (r.after 1).bench.limit = none := by
      rw [same]
      decide +kernel
    refine ⟨by rw [same]; decide +kernel, ⟨1, .clock⟩, by rw [same]; decide +kernel, ?_⟩
    rw [unlimited]
    nofun
  obtain ⟨kept, _, _, later, _⟩ := keeps
  exact ⟨r, same, returns, simulates, (kept 1 Nat.one_pos returned).1,
    later (by decide) 0 1 Nat.one_pos returned simulates⟩

end Recording

end IdentifyBench

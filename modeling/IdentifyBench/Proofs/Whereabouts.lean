import IdentifyBench.Proofs.Stepping

/-! Where the two processes are. The clock has a wake-up on the agenda, and the stimulus is in one
place: it has a wake-up too, or it waits for an edge, or it has asked for the stop. A wake-up is lost
only with an instant that is refused, and the stimulus only there or with a source that has run dry.
None of this depends on the timetable, so that it outlives every halt. -/
namespace IdentifyBench

inductive Whereabouts
  | scheduled (t : Instant)
  | atEdge
  | finished
  /-- Nothing resumes it any more. -/
  | lost
  deriving DecidableEq

namespace Whereabouts

def times : Whereabouts → List Instant
  | scheduled t => [t]
  | _ => []

def Suits : Whereabouts → Phase → Prop
  | scheduled _, phase => 0 < phase.rank
  | atEdge, phase => phase = .awaitFetch
  | finished, _ => True
  | lost, _ => True

def ofWait (now : Instant) : Wait → Whereabouts
  | .delay time => scheduled (now.after time)
  | .risingEdge => atEdge
  | .stop => finished

theorem ofWait_ne_lost (now : Instant) (wait : Wait) : ofWait now wait ≠ lost := by
  cases wait <;> simp [ofWait]

/-- Where a rising edge may bring the stimulus: on to its fetch delay, if that is what it has waited
for. -/
def Passes (s : Settings) (now : Instant) (place place' : Whereabouts) : Prop :=
  place' = place ∨ place = atEdge ∧ place' = scheduled (now.after s.timetable.fetch)

theorem Passes.trans {s : Settings} {now : Instant} {place place' place'' : Whereabouts}
    (first : place.Passes s now place') (second : place'.Passes s now place'') :
    place.Passes s now place'' := by
  rcases first with rfl | ⟨waiting, rfl⟩
  · exact second
  · rcases second with rfl | ⟨again, _⟩
    · exact .inr ⟨waiting, rfl⟩
    · cases again

end Whereabouts

theorem Instant.after_le_last (now : Instant) (delay : Nat) : now.after delay ≤ last :=
  Nat.min_le_right _ _

theorem Instant.le_after {now : Instant} (early : now ≤ last) (delay : Nat) : now ≤ now.after delay :=
  Nat.le_min.mpr ⟨Nat.le_add_right _ _, early⟩

theorem Instant.lt_after {now : Instant} (early : now < last) {delay : Nat} (positive : 0 < delay) :
    now < now.after delay :=
  Nat.lt_min.mpr ⟨Nat.lt_add_of_pos_right positive, early⟩

namespace Stimulus

variable {σ : Type}

theorem suits_nextCycle (s : Stimulus σ) (now : Instant) :
    (Whereabouts.ofWait now s.nextCycle.2).Suits s.nextCycle.1.phase := by
  unfold nextCycle
  split
  · trivial
  · rfl

theorem fetchDelay_nextCycle (s : Stimulus σ) : s.nextCycle.1.fetchDelay = s.fetchDelay := by
  unfold nextCycle
  split <;> rfl

variable [WordSource σ]

theorem suits_resume {s : Stimulus σ} {now : Instant} {b : Bus} {wait : Wait}
    (waits : (s.resume now b).wait = .ok wait) :
    (Whereabouts.ofWait now wait).Suits (s.resume now b).stimulus.phase := by
  unfold resume at waits ⊢
  cases phase : s.phase with
  | enable =>
    rw [phase] at waits
    cases waits
    exact suits_nextCycle s now
  | present =>
    rw [phase] at waits
    dsimp only at waits ⊢
    rcases next : WordSource.next s.source with ⟨_ | word, source⟩
    · rw [next] at waits
      cases waits
    · rw [next] at waits
      cases waits
      exact suits_nextCycle _ now
  | _ =>
    rw [phase] at waits
    cases waits
    simp [Whereabouts.ofWait, Whereabouts.Suits, Phase.rank]

theorem fetchDelay_resume (s : Stimulus σ) (now : Instant) (b : Bus) :
    (s.resume now b).stimulus.fetchDelay = s.fetchDelay := by
  unfold resume
  cases s.phase with
  | enable => exact fetchDelay_nextCycle s
  | present =>
    dsimp only
    rcases WordSource.next s.source with ⟨_ | word, source⟩
    · rfl
    · exact fetchDelay_nextCycle _
  | _ => rfl

end Stimulus

namespace Bench

variable {σ : Type}

def without (b : Bench σ) (w : Wakeup) : Bench σ := { b with agenda := b.agenda.erase w }

theorem without_first {b : Bench σ} {first : Wakeup} {rest : Agenda}
    (next : b.agenda = first :: rest) : b.without first = { b with agenda := rest } := by
  rw [without, next, List.erase_cons_head]

/-- The clock is due at `tick`, if at all, and the stimulus is in its place. What is scheduled lies
neither behind nor beyond the timeline. -/
structure Housed (s : Settings) (tick : Option Instant) (place : Whereabouts) (b : Bench σ) :
    Prop where
  started : b.started = true
  early : b.now ≤ Instant.last
  ordered : b.agenda.Ordered
  within : ∀ w ∈ b.agenda, b.now ≤ w.time ∧ w.time ≤ Instant.last
  clockDue : b.agenda.times .clock = tick.toList
  stimulusDue : b.agenda.times .stimulus = place.times
  awaiting : b.awaitingEdge = decide (place = .atEdge)
  stopped : b.stopped = decide (place = .finished)
  suits : place.Suits b.stimulus.phase
  clock : b.clock = .ofPeriod s.timetable.period
  fetch : b.stimulus.fetchDelay = s.timetable.fetch
  rounds : b.maxRounds = s.general.maxDeltaRounds.toNat

theorem housed_start (s : Settings) (source : σ) :
    (Bench.start (.new s source)).Housed s (some 0) (.scheduled 0) where
  started := rfl
  early := Nat.zero_le _
  ordered := Agenda.ordered_add (a := Agenda.add [] ⟨0, .clock⟩)
    (Agenda.ordered_add List.Pairwise.nil _) ⟨0, .stimulus⟩
  within := by
    intro w inside
    have start : w.time = 0 := by
      rcases Agenda.mem_add.mp inside with rfl | before
      · rfl
      · rcases Agenda.mem_add.mp before with rfl | impossible
        · rfl
        · cases impossible
    rw [start]
    exact ⟨Nat.le_refl _, Nat.zero_le _⟩
  clockDue := rfl
  stimulusDue := rfl
  awaiting := rfl
  stopped := rfl
  suits := Nat.zero_lt_succ _
  clock := rfl
  fetch := rfl
  rounds := rfl

namespace Housed

variable {s : Settings} {tick : Option Instant} {place : Whereabouts} {b d : Bench σ}

theorem calm (housed : b.Housed s tick place) : b.Calm := by
  intro awaiting
  rw [housed.awaiting] at awaiting
  obtain rfl := of_decide_eq_true awaiting
  exact housed.suits

theorem settles (housed : b.Housed s tick place) (settles : b.Settles d) : d.Housed s tick place where
  started := settles.started.trans housed.started
  early := settles.now ▸ housed.early
  ordered := settles.agenda ▸ housed.ordered
  within := by
    rw [settles.agenda, settles.now]
    exact housed.within
  clockDue := settles.agenda ▸ housed.clockDue
  stimulusDue := settles.agenda ▸ housed.stimulusDue
  awaiting := settles.awaiting.trans housed.awaiting
  stopped := settles.stopped.trans housed.stopped
  suits := settles.stimulus ▸ housed.suits
  clock := settles.clock.trans housed.clock
  fetch := settles.stimulus ▸ housed.fetch
  rounds := settles.maxRounds.trans housed.rounds

theorem tally (housed : b.Housed s tick place) (tally : Tally) :
    { b with tally }.Housed s tick place :=
  ⟨housed.started, housed.early, housed.ordered, housed.within, housed.clockDue, housed.stimulusDue,
    housed.awaiting, housed.stopped, housed.suits, housed.clock, housed.fetch, housed.rounds⟩

theorem within_add {a : Agenda} {now t : Instant} {p : Process}
    (within : ∀ w ∈ a, now ≤ w.time ∧ w.time ≤ Instant.last) (ahead : now ≤ t)
    (early : t ≤ Instant.last) : ∀ w ∈ a.add ⟨t, p⟩, now ≤ w.time ∧ w.time ≤ Instant.last := by
  intro w inside
  rcases Agenda.mem_add.mp inside with rfl | before
  · exact ⟨ahead, early⟩
  · exact within w before

theorem fetched (housed : b.Housed s tick .atEdge) :
    b.fetch.Housed s tick (.scheduled (b.now.after s.timetable.fetch)) where
  started := housed.started
  early := housed.early
  ordered := Agenda.ordered_add housed.ordered _
  within := within_add housed.within (Instant.le_after housed.early _) (Instant.after_le_last _ _)
  clockDue := (Agenda.times_add_of_ne (by simp) _).trans housed.clockDue
  stimulusDue := by
    rw [← housed.fetch]
    exact Agenda.times_add_of_nil housed.stimulusDue
  awaiting := rfl
  stopped := housed.stopped
  suits := Nat.zero_lt_one
  clock := housed.clock
  fetch := housed.fetch
  rounds := housed.rounds

theorem edge (housed : b.Housed s tick place) (moved : LineSet) :
    ∃ place', (b.edge moved).Housed s tick place' ∧ place.Passes s b.now place' ∧
      (b.edge moved).now = b.now := by
  unfold Bench.edge
  dsimp only
  split
  · have counted := housed.tally { b.tally with clockCycles := b.tally.clockCycles + 1 }
    split
    · rename_i awaiting
      rw [housed.awaiting] at awaiting
      obtain rfl := of_decide_eq_true awaiting
      exact ⟨_, counted.fetched, .inr ⟨rfl, rfl⟩, rfl⟩
    · exact ⟨place, counted, .inl rfl, rfl⟩
  · exact ⟨place, housed, .inl rfl, rfl⟩

theorem reacted (housed : b.Housed s tick place) :
    ∃ place', b.reacted.Housed s tick place' ∧ place.Passes s b.now place' ∧
      b.reacted.now = b.now := by
  have answered := (Settles.commit b).trans (Settles.respond b.commit b.moved)
  obtain ⟨place', edged, passes, now⟩ := (housed.settles answered).edge b.moved
  rw [answered.now] at passes now
  exact ⟨place', edged, passes, now⟩

variable [WordSource σ]

theorem settle (housed : b.Housed s tick place) (left round : Nat) (due : Bool) :
    ∃ place', (Bench.settle left round due b).state.Housed s tick place' ∧
      place.Passes s b.now place' ∧ (Bench.settle left round due b).state.now = b.now ∧
      ∀ halt, (Bench.settle left round due b).result = .error halt →
        ∃ t rounds, halt = .failure (.unsettled t rounds) := by
  induction left generalizing round due place b with
  | zero =>
    refine ⟨place, housed, .inl rfl, rfl, ?_⟩
    intro halt halts
    cases halts
    exact ⟨_, _, rfl⟩
  | succ left ih =>
    rw [settle_succ]
    split
    · have rested := (Settles.commit b).trans (Settles.rest b.commit round due)
      refine ⟨place, housed.settles rested, .inl rfl, rested.now, ?_⟩
      intro halt halts
      rw [rest_result] at halts
      cases halts
    -- The place changes in one round at most: past its edge the stimulus does not wait for another.
    · obtain ⟨place', reacted, passes, now⟩ := housed.reacted
      obtain ⟨place'', settled, passes', now', unsettled⟩ :=
        ih reacted (round + 1) (due || b.moved.intersects Observation.triggers)
      rw [react_of_calm housed.calm, Turn.done_andThen]
      rw [now] at passes' now'
      exact ⟨place'', settled, passes.trans passes', now', unsettled⟩

theorem conclude (housed : b.Housed s tick place) :
    ∃ place', b.conclude.state.Housed s tick place' ∧ place.Passes s b.now place' ∧
      b.conclude.state.now = b.now ∧
      ∀ halt, b.conclude.result = .error halt →
        ∃ t rounds, halt = .failure (.unsettled t rounds) := by
  obtain ⟨place', settled, passes, now, unsettled⟩ := housed.settle b.maxRounds 0 false
  refine ⟨place', ?_, passes, ?_, ?_⟩
  · exact Turn.state_andThen (P := Housed s tick place') settled
      fun _ _ kept => kept.tally _
  · exact Turn.state_andThen (P := fun d : Bench σ => d.now = b.now) now fun _ _ kept => kept
  · intro halt halts
    unfold Bench.conclude Turn.andThen at halts
    split at halts
    · rename_i halt' halted
      obtain rfl := Except.error.inj halts
      exact unsettled _ halted
    · cases halts

omit [WordSource σ] in
theorem taken_clock (housed : b.Housed s tick place) {t : Instant}
    (inside : ⟨t, .clock⟩ ∈ b.agenda) :
    tick = some t ∧ (b.without ⟨t, .clock⟩).Housed s none place := by
  have due := Agenda.mem_times.mpr inside
  rw [housed.clockDue, Option.mem_toList] at due
  refine ⟨due, ?_⟩
  exact {
    housed with
    ordered := Agenda.ordered_erase housed.ordered _
    within := fun w left => housed.within w (List.mem_of_mem_erase left)
    clockDue := by
      rw [without, Agenda.times_erase_self b.agenda ⟨t, .clock⟩, housed.clockDue, due]
      simp
    stimulusDue := (Agenda.times_erase_of_ne (by simp) _).trans housed.stimulusDue }

omit [WordSource σ] in
theorem taken_stimulus (housed : b.Housed s tick place) {t : Instant}
    (inside : ⟨t, .stimulus⟩ ∈ b.agenda) :
    place = .scheduled t ∧ (b.without ⟨t, .stimulus⟩).Housed s tick .lost := by
  have due := Agenda.mem_times.mpr inside
  rw [housed.stimulusDue] at due
  obtain rfl : place = .scheduled t := by
    cases place with
    | scheduled u => rw [List.mem_singleton.mp due]
    | _ => cases due
  refine ⟨rfl, ?_⟩
  exact {
    housed with
    ordered := Agenda.ordered_erase housed.ordered _
    within := fun w left => housed.within w (List.mem_of_mem_erase left)
    clockDue := (Agenda.times_erase_of_ne (by simp) _).trans housed.clockDue
    stimulusDue := by
      rw [without, Agenda.times_erase_self b.agenda ⟨t, .stimulus⟩, housed.stimulusDue]
      simp [Whereabouts.times]
    suits := trivial }

omit [WordSource σ] in
theorem toggled (housed : b.Housed s none place) :
    b.toggleClock.Housed s (some (b.now.after (b.clock.toggle b.bus.clock.level).2)) place := by
  exact {
    housed with
    ordered := Agenda.ordered_add housed.ordered _
    within := within_add housed.within (Instant.le_after housed.early _) (Instant.after_le_last _ _)
    clockDue := Agenda.times_add_of_nil (w := ⟨_, .clock⟩) housed.clockDue
    stimulusDue := (Agenda.times_add_of_ne (by simp) _).trans housed.stimulusDue }

theorem resumed (housed : b.Housed s tick .lost) :
    b.resumeStimulus.Ends
      (fun d _ _ => ∃ wait, (b.stimulus.resume b.now b.bus).wait = .ok wait ∧
        d.stimulus = (b.stimulus.resume b.now b.bus).stimulus ∧
        d.Housed s tick (.ofWait b.now wait))
      fun d _ halt => d.Housed s tick .lost ∧
        ∃ issued expected, halt = .failure (.exhausted issued expected) := by
  have halts := halts_resumeStimulus b
  have fetch := b.stimulus.fetchDelay_resume b.now b.bus
  obtain ⟨r, resumes⟩ : ∃ r, b.stimulus.resume b.now b.bus = r := ⟨_, rfl⟩
  rw [resumes] at fetch
  cases waits : r.wait with
  | error f =>
    have failed : b.resumeStimulus =
        ⟨{ b with stimulus := r.stimulus, bus := r.bus }, r.events, .error (.failure f)⟩ := by
      unfold resumeStimulus
      dsimp only
      rw [resumes, waits]
    rw [failed] at halts ⊢
    refine ⟨?_, halts⟩
    exact { housed with suits := trivial, fetch := fetch.trans housed.fetch }
  | ok wait =>
    have suits : (Whereabouts.ofWait b.now wait).Suits r.stimulus.phase := by
      rw [← resumes] at waits ⊢
      exact Stimulus.suits_resume waits
    rw [resumeStimulus_of_wait resumes waits, Turn.ends_done]
    refine ⟨wait, resumes ▸ waits, ?_, ?_⟩
    · rw [resumes]
      cases wait <;> rfl
    · cases wait with
      | delay time =>
        exact {
          housed with
          ordered := Agenda.ordered_add housed.ordered _
          within := within_add housed.within (Instant.le_after housed.early _)
            (Instant.after_le_last _ _)
          clockDue := (Agenda.times_add_of_ne (by simp) _).trans housed.clockDue
          stimulusDue := Agenda.times_add_of_nil (w := ⟨_, .stimulus⟩) housed.stimulusDue
          suits
          fetch := fetch.trans housed.fetch }
      | risingEdge =>
        exact { housed with awaiting := rfl, suits, fetch := fetch.trans housed.fetch }
      | stop =>
        exact { housed with stopped := rfl, suits, fetch := fetch.trans housed.fetch }

/-- A wake-up keeps the clock, and it keeps the stimulus unless the source has run dry. -/
theorem wake (housed : b.Housed s tick place) {w : Wakeup} (inside : w ∈ b.agenda) :
    (Bench.wake (b.without w) w.process).Ends
      (fun d _ _ => ∃ tick' place', d.Housed s tick' place' ∧ (tick.isSome → tick'.isSome) ∧
        (place ≠ .lost → place' ≠ .lost))
      fun d _ halt => ∃ tick' place', d.Housed s tick' place' ∧ (tick.isSome → tick'.isSome) ∧
        ∃ issued expected, halt = .failure (.exhausted issued expected) := by
  obtain ⟨t, p⟩ := w
  cases p with
  | clock =>
    obtain ⟨rfl, taken⟩ := housed.taken_clock inside
    exact ⟨_, _, taken.toggled, fun _ => rfl, id⟩
  | stimulus =>
    obtain ⟨rfl, taken⟩ := housed.taken_stimulus inside
    refine taken.resumed.mono ?_ ?_
    · rintro d _ _ ⟨wait, _, _, resumed⟩
      exact ⟨_, _, resumed, id, fun _ => Whereabouts.ofWait_ne_lost _ _⟩
    · rintro d _ halt ⟨lost, dry⟩
      exact ⟨_, _, lost, id, dry⟩

omit [WordSource σ] in
theorem ahead_or_due (housed : b.Housed s tick place) :
    (∀ w ∈ b.agenda, b.now < w.time) ∨ ∃ p rest, b.agenda = ⟨b.now, p⟩ :: rest := by
  cases agenda : b.agenda with
  | nil => exact .inl nofun
  | cons first rest =>
    have ordered := housed.ordered
    rw [agenda] at ordered
    have bound := (housed.within first (by simp [agenda])).1
    rcases Nat.eq_or_lt_of_le bound with due | ahead
    · exact .inr ⟨first.process, rest, by rw [due]⟩
    · exact .inl fun w inside =>
        Nat.lt_of_lt_of_le ahead ((Agenda.soonest_first ordered).2 w inside)

theorem drain (housed : b.Housed s tick place) (left : Nat) :
    (Bench.drain left b).Ends
      (fun d _ _ => ∃ tick' place', d.Housed s tick' place' ∧ (tick.isSome → tick'.isSome) ∧
        (place ≠ .lost → place' ≠ .lost) ∧ ∀ w ∈ d.agenda, d.now < w.time)
      fun d _ halt => ∃ tick' place', d.Housed s tick' place' ∧ (tick.isSome → tick'.isSome) ∧
        (halt = .endless ∨ ∃ issued expected, halt = .failure (.exhausted issued expected)) := by
  induction left generalizing tick place b with
  | zero =>
    rcases housed.ahead_or_due with ahead | ⟨p, rest, next⟩
    · rw [drain_of_ahead ahead]
      exact ⟨_, _, housed, id, id, ahead⟩
    · rw [drain_of_spent next]
      exact ⟨_, _, housed, id, .inl rfl⟩
  | succ left ih =>
    rcases housed.ahead_or_due with ahead | ⟨p, rest, next⟩
    · rw [drain_of_ahead ahead]
      exact ⟨_, _, housed, id, id, ahead⟩
    · rw [drain_of_due next, ← without_first next, Turn.andThen_ends]
      refine (housed.wake (w := ⟨b.now, p⟩) (by simp [next])).mono ?_ ?_
      · rintro d _ _ ⟨tick', place', woken, ticks, kept⟩
        refine (ih woken).mono ?_ ?_
        · rintro e _ _ ⟨tick'', place'', drained, ticks', kept', ahead⟩
          exact ⟨_, _, drained, ticks' ∘ ticks, kept' ∘ kept, ahead⟩
        · rintro e _ halt ⟨tick'', place'', drained, ticks', halts⟩
          exact ⟨_, _, drained, ticks' ∘ ticks, halts⟩
      · rintro d _ halt ⟨tick', place', woken, ticks, dry⟩
        exact ⟨_, _, woken, ticks, .inr dry⟩

end Housed

end Bench

end IdentifyBench

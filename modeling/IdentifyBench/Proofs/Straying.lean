import IdentifyBench.Proofs.Bookkeeping
import IdentifyBench.Proofs.Taking

/-! Benches that have left their course for good. A refused step takes the first wake-up with it, and
the others lie beyond the limit too. A source that has run dry leaves the stimulus without a wake-up, so
that nothing but the clock's line moves any more. And the last instant of the timeline never ends. The
bench can still be stepped on, but there is nothing new for the observer to see. -/
namespace IdentifyBench.Bench

variable {σ : Type}

/-- Whatever is left on the agenda lies beyond the limit. -/
structure Barred (b : Bench σ) : Prop where
  started : b.started = true
  beyond : ∀ w ∈ b.agenda, ∃ limit ∈ b.limit, limit < w.time

/-- The clock goes on alone, and its line is the only one that may move. -/
structure Lost (s : Settings) (b : Bench σ) : Prop where
  housed : ∃ tick, b.Housed s tick .lost
  answered : b.Answered
  still : ∀ l, l ≠ .clock → b.bus.next l = b.bus.level l

inductive Stranded (s : Settings) (b : Bench σ) : Prop
  | barred (barred : b.Barred)
  | endless (atEnd : b.AtEnd) (built : b.Built s)
  | lost (lost : b.Lost s)

variable {s : Settings} {tick : Option Instant} {place : Whereabouts} {b : Bench σ}

theorem Stranded.started (stranded : b.Stranded s) : b.started = true := by
  cases stranded with
  | barred barred => exact barred.started
  | endless _ built => exact built.started
  | lost lost =>
    obtain ⟨_, housed⟩ := lost.housed
    exact housed.started

theorem barred_of_first {first : Wakeup} {rest : Agenda} {limit : Instant} (started : b.started = true)
    (ordered : b.agenda.Ordered) (next : b.agenda = first :: rest) (given : limit ∈ b.limit)
    (beyond : limit < first.time) : b.Barred where
  started
  beyond w inside := by
    rw [next] at ordered inside
    exact ⟨limit, given, Nat.lt_of_lt_of_le beyond ((Agenda.soonest_first ordered).2 w inside)⟩

theorem Barred.drop (barred : b.Barred) (m : Nat) : Barred { b with agenda := b.agenda.drop m } where
  started := barred.started
  beyond w left := barred.beyond w (List.mem_of_mem_drop left)

theorem barred_of_refused {first : Wakeup} {rest : Agenda} {limit : Instant} (started : b.started = true)
    (ordered : b.agenda.Ordered) (next : b.agenda = first :: rest) (given : limit ∈ b.limit)
    (beyond : limit < first.time) : Barred { b with agenda := rest } := by
  have left := (barred_of_first started ordered next given beyond).drop 1
  rw [next] at left
  exact left

theorem Barred.not_simulates (barred : b.Barred) : ¬b.Simulates := by
  rintro ⟨_, first, next, within⟩
  obtain ⟨rest, agenda⟩ := List.head?_eq_some_iff.mp next
  rw [start_of_started barred.started] at agenda
  obtain ⟨limit, given, beyond⟩ := barred.beyond first (by simp [agenda])
  exact Nat.not_lt_of_le (within limit given) beyond

namespace Lost

theorem arrive (lost : b.Lost s) : b.arrive.Lost s := by
  obtain ⟨⟨tick, housed⟩, answered, still⟩ := lost
  have start := housed.start_eq
  refine ⟨⟨tick, housed.arrived.1⟩, ?_, ?_⟩
  · rw [Bench.arrive, start]
    exact answered.arrive _
  · rw [Bench.arrive, start]
    exact still

theorem toggled {t : Instant} (lost : b.Lost s) (inside : ⟨t, .clock⟩ ∈ b.agenda) :
    (b.without ⟨t, .clock⟩).toggleClock.Lost s := by
  obtain ⟨⟨tick, housed⟩, answered, still⟩ := lost
  refine ⟨⟨_, (housed.taken_clock inside).2.toggled⟩, ?_, fun l other => ?_⟩
  · exact (frame_toggleClock _).answered ⟨answered.held, answered.outputs⟩
  · have kept := Bus.get_write_of_ne b.bus (b.clock.toggle b.bus.clock.level).1 other.symm
    refine (congrArg Wire.next kept).trans ((still l other).trans ?_)
    exact (congrArg Wire.level kept).symm

/-- A round moves the clock's line at most, and the stage answers what it has answered before. -/
theorem reacted (lost : b.Lost s) : b.reacted.Lost s := by
  obtain ⟨⟨tick, housed⟩, answered, still⟩ := lost
  have inputs : b.commit.bus.inputs = b.bus.inputs := by
    have word : b.bus.word.next = b.bus.word.level := still .word nofun
    have reset : b.bus.reset.next = b.bus.reset.level := still .reset nofun
    have enable : b.bus.enable.next = b.bus.enable.level := still .enable nofun
    have full : b.bus.arbiterFull.next = b.bus.arbiterFull.level := still .arbiterFull nofun
    exact b.bus.inputs_commit.trans (by simp [Bus.nextInputs, Bus.inputs, word, reset, enable, full])
  refine ⟨?_, ?_, fun l other => ?_⟩
  · obtain ⟨place, reacted, passes, _⟩ := housed.reacted
    rcases passes with rfl | ⟨waiting, _⟩
    · exact ⟨tick, reacted⟩
    · cases waiting
  · have responded := answered_respond answered
    rw [Bench.reacted]
    constructor
    · rw [edge_stage, edge_bus]
      exact responded.held
    · rw [edge_stage, edge_bus]
      exact responded.outputs
  · rw [level_reacted, Bench.reacted, edge_bus]
    by_cases moves : b.moved.intersects stageInputs = true
    · rw [respond_of_moves moves]
      cases driven : (b.stage.evaluate b.commit.bus.inputs).2.on l with
      | none =>
        have kept := Bus.get_drive_of_input b.commit.bus _ driven
        exact (congrArg Wire.next kept).trans (b.bus.next_commit l)
      | some value =>
        have promised := driven
        rw [inputs] at promised
        exact (Bus.next_drive b.commit.bus driven).trans (answered.outputs l value promised).symm
    · rw [respond, if_neg moves]
      exact b.bus.next_commit l

theorem moved_apart (lost : b.Lost s) : b.moved.intersects Observation.triggers = false := by
  rw [Bool.eq_false_iff, Ne, LineSet.intersects_iff]
  rintro ⟨l, moves, minds⟩
  rw [moved, Bus.mem_moved] at moves
  refine moves (lost.still l ?_)
  rintro rfl
  rcases mem_triggers.mp minds with impossible | impossible | impossible <;> cases impossible

theorem tally (lost : b.Lost s) (tally : Tally) : { b with tally }.Lost s := by
  obtain ⟨⟨tick, housed⟩, answered, still⟩ := lost
  exact ⟨⟨tick, housed.tally tally⟩, ⟨answered.held, answered.outputs⟩, still⟩

theorem commit (lost : b.Lost s) (empty : b.moved.isEmpty = true) : b.commit.Lost s := by
  rw [← reacted_of_still empty]
  exact lost.reacted

variable [WordSource σ]

theorem drain (lost : b.Lost s) (left : Nat) : (Bench.drain left b).state.Lost s := by
  refine drain_keeps (P := Lost s) (fun {b process rest} next lost => ?_) lost left
  have inside : (⟨b.now, process⟩ : Wakeup) ∈ b.agenda := by simp [next]
  rw [← without_first next]
  cases process with
  | clock => exact lost.toggled inside
  | stimulus =>
    obtain ⟨tick, housed⟩ := lost.housed
    obtain ⟨impossible, _⟩ := housed.taken_stimulus inside
    cases impossible

theorem settle (lost : b.Lost s) (left round : Nat) :
    (Bench.settle left round false b).state.Lost s ∧
      (Bench.settle left round false b).state.observer = b.observer := by
  induction left generalizing round b with
  | zero => exact ⟨lost, rfl⟩
  | succ left ih =>
    rw [settle_succ]
    split
    · rename_i empty
      exact ⟨(lost.commit empty).tally _, rfl⟩
    · obtain ⟨tick, housed⟩ := lost.housed
      obtain ⟨settled, observer⟩ := ih lost.reacted (round + 1)
      rw [react_of_calm housed.calm, Turn.done_andThen, lost.moved_apart, Bool.false_or]
      exact ⟨settled, observer.trans b.reacted_observed.1⟩

theorem conclude (lost : b.Lost s) :
    b.conclude.state.Lost s ∧ b.conclude.state.observer = b.observer :=
  Turn.state_andThen (P := fun d : Bench σ => d.Lost s ∧ d.observer = b.observer)
    (lost.settle b.maxRounds 0) fun _ _ settled => ⟨settled.1.tally _, settled.2⟩

end Lost

variable [WordSource σ]

theorem AtEnd.drain_state (atEnd : b.AtEnd) (left : Nat) : (Bench.drain left b).state.AtEnd :=
  drain_keeps (P := AtEnd) (fun next atEnd => atEnd.wake next) atEnd left

omit [WordSource σ] in
theorem AtEnd.arrive (atEnd : b.AtEnd) (started : b.started = true) : b.arrive = b := by
  obtain ⟨process, rest, next⟩ := atEnd.next
  rw [arrive_of_next (by rw [start_of_started started]; exact next), start_of_started started]

theorem AtEnd.step (atEnd : b.arrive.AtEnd) (built : b.arrive.Built s) (simulates : b.Simulates) :
    b.step.state.Stranded s ∧ b.step.state.observer = b.arrive.observer := by
  have halts := atEnd.drain (maxWakeups + 1)
  have frame := frame_drain (maxWakeups + 1) b.arrive
  rw [Bench.step, stepWithin_of_simulates simulates]
  cases returned : (Bench.drain (maxWakeups + 1) b.arrive).result with
  | error halt =>
    rw [Turn.andThen_of_error returned]
    exact ⟨.endless (atEnd.drain_state _) (built.frame frame), frame.observer⟩
  | ok x =>
    rw [Turn.ends_iff_of_ok returned] at halts
    exact halts.elim

theorem Lost.step (lost : b.Lost s) (simulates : b.Simulates) :
    b.step.state.Lost s ∧ b.step.state.observer = b.observer := by
  obtain ⟨tick, housed⟩ := lost.housed
  have drained := lost.arrive.drain (maxWakeups + 1)
  have kept : (Bench.drain (maxWakeups + 1) b.arrive).state.observer = b.observer := by
    have frame := frame_drain (maxWakeups + 1) b.arrive
    rw [frame.observer, Bench.arrive, housed.start_eq]
  rw [Bench.step, stepWithin_of_simulates simulates]
  refine Turn.state_andThen (P := fun d : Bench σ => d.Lost s ∧ d.observer = b.observer)
    ⟨drained, kept⟩ fun d _ drained => ?_
  obtain ⟨concluded, observer⟩ := drained.1.conclude
  exact ⟨concluded, observer.trans drained.2⟩

/-- There is no way back from any of these, and the observer is not shown anything. -/
theorem Stranded.step (stranded : b.Stranded s) (ordered : b.agenda.Ordered) :
    b.step.state.Stranded s ∧ b.step.state.observer = b.observer := by
  have start := start_of_started stranded.started
  cases going : b.stopped with
  | true =>
    rw [Bench.step, stepWithin_of_stopped going]
    exact ⟨stranded, rfl⟩
  | false =>
    rcases stepWithin_cases going with
      ⟨_, step⟩ | ⟨first, rest, limit, given, beyond, next, step⟩ | simulates
    · rw [Bench.step, step, start]
      exact ⟨stranded, rfl⟩
    · rw [start] at next step
      rw [Bench.step, step]
      exact ⟨.barred (barred_of_refused stranded.started ordered next given beyond), rfl⟩
    · cases stranded with
      | barred barred => exact absurd simulates barred.not_simulates
      | endless atEnd built =>
        have arrive := atEnd.arrive built.started
        have stepped := AtEnd.step (s := s) (arrive.symm ▸ atEnd) (arrive.symm ▸ built) simulates
        rw [arrive] at stepped
        exact stepped
      | lost lost =>
        obtain ⟨stepped, observer⟩ := lost.step simulates
        exact ⟨.lost stepped, observer⟩

/-- Before its source runs dry, a stimulus that presents has written nothing in the same instant. -/
theorem Housed.drain_dry (housed : b.Housed s tick place) (due : b.stimulus.phase = .present)
    (left : Nat) :
    (Bench.drain left b).Ends (fun _ _ _ => True) fun d _ halt =>
      halt = .endless ∨
        (∃ tick', d.Housed s tick' .lost) ∧ ∀ l, l ≠ .clock → d.bus.get l = b.bus.get l := by
  induction left generalizing tick place b with
  | zero =>
    unfold Bench.drain
    split
    · trivial
    · split
      · exact .inl rfl
      · trivial
  | succ left ih =>
    rcases housed.ahead_or_due with ahead | ⟨p, rest, next⟩
    · rw [drain_of_ahead ahead]
      trivial
    · have inside : (⟨b.now, p⟩ : Wakeup) ∈ b.agenda := by simp [next]
      rw [drain_of_due next, ← without_first next, Turn.andThen_ends]
      cases p with
      | clock =>
        rw [Bench.wake, Turn.ends_done]
        refine (ih (housed.taken_clock inside).2.toggled due).mono ?_ ?_
        · exact fun _ _ _ _ => trivial
        · rintro d _ halt (endless | ⟨lost, kept⟩)
          · exact .inl endless
          · refine .inr ⟨lost, fun l other => (kept l other).trans ?_⟩
            exact Bus.get_write_of_ne b.bus _ other.symm
      | stimulus =>
        obtain ⟨rfl, taken⟩ := housed.taken_stimulus inside
        have resumed := taken.resumed
        cases waits : (b.stimulus.resume b.now b.bus).wait with
        | error f =>
          have failed := resumeStimulus_of_error (b := b.without ⟨b.now, .stimulus⟩) waits
          rw [Bench.wake]
          rw [failed] at resumed ⊢
          refine .inr ⟨⟨tick, resumed.1⟩, fun l _ => ?_⟩
          exact congrArg (·.get l) (Stimulus.resume_of_error waits).1
        | ok wait =>
          have returns : (b.without ⟨b.now, .stimulus⟩).resumeStimulus.result = .ok () := by
            rw [resumeStimulus_of_wait (b := b.without ⟨b.now, .stimulus⟩) rfl waits]
            rfl
          rw [Turn.ends_iff_of_ok returns] at resumed
          obtain ⟨_, _, stimulus, resumed⟩ := resumed
          have lower := Stimulus.rank_resume (by rw [due]; decide) waits
          refine (Turn.ends_iff_of_ok returns).mpr ((resumed.drain_undrawn ?_ left).mono ?_ ?_)
          · intro again
            rw [stimulus] at again
            rw [due, show (b.stimulus.resume b.now b.bus).stimulus.phase = _ from again] at lower
            exact Nat.lt_irrefl _ lower
          · exact fun _ _ _ _ => trivial
          · exact fun _ _ _ endless => .inl endless

end IdentifyBench.Bench

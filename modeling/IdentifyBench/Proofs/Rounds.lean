import IdentifyBench.Proofs.Likeness
import IdentifyBench.Proofs.Records

/-! How many rounds an instant takes. Inputs move in the first round and outputs in the second, and a
third one never moves anything, so that a budget of three is always enough. The first instant needs
more than one round. The second round is needed where the outputs move, and that is exactly at the
first word that shows on them. -/
namespace IdentifyBench

open WordSource

theorem identify_word (w : Word) : (identify w).word = w := by
  unfold identify
  split
  · rfl
  · unfold Identification.classified
    split <;> rfl

theorem Tally.deltaRounds_record (t : Tally) (o : Observation) :
    (t.record o).deltaRounds = t.deltaRounds := by
  unfold record
  rw [classify_eq]

theorem Stimulus.resume_undrawn {σ : Type} [WordSource σ] {s : Stimulus σ} (going : 0 < s.phase.rank)
    (undrawn : s.phase ≠ .present) (now : Instant) (b : Bus) :
    (∃ wait, (s.resume now b).wait = .ok wait) ∧ (s.resume now b).stimulus.phase ≠ .present := by
  unfold resume
  cases phase : s.phase with
  | reset => exact ⟨⟨_, rfl⟩, nofun⟩
  | release => exact ⟨⟨_, rfl⟩, nofun⟩
  | enable =>
    refine ⟨⟨_, rfl⟩, ?_⟩
    dsimp only
    unfold nextCycle
    split <;> exact nofun
  | present => exact absurd phase undrawn
  | awaitFetch =>
    rw [phase] at going
    cases going
  | done =>
    rw [phase] at going
    cases going

namespace Bench

variable {σ : Type} {m : Nat}

theorem reacted_same (b : Bench σ) :
    b.reacted.now = b.now ∧ b.reacted.maxRounds = b.maxRounds ∧
      b.reacted.tally.deltaRounds = b.tally.deltaRounds := by
  unfold reacted edge respond
  split <;> split
  · dsimp only
    split <;> exact ⟨rfl, rfl, rfl⟩
  · exact ⟨rfl, rfl, rfl⟩
  · dsimp only
    split <;> exact ⟨rfl, rfl, rfl⟩
  · exact ⟨rfl, rfl, rfl⟩

theorem deltaRounds_observe (b : Bench σ) : b.observe.state.tally.deltaRounds = b.tally.deltaRounds := by
  unfold observe
  split
  · rfl
  · exact Tally.deltaRounds_record _ _

theorem deltaRounds_rest (b : Bench σ) (round : Nat) (due : Bool) :
    (b.rest round due).state.tally.deltaRounds = max b.tally.deltaRounds round := by
  unfold rest
  cases due with
  | false => rfl
  | true => exact deltaRounds_observe _

theorem deltaRounds_concluded (d : Bench σ) :
    d.concluded.tally.deltaRounds = max d.tally.deltaRounds d.rounds := by
  rw [← d.reacted_same.2.2]
  exact deltaRounds_rest d.reacted.commit d.rounds d.watched

theorem rounds_le (d : Bench σ) : d.rounds ≤ 2 := by
  unfold rounds
  split
  · exact Nat.zero_le 2
  · split <;> decide

theorem rounds_of_toggled {d : Bench σ} {level : Bool} {c : Nat} (ticks : d.Ticks level c true) :
    1 ≤ d.rounds := by
  obtain ⟨_, wire, _⟩ := ticks
  have moves : Line.clock ∈ d.moved := by
    have present : d.bus.level .clock = level := congrArg Wire.level wire
    have next : d.bus.next .clock = !level := congrArg Wire.next wire
    rw [moved, Bus.mem_moved, present, next]
    exact Bool.not_ne_self level
  unfold rounds
  split
  · rename_i still
    exact absurd moves ((LineSet.isEmpty_iff _).mp still .clock)
  · split <;> decide

theorem rounds_lt_two_iff (d : Bench σ) : d.rounds < 2 ↔ d.reacted.moved.isEmpty = true := by
  unfold rounds
  split
  · rename_i still
    rw [reacted_of_still still, moved_of_quiet d.bus.commit_quiet]
    decide
  · split <;> simp_all

variable [WordSource σ]

theorem settle_result_of_inputsQuiet {b : Bench σ} (quiet : b.InputsQuiet) (left round : Nat)
    (due : Bool) :
    (settle left round due b).result =
      if b.moved.isEmpty.not.toNat < left then .ok ()
      else .error (.failure (.unsettled b.now b.maxRounds)) := by
  match left with
  | 0 => rfl
  | 1 =>
    rw [settle_succ]
    cases b.moved.isEmpty with
    | true => exact rest_result _ _ _
    | false =>
      rw [react_of_inputsQuiet quiet]
      rfl
  | left + 2 =>
    rw [settle_of_inputsQuiet quiet (Nat.le_add_left 2 left), rest_result, if_pos]
    cases b.moved.isEmpty <;> simp

/-- An instant settles exactly if its budget exceeds the rounds that move lines. -/
theorem settle_result_of_calm {b : Bench σ} (calm : b.Calm) (left : Nat) :
    (settle left 0 false b).result =
      if b.rounds < left then .ok () else .error (.failure (.unsettled b.now b.maxRounds)) := by
  cases left with
  | zero => rfl
  | succ left =>
    obtain ⟨now, budget, _⟩ := b.reacted_same
    rw [settle_succ]
    unfold rounds
    cases b.moved.isEmpty with
    | true => rw [if_pos rfl, if_pos rfl, rest_result, if_pos (Nat.succ_pos left)]
    | false =>
      rw [react_of_calm calm, Turn.done_andThen, if_neg Bool.false_ne_true, if_neg Bool.false_ne_true]
      dsimp only
      rw [settle_result_of_inputsQuiet b.reacted_inputsQuiet, now, budget]
      refine if_congr ?_ rfl rfl
      cases b.reacted.moved.isEmpty <;> exact Nat.succ_lt_succ_iff.symm

theorem deltaRounds_settle {b : Bench σ} (calm : b.Calm) {left : Nat} (enough : 3 ≤ left) :
    (settle left 0 false b).state.tally.deltaRounds = max b.tally.deltaRounds b.rounds := by
  rw [settle_of_calm calm enough, ← b.reacted_same.2.2]
  exact deltaRounds_rest b.reacted.commit b.rounds _

theorem conclude_result_of_calm {d : Bench σ} (calm : d.Calm) :
    d.conclude.result =
      if d.rounds < d.maxRounds then .ok (if d.stopped then .stopped d.now else .advanced d.now)
      else .error (.failure (.unsettled d.now d.maxRounds)) := by
  have settles := settle_result_of_calm calm d.maxRounds
  split
  · rename_i short
    rw [if_pos short] at settles
    obtain ⟨outcome, returns⟩ : ∃ outcome, d.conclude.result = .ok outcome := by
      rw [conclude, Turn.andThen_of_ok settles]
      exact ⟨_, rfl⟩
    -- What a larger budget comes to is known, and this one comes to the same since it is enough.
    have like : d.Like Eq (max 3 d.maxRounds) { d with maxRounds := max 3 d.maxRounds } :=
      ⟨Nat.le_max_right _ _, d.agenda, rfl, rfl⟩
    have calm' : Calm { d with maxRounds := max 3 d.maxRounds } := calm
    have settled := conclude_of_calm calm' (Nat.le_max_left _ _)
    exact (like.conclude lasting_eq returns).result.symm.trans (congrArg Turn.result settled)
  · rename_i long
    rw [if_neg long] at settles
    rw [conclude, Turn.andThen_of_error settles]

namespace Housed

variable {s : Settings} {tick : Option Instant} {place : Whereabouts} {b : Bench σ}

omit [WordSource σ] in
theorem arrive_tally (housed : b.Housed s tick place) : b.arrive.tally = b.tally := by
  rw [arrive, housed.start_eq]

/-- With a budget of three rounds every instant settles, and none takes more than two. -/
theorem step_settles (housed : b.Housed s tick place) (enough : 3 ≤ s.general.maxDeltaRounds.toNat) :
    b.step.Ends (fun d _ _ => d.tally.deltaRounds ≤ max b.tally.deltaRounds 2)
      fun d _ halt => d.tally.deltaRounds ≤ max b.tally.deltaRounds 2 ∧
        ∀ t rounds, halt ≠ .failure (.unsettled t rounds) := by
  have before : b.tally.deltaRounds ≤ max b.tally.deltaRounds 2 := Nat.le_max_left _ _
  cases going : b.stopped with
  | true =>
    rw [Bench.step, stepWithin_of_stopped going]
    exact before
  | false =>
    rcases stepWithin_cases going with ⟨_, step⟩ | ⟨_, _, _, _, _, _, step⟩ | simulates
    · rw [Bench.step, step, housed.start_eq]
      exact ⟨before, fun t rounds same => by cases same⟩
    · rw [Bench.step, step, housed.start_eq]
      exact ⟨before, fun t rounds same => by cases same⟩
    · rw [Bench.step, stepWithin_of_simulates simulates, Turn.andThen_ends]
      refine ((housed.arrived.1.drain _).and_state (frame_drain _ _)).mono ?_ ?_
      · rintro d _ _ ⟨⟨tick', place', drained, _⟩, frame⟩
        rw [conclude_of_calm drained.calm (drained.rounds.symm ▸ enough)]
        have kept : d.tally.deltaRounds = b.tally.deltaRounds := by
          rw [frame.tally, housed.arrive_tally]
        refine d.deltaRounds_concluded.trans_le ?_
        rw [kept]
        exact max_le_max (Nat.le_refl _) d.rounds_le
      · rintro d _ halt ⟨⟨_, _, _, _, halts⟩, frame⟩
        refine ⟨?_, ?_⟩
        · rw [frame.tally, housed.arrive_tally]
          exact before
        · rintro t rounds rfl
          rcases halts with impossible | ⟨_, _, impossible⟩ <;> cases impossible

/-- No source runs dry before it has been asked for a word. -/
theorem drain_undrawn (housed : b.Housed s tick place) (undrawn : b.stimulus.phase ≠ .present)
    (left : Nat) : (Bench.drain left b).Ends (fun _ _ _ => True) fun _ _ halt => halt = .endless := by
  induction left generalizing tick place b with
  | zero =>
    rcases housed.ahead_or_due with ahead | ⟨p, rest, next⟩
    · rw [drain_of_ahead ahead]
      trivial
    · rw [drain_of_spent next]
      exact rfl
  | succ left ih =>
    rcases housed.ahead_or_due with ahead | ⟨p, rest, next⟩
    · rw [drain_of_ahead ahead]
      trivial
    · have inside : (⟨b.now, p⟩ : Wakeup) ∈ b.agenda := by simp [next]
      rw [drain_of_due next, ← without_first next, Turn.andThen_ends]
      cases p with
      | clock => exact ih (housed.taken_clock inside).2.toggled undrawn
      | stimulus =>
        obtain ⟨rfl, taken⟩ := housed.taken_stimulus inside
        obtain ⟨⟨wait, waits⟩, later⟩ := Stimulus.resume_undrawn housed.suits undrawn b.now b.bus
        have returns : (b.without ⟨b.now, .stimulus⟩).resumeStimulus.result = .ok () := by
          rw [resumeStimulus_of_wait (b := b.without ⟨b.now, .stimulus⟩) rfl waits]
          rfl
        have resumed := taken.resumed
        rw [Turn.ends_iff_of_ok returns] at resumed
        obtain ⟨_, _, stimulus, resumed⟩ := resumed
        refine (Turn.ends_iff_of_ok returns).mpr (ih resumed ?_)
        rw [stimulus]
        exact later

end Housed

/-- The first instant toggles the clock, which takes a round of its own. -/
theorem step_start_unsettled (s : Settings) (source : σ) (wide : 2 ≤ s.timetable.period)
    (budget : s.general.maxDeltaRounds.toNat = 1) :
    (Bench.start (.new s source)).step.result = .error (.failure (.unsettled 0 1)) := by
  obtain ⟨b, same⟩ : ∃ b, b = Bench.start (.new s source) := ⟨_, rfl⟩
  have on := onCourse_start s source wide
  have housed := housed_start s source
  rw [← same] at on housed ⊢
  have simulates : b.Simulates := by
    rw [same]
    exact ⟨rfl, ⟨0, .clock⟩, rfl, fun _ _ => Nat.zero_le _⟩
  have arrive : b.arrive = b := by
    rw [same]
    rfl
  have under : Underway s source 0 false 0 false .reset 0 b := by
    rw [same] at on ⊢
    exact on.underway (t := 0) ⟨rfl, rfl⟩ (.start (Nat.lt_of_lt_of_le Nat.two_pos wide)) wide nofun rfl
      (by decide)
  have undrawn := housed.drain_undrawn (by rw [same]; nofun) (maxWakeups + 1)
  have rank : Phase.reset.rank + (!false).toNat ≤ maxWakeups + 1 := by decide
  have drained := ((under.drains rank).and undrawn).and_state (frame_drain _ b)
  rw [step, stepWithin_of_simulates simulates, arrive]
  cases returned : (drain (maxWakeups + 1) b).result with
  | error halt =>
    rw [Turn.ends_iff_of_error returned] at drained
    obtain ⟨⟨⟨_, dry, _⟩, endless⟩, _⟩ := drained
    have impossible := dry.halts.symm.trans endless
    cases impossible
  | ok x =>
    rw [Turn.ends_iff_of_ok returned] at drained
    obtain ⟨⟨⟨toggled, phase, n, under', clockOver, _⟩, _⟩, frame⟩ := drained
    have now : (drain (maxWakeups + 1) b).state.now = 0 := frame.now.trans (by rw [same]; rfl)
    have budget : (drain (maxWakeups + 1) b).state.maxRounds = 1 :=
      frame.maxRounds.trans (housed.rounds.trans budget)
    obtain rfl := clockOver now.symm
    have long : ¬(drain (maxWakeups + 1) b).state.rounds <
        (drain (maxWakeups + 1) b).state.maxRounds := by
      rw [budget]
      exact Nat.not_lt_of_le (rounds_of_toggled under'.ticks)
    rw [Turn.andThen_of_ok returned]
    dsimp only
    rw [conclude_result_of_calm under'.standing.calm, if_neg long, now, budget]

theorem deltaRounds_after (s : Settings) (source : σ) (enough : 3 ≤ s.general.maxDeltaRounds.toNat)
    (n : Nat) : ((Bench.start (.new s source)).after n).tally.deltaRounds ≤ 2 := by
  induction n with
  | zero => exact Nat.zero_le 2
  | succ n ih =>
    obtain ⟨tick, place, housed, _⟩ := housed_after s source n
    have settles := (housed.step_settles enough).mono (fun _ _ _ within => within)
      (fun _ _ _ both => both.1)
    exact Nat.le_trans settles.state (max_le ih (Nat.le_refl 2))

omit [WordSource σ] in
theorem Like.calm {b d : Bench σ} (like : b.Like Eq m d) (calm : d.Calm) : b.Calm := by
  obtain ⟨_, _, _, rfl⟩ := like
  exact calm

omit [WordSource σ] in
theorem Like.rounds {b d : Bench σ} (like : b.Like Eq m d) : d.rounds = b.rounds := by
  have bus : d.reacted.bus = b.reacted.bus := by
    rw [reacted, reacted, edge_bus, edge_bus, like.moved]
    exact (like.commit.respond b.moved).1.bus
  have reacted : d.reacted.moved = b.reacted.moved := congrArg (fun bus => bus.commit.2) bus
  rw [Bench.rounds, Bench.rounds, like.moved, reacted]

theorem Like.step_result {b e : Bench σ} (like : b.Like Eq m e) (simulates : e.Simulates) {d : Bench σ}
    (state : (Bench.drain (maxWakeups + 1) e.arrive).state = d)
    (drained : (Bench.drain (maxWakeups + 1) e.arrive).result = .ok ()) (calm : d.Calm) :
    b.step.result =
      if d.rounds < b.maxRounds then .ok (if d.stopped then .stopped d.now else .advanced d.now)
      else .error (.failure (.unsettled d.now b.maxRounds)) := by
  have agree := like.arrive.drain (maxWakeups + 1)
  have frame := frame_drain (maxWakeups + 1) b.arrive
  have budget := frame.maxRounds.trans (start_maxRounds b)
  have alike := agree.state
  rw [Bench.step, stepWithin_of_simulates (like.simulates.mp simulates),
    Turn.andThen_of_ok (agree.result.symm.trans drained)]
  dsimp only
  obtain ⟨c, reached⟩ : ∃ c, (Bench.drain (maxWakeups + 1) b.arrive).state = c := ⟨_, rfl⟩
  rw [reached] at budget alike ⊢
  rw [state] at alike
  rw [conclude_result_of_calm (alike.calm calm), budget, alike.rounds, alike.stopped, alike.now]

variable {s : Settings} {source : σ} {since : Nat} {phase : Phase} {n : Nat} {b : Bench σ}

/-- One round is enough exactly if neither the word nor the arbiter changes. -/
theorem rounds_lt_two_iff_of_course {t since' : Nat} {d : Bench σ} {phase' : Phase} {n' : Nat}
    (on : OnCourse s source since phase n b) (frame : Frame { b with now := t } d)
    (on' : OnCourse s source since' phase' n' d.concluded) :
    d.rounds < 2 ↔
      drawn source n' = drawn source n ∧ s.stimulus.fullOn n' = s.stimulus.fullOn n := by
  have quiet := on.settled.quiet
  have before := on.carries_drawn
  have after := on'.carries_drawn
  rw [rounds_lt_two_iff, LineSet.isEmpty_iff]
  constructor
  · intro still
    have word := (moves_iff_of_output (l := .wordOut) quiet frame (by decide)).2
    have stall := (moves_iff_of_output (l := .stall) quiet frame (by decide)).2
    rw [after .wordOut _ rfl, before .wordOut _ rfl, identify_word, identify_word] at word
    rw [after .stall _ rfl, before .stall _ rfl] at stall
    exact ⟨Classical.not_not.mp fun changes => still _ (word.mpr changes),
      Classical.not_not.mp fun changes => still _ (stall.mpr changes)⟩
  · rintro ⟨word, full⟩ l moves
    rw [word, full] at after
    by_cases input : l ∈ stageInputs
    · exact not_mem_moved_of_inputsQuiet d.reacted_inputsQuiet input moves
    · refine (moves_iff_of_output quiet frame input).2.mp moves ?_
      cases driven : StageOutputs.on ⟨identify (drawn source n), s.stimulus.fullOn n⟩ l with
      | none => exact absurd ((StageOutputs.on_eq_none_iff _ l).mp driven) input
      | some value => rw [after l value driven, before l value driven]

/-- An instant of the course that comes to an outcome, where it is about to settle. -/
structure Settling (s : Settings) (source : σ) (n : Nat) (b d : Bench σ) (phase' : Phase) (n' : Nat) :
    Prop where
  simulates : b.Simulates
  drained : (drain (maxWakeups + 1) b.arrive).result = .ok ()
  reached : (drain (maxWakeups + 1) b.arrive).state = d
  calm : d.Calm
  state : b.step.state = d.concluded
  on : OnCourse s source (d.now + 1) phase' n' d.concluded
  count : n' = n ∨ n' = n + 1
  rounds : d.rounds < 2 ↔
    drawn source n' = drawn source n ∧ s.stimulus.fullOn n' = s.stimulus.fullOn n
  stopped : d.stopped = true ↔ phase' = .done

theorem OnCourse.arrival (on : OnCourse s source since phase n b) (wide : 2 ≤ s.timetable.period)
    (going : phase ≠ .done) (simulates : b.Simulates) :
    b.arrive = { b with now := b.arrive.now } ∧ b.arrive.Built s ∧
      ((∃ level c, Underway s source since level c false phase n b.arrive) ∨ b.arrive.AtEnd) := by
  have started := start_of_started on.built.started
  obtain ⟨_, first, due, within⟩ := simulates
  obtain ⟨rest, next⟩ := List.head?_eq_some_iff.mp due
  have arrive : b.arrive = { b with now := first.time } := by
    rw [arrive_of_next next, started]
  rw [started] at next
  rw [arrive]
  obtain ⟨level, c, ticks, wave⟩ := on.rhythm
  obtain ⟨t, soonest⟩ : ∃ t, t = (s.timetable.wake? phase n).elim c (min c) := ⟨_, rfl⟩
  have time := on.first_time ticks next
  rw [← soonest] at time
  refine ⟨rfl, on.built.arrive within, ?_⟩
  rcases Nat.lt_or_ge t Instant.last with early | late
  · obtain rfl : first.time = t := time.trans (Nat.min_eq_left (Nat.le_of_lt early))
    exact .inl ⟨level, c, on.underway ticks wave wide going soonest early⟩
  · rw [time.trans (Nat.min_eq_right late)]
    exact .inr (on.atEnd ticks (soonest ▸ late))

theorem OnCourse.arrives (on : OnCourse s source since phase n b) (wide : 2 ≤ s.timetable.period)
    (going : phase ≠ .done) {outcome : Outcome} (returns : b.step.result = .ok outcome) :
    b.Simulates ∧ b.arrive = { b with now := b.arrive.now } ∧ b.arrive.Built s ∧
      ∃ level c, Underway s source since level c false phase n b.arrive := by
  have running : b.stopped = false := by
    rw [on.standing.stopped]
    exact beq_eq_false_iff_ne.mpr going
  rcases stepWithin_cases running with ⟨_, fails⟩ | ⟨_, _, _, _, _, _, fails⟩ | simulates
  · rw [step, fails] at returns
    cases returns
  · rw [step, fails] at returns
    cases returns
  · obtain ⟨arrive, built, under | atEnd⟩ := on.arrival wide going simulates
    · exact ⟨simulates, arrive, built, under⟩
    · rw [step, stepWithin_of_simulates simulates] at returns
      have standing := atEnd.drain (maxWakeups + 1)
      cases returned : (drain (maxWakeups + 1) b.arrive).result with
      | error halt =>
        rw [Turn.andThen_of_error returned] at returns
        cases returns
      | ok x => exact ((Turn.ends_iff_of_ok returned).mp standing).elim

/-- An instant of the course that has woken everything due, and settles if its budget is enough. -/
structure Crossing (s : Settings) (source : σ) (since n : Nat) (b d : Bench σ) (level : Bool) (c : Nat)
    (toggled : Bool) (phase' phase'' : Phase) (n' : Nat) : Prop where
  drained : (drain (maxWakeups + 1) b.arrive).result = .ok ()
  reached : (drain (maxWakeups + 1) b.arrive).state = d
  frame : Frame { b with now := d.now } d
  under : Underway s source since level c toggled phase' n' d
  clockOver : c = d.now → toggled = true
  built : d.Built s
  on : OnCourse s source (d.now + 1) phase'' n' d.concluded
  ends : phase'' = .done ↔ phase' = .done
  count : n' = n ∨ n' = n + 1 ∧ d.now = s.timetable.word (n + 1)

theorem OnCourse.crossing (on : OnCourse s source since phase n b) (wide : 2 ≤ s.timetable.period)
    (going : phase ≠ .done) (arrive : b.arrive = { b with now := b.arrive.now })
    (built : b.arrive.Built s) {level : Bool} {c : Nat}
    (under : Underway s source since level c false phase n b.arrive) :
    (∃ d toggled phase' phase'' n', Crossing s source since n b d level c toggled phase' phase'' n') ∨
      ∃ issued expected, (drain (maxWakeups + 1) b.arrive).result =
        .error (.failure (.exhausted issued expected)) := by
  have positive : 0 < s.timetable.period := Nat.lt_of_lt_of_le Nat.two_pos wide
  have rank : phase.rank + (!false).toNat ≤ maxWakeups + 1 := by cases phase <;> decide
  have drained := (under.drains rank).and_state (frame_drain _ _)
  obtain ⟨d, reached⟩ : ∃ d, (drain (maxWakeups + 1) b.arrive).state = d := ⟨_, rfl⟩
  cases returned : (drain (maxWakeups + 1) b.arrive).result with
  | error halt =>
    rw [Turn.ends_iff_of_error returned] at drained
    obtain ⟨⟨_, dry, _⟩, _⟩ := drained
    exact .inr ⟨_, _, congrArg Except.error dry.halts⟩
  | ok x =>
    rw [Turn.ends_iff_of_ok returned, reached] at drained
    obtain ⟨⟨toggled, phase', n', under', clockOver, stimulusOver, told⟩, frame⟩ := drained
    have passes := under'.passes
    have recent := under'.recent
    have kept := frame.now
    rw [frame.now] at passes recent
    have count := Timetable.Passes.count_cases positive under.passes passes going recent
      (count_le_of_told told)
    have answered : b.arrive.Answered := arrive ▸ on.settled.answered.arrive _
    obtain ⟨phase'', on', same⟩ := under'.concludes clockOver stimulusOver (frame.answered answered)
      (built.frame frame)
    refine .inl ⟨d, toggled, phase', phase'', n', ?_⟩
    exact {
      drained := returned
      reached
      frame := by
        rw [kept, ← arrive]
        exact frame
      under := under'
      clockOver
      built := built.frame frame
      on := on'
      ends := same
      count := by
        rw [kept]
        exact count }

structure Passage (s : Settings) (source : σ) (since n : Nat) (b d : Bench σ) (level : Bool) (c : Nat)
    (toggled : Bool) (phase' phase'' : Phase) (n' : Nat) : Prop
    extends Crossing s source since n b d level c toggled phase' phase'' n' where
  simulates : b.Simulates
  state : b.step.state = d.concluded
  grows : since + n < d.now + 1 + n'

theorem OnCourse.passage (on : OnCourse s source since phase n b) (wide : 2 ≤ s.timetable.period)
    (enough : 3 ≤ s.general.maxDeltaRounds.toNat) (going : phase ≠ .done) {outcome : Outcome}
    (returns : b.step.result = .ok outcome) :
    ∃ d level c toggled phase' phase'' n',
      Passage s source since n b d level c toggled phase' phase'' n' := by
  obtain ⟨simulates, arrive, built, level, c, under⟩ := on.arrives wide going returns
  have step := stepWithin_of_simulates simulates maxWakeups
  obtain ⟨_, counted, advances⟩ := (Turn.ends_iff_of_ok returns).mp (on.step_ends wide enough going)
  rcases on.crossing wide going arrive built under with
    ⟨d, toggled, phase', phase'', n', crossing⟩ | ⟨_, _, dry⟩
  · have state : b.step.state = d.concluded := by
      rw [Bench.step, step, Turn.andThen_of_ok crossing.drained]
      dsimp only
      rw [crossing.reached, conclude_of_calm crossing.under.standing.calm
        (crossing.built.rounds.symm ▸ enough)]
    refine ⟨d, level, c, toggled, phase', phase'', n', ?_⟩
    exact {
      toCrossing := crossing
      simulates
      state
      grows := by
        have grows := advances.grows
        have issued := advances.on.standing.issued
        rw [state, crossing.on.standing.issued] at issued
        rw [state, concluded_now, ← issued] at grows
        exact grows }
  · rw [Bench.step, step, Turn.andThen_of_error dry] at returns
    cases returns

theorem OnCourse.settling (on : OnCourse s source since phase n b) (wide : 2 ≤ s.timetable.period)
    (enough : 3 ≤ s.general.maxDeltaRounds.toNat) (going : phase ≠ .done) {outcome : Outcome}
    (returns : b.step.result = .ok outcome) : ∃ d phase' n', Settling s source n b d phase' n' := by
  obtain ⟨d, _, _, _, _, phase'', n', passage⟩ := on.passage wide enough going returns
  refine ⟨d, phase'', n', ?_⟩
  exact {
    simulates := passage.simulates
    drained := passage.drained
    reached := passage.reached
    calm := passage.under.standing.calm
    state := passage.state
    on := passage.on
    count := passage.count.imp_right And.left
    rounds := rounds_lt_two_iff_of_course on passage.frame passage.on
    stopped := by
      rw [passage.under.standing.stopped, beq_iff_eq]
      exact passage.ends.symm }

end Bench

/-- None of the first `n` words shows on the outputs. -/
def Settings.Silent {σ : Type} [WordSource σ] (s : Settings) (source : σ) (n : Nat) : Prop :=
  ∀ i ≤ n, drawn source i = 0 ∧ s.stimulus.fullOn i = false

theorem Settings.Silent.next {σ : Type} [WordSource σ] {s : Settings} {source : σ} {n n' : Nat}
    (silent : s.Silent source n) (count : n' = n ∨ n' = n + 1)
    (same : drawn source n' = drawn source n ∧ s.stimulus.fullOn n' = s.stimulus.fullOn n) :
    s.Silent source n' := by
  rcases count with rfl | rfl
  · exact silent
  · intro i within
    rcases Nat.of_le_succ within with before | rfl
    · exact silent i before
    · obtain ⟨word, full⟩ := silent n (Nat.le_refl n)
      exact ⟨same.1.trans word, same.2.trans full⟩

theorem Settings.not_silent_iff {σ : Type} [WordSource σ] (s : Settings) {source : σ} {n : Nat}
    {words : List Word} (supplied : take n source = words.map some) :
    ¬s.Silent source n ↔ ∃ (i : Nat) (word : Word), words[i]? = some word ∧
      (word ≠ 0 ∨ s.stimulus.fullOn (i + 1) = true) := by
  have length := length_of_take supplied
  constructor
  · intro shows
    by_contra absent
    refine shows fun i within => ?_
    cases i with
    | zero => exact ⟨rfl, rfl⟩
    | succ i =>
      obtain ⟨word, listed, answered⟩ := word?_of_take supplied within
      rw [drawn_of_word? answered]
      refine ⟨?_, ?_⟩
      · by_contra loud
        exact absent ⟨i, word, listed, .inl loud⟩
      · by_contra full
        exact absent ⟨i, word, listed, .inr (Bool.not_eq_false _ ▸ full)⟩
  · rintro ⟨i, word, listed, shows⟩ silent
    have below : i < n := length ▸ (List.getElem?_eq_some_iff.mp listed).1
    obtain ⟨word', listed', answered⟩ := word?_of_take supplied below
    obtain rfl := Option.some.inj (listed.symm.trans listed')
    obtain ⟨zero, full⟩ := silent (i + 1) below
    rw [drawn_of_word? answered] at zero
    rcases shows with loud | high
    · exact loud zero
    · cases full.symm.trans high

namespace Bench

variable {σ : Type} [WordSource σ] {s : Settings} {source : σ} {m : UInt64}

theorem like_after (more : s.general.maxDeltaRounds ≤ m) {k : Nat}
    (going : ∀ j < k, ∃ t, ((Bench.start (.new s source)).after j).step.result = .ok (.advanced t)) :
    ((Bench.start (.new s source)).after k).Like Eq m.toNat
      ((Bench.start (.new (s.allowing m) source)).after k) := by
  induction k with
  | zero => exact ⟨UInt64.le_iff_toNat_le.mp more, _, rfl, rfl⟩
  | succ k ih =>
    obtain ⟨t, returns⟩ := going k (Nat.lt_succ_self k)
    exact ((ih fun j below => going j (Nat.lt_succ_of_lt below)).step returns).state

/-- A step that returns with a larger budget fails to settle with a smaller one exactly if its instant
takes too many rounds. -/
theorem settling_after (source : σ) (wide : 2 ≤ s.timetable.period)
    (more : s.general.maxDeltaRounds ≤ m) (enough : 3 ≤ m.toNat) {k : Nat}
    (going : ∀ j < k, ∃ t, ((Bench.start (.new s source)).after j).step.result = .ok (.advanced t))
    {outcome : Outcome}
    (returns : ((Bench.start (.new (s.allowing m) source)).after k).step.result = .ok outcome) :
    ∃ d phase' n', Settling (s.allowing m) source
        ((Bench.start (.new (s.allowing m) source)).after k).tally.wordsIssued
        ((Bench.start (.new (s.allowing m) source)).after k) d phase' n' ∧
      ((Bench.start (.new s source)).after k).step.result =
        if d.rounds < s.general.maxDeltaRounds.toNat then
          .ok (if d.stopped then .stopped d.now else .advanced d.now)
        else .error (.failure (.unsettled d.now s.general.maxDeltaRounds.toNat)) := by
  -- The course is known of the larger budget only, so the instant is looked up there.
  have advances : ∀ j < k, ∃ t,
      ((Bench.start (.new (s.allowing m) source)).after j).step.result = .ok (.advanced t) := by
    intro j below
    obtain ⟨t, returns⟩ := going j below
    have like := like_after more fun i before => going i (Nat.lt_trans before below)
    exact ⟨t, (like.step returns).result.trans returns⟩
  obtain ⟨since, phase, n, on, unfinished, _⟩ := course (s := s.allowing m) source wide enough advances
  obtain ⟨d, phase', n', settling⟩ := on.settling wide enough unfinished returns
  obtain ⟨tick, place, housed, _⟩ := housed_after s source k
  refine ⟨d, phase', n', on.standing.issued.symm ▸ settling, ?_⟩
  rw [← housed.rounds]
  exact (like_after more going).step_result settling.simulates settling.reached settling.drained settling.calm

theorem silent_after (source : σ) (wide : 2 ≤ s.timetable.period)
    (budget : s.general.maxDeltaRounds.toNat = 2) (more : s.general.maxDeltaRounds ≤ m)
    (enough : 3 ≤ m.toNat) {k : Nat}
    (going : ∀ j < k, ∃ t, ((Bench.start (.new s source)).after j).step.result = .ok (.advanced t)) :
    s.Silent source ((Bench.start (.new (s.allowing m) source)).after k).tally.wordsIssued := by
  induction k with
  | zero =>
    intro i within
    obtain rfl := Nat.le_zero.mp within
    exact ⟨rfl, rfl⟩
  | succ k ih =>
    have earlier := fun j (below : j < k) => going j (Nat.lt_succ_of_lt below)
    obtain ⟨t, returns⟩ := going k (Nat.lt_succ_self k)
    have like := like_after more earlier
    obtain ⟨d, phase', n', settling, result⟩ := settling_after source wide more enough earlier
      ((like.step returns).result.trans returns)
    have short : d.rounds < 2 := by
      by_contra long
      rw [returns, budget, if_neg long] at result
      cases result
    rw [after, settling.state, settling.on.standing.issued]
    exact (ih earlier).next settling.count (settling.rounds.mp short)

end Bench

namespace Recording

variable {σ κ : Type} [WordSource σ] [Sink κ] {s : Settings} {source : σ} {waveform : Option Waveform}
  {out : κ}

theorem supplied_of_returns {tally : Tally} (wide : 2 ≤ s.timetable.period)
    (enough : 3 ≤ s.general.maxDeltaRounds.toNat)
    (returns : (fresh s source waveform out).run.result = .ok tally) :
    ∃ words : List Word, take s.timetable.cycles source = words.map some := by
  obtain ⟨_, _, _, _, _, _, _, _, ends⟩ :=
    run_ends source wide enough waveform out (unbroken_of_returns returns)
  rw [Turn.ends_iff_of_ok returns] at ends
  obtain ⟨_, _, _, _, _, advances⟩ := ends
  exact exists_words advances.on.standing.supplied

theorem step_of_returns {r : Recording σ κ} {tally : Tally} (returns : r.run.result = .ok tally)
    (bounded : ∃ k < maxSteps, (∀ j < k, r.GoesOn j) ∧ ¬r.GoesOn k) {k : Nat}
    (going : ∀ j < k, r.GoesOn j) : ∃ outcome, (r.after k).step.result = .ok outcome := by
  obtain ⟨last, below, before, ended⟩ := bounded
  rcases Nat.lt_trichotomy k last with sooner | rfl | later
  · obtain ⟨t, advances⟩ := before k sooner
    exact ⟨_, advances⟩
  · rw [run_result before ended below] at returns
    cases returned : (r.after k).step.result with
    | error halt =>
      rw [returned] at returns
      cases returns
    | ok outcome => exact ⟨outcome, rfl⟩
  · exact absurd (going last later) ended

/-- With a budget of two rounds, a run that returns with a larger one overflows at the first word that
shows on the outputs, and otherwise it returns the same. -/
theorem run_within_two (source : σ) (waveform : Option Waveform) (out : κ)
    (wide : 2 ≤ s.timetable.period) (budget : s.general.maxDeltaRounds.toNat = 2) {m : UInt64}
    (enough : 3 ≤ m.toNat) {tally : Tally}
    (returns : (fresh (s.allowing m) source waveform out).run.result = .ok tally) :
    (fresh s source waveform out).run.result = .ok tally ∧ s.Silent source s.timetable.cycles ∨
      (∃ t, (fresh s source waveform out).run.result = .error (.failure (.unsettled t 2))) ∧
        ¬s.Silent source s.timetable.cycles := by
  have more : s.general.maxDeltaRounds ≤ m := by
    rw [UInt64.le_iff_toNat_le, budget]
    exact Nat.le_of_succ_le enough
  have like := like_allowing s source waveform out more
  obtain ⟨k, below, going, ended⟩ := exists_last_step s source waveform out wide
  have going' : ∀ j < k, (fresh (s.allowing m) source waveform out).GoesOn j := fun j before =>
    like.goesOn fun i within => going i (Nat.lt_of_le_of_lt within before)
  obtain ⟨outcome, stepped⟩ := step_of_returns returns
    (exists_last_step (s.allowing m) source waveform out wide) going'
  have benchGoing := fun j (before : j < k) => bench_goesOn (going j before)
  have benchStepped := bench_result_of_step_ok stepped
  rw [fresh_bench_step] at benchStepped
  obtain ⟨d, phase', n', settling, result⟩ :=
    Bench.settling_after source wide more enough benchGoing benchStepped
  have silent := Bench.silent_after source wide budget more enough benchGoing
  rw [budget, ← fresh_bench_step s source waveform out] at result
  split at result
  · rename_i short
    have returned := (like.run_result_eq going ended below result).symm.trans returns
    obtain ⟨last, reached⟩ := step_of_returns returned ⟨k, below, going, ended⟩ going
    obtain rfl := Except.ok.inj ((bench_result_of_step_ok reached).symm.trans result)
    have stops : d.stopped = true := by
      by_contra advances
      rw [if_neg advances] at reached
      exact ended ⟨d.now, reached⟩
    have done := settling.on.stands
    rw [settling.stopped.mp stops] at done
    exact .inl ⟨returned, done.1 ▸ silent.next settling.count (settling.rounds.mp short)⟩
  · rename_i long
    refine .inr ⟨⟨d.now, ?_⟩, fun all => long (settling.rounds.mpr ?_)⟩
    · rw [run_result going ended below, step_of_bench_error result]
      rfl
    · have most : n' ≤ s.timetable.cycles := settling.on.stands.count_le
      obtain ⟨word, full⟩ := all n' most
      obtain ⟨word', full'⟩ := silent _ (Nat.le_refl _)
      exact ⟨word.trans word'.symm, full.trans full'.symm⟩

/-- Wherever the stimulus lets the fetch delay pass at an edge it waits for, an instant settles: two
rounds move lines at most, and a third one moves nothing, whatever levels the lines have, what is
pending on them and what the stage holds. So a budget of three rounds is enough for every step, whatever
has failed before it. With a budget of one the first step does not settle. With a budget of two, a run
that returns with a larger one overflows exactly if one of its words is not zero, or the arbiter is full
on one of them; otherwise it returns the same. -/
theorem settling_bounded (s : Settings) (source : σ) (waveform : Option Waveform) (out : κ) :
    let r := fresh s source waveform out
    (∀ b : Bench σ, b.Calm →
      b.react.result = .ok () ∧ b.react.state.react.result = .ok () ∧
      b.react.state.react.state.moved.isEmpty = true ∧
      ∀ left, 3 ≤ left → (Bench.settle left 0 false b).result = .ok () ∧
        ∃ rounds ≤ 2, (Bench.settle left 0 false b).state.tally.deltaRounds =
          max b.tally.deltaRounds rounds) ∧
    (3 ≤ s.general.maxDeltaRounds → ∀ n,
      (∀ t rounds, (r.after n).step.result ≠ .error (.failure (.unsettled t rounds))) ∧
      (r.after n).bench.tally.deltaRounds ≤ 2) ∧
    (s.Valid → s.general.maxDeltaRounds = 1 →
      r.step.result = .error (.failure (.unsettled 0 1))) ∧
    (s.Valid → s.general.maxDeltaRounds = 2 → ∀ m tally, 3 ≤ m →
      (fresh (s.allowing m) source waveform out).run.result = .ok tally →
      ∃ words : List Word, take s.timetable.cycles source = words.map some ∧
        ((∃ t, r.run.result = .error (.failure (.unsettled t 2))) ↔
          ∃ (i : Nat) (word : Word), words[i]? = some word ∧
            (word ≠ 0 ∨ s.stimulus.fullOn (i + 1) = true)) ∧
        ((∀ t, r.run.result ≠ .error (.failure (.unsettled t 2))) → r.run.result = .ok tally)) := by
  intro r
  refine ⟨fun b calm => ?_, ?_, ?_, ?_⟩
  · have first := Bench.react_of_calm calm
    have second := Bench.react_of_inputsQuiet b.reacted_inputsQuiet
    rw [first, Turn.done, second]
    have quiet : b.reacted.commit.bus.Quiet := b.reacted.bus.commit_quiet
    refine ⟨rfl, rfl, Bench.moved_of_quiet quiet, fun left enough => ⟨?_, b.rounds, b.rounds_le, ?_⟩⟩
    · rw [Bench.settle_result_of_calm calm, if_pos (Nat.lt_of_le_of_lt b.rounds_le enough)]
    · exact Bench.deltaRounds_settle calm enough
  · intro enough n
    have enough : 3 ≤ s.general.maxDeltaRounds.toNat := UInt64.le_iff_toNat_le.mp enough
    obtain ⟨tick, place, housed, _⟩ := Bench.housed_after s source n
    have settles := housed.step_settles enough
    refine ⟨fun t rounds fails => ?_, ?_⟩
    · have fails := result_of_bench fails fun t fault same => by cases same
      rw [fresh_bench_step] at fails
      unfold Turn.Ends at settles
      rw [fails] at settles
      exact settles.2 t rounds rfl
    · rcases Nat.eq_zero_or_pos n with rfl | positive
      · exact Nat.zero_le 2
      · rw [fresh_after_bench s source waveform out positive]
        exact Bench.deltaRounds_after s source enough n
  · intro valid budget
    refine step_of_bench_error ?_
    rw [show r.bench.step = (r.after 0).bench.step from rfl, fresh_bench_step]
    exact Bench.step_start_unsettled s source valid.wide (congrArg UInt64.toNat budget)
  · intro valid budget m tally enough returns
    have enough : 3 ≤ m.toNat := UInt64.le_iff_toNat_le.mp enough
    obtain ⟨words, supplied⟩ := supplied_of_returns (s := s.allowing m) valid.wide enough returns
    have loud := s.not_silent_iff supplied
    refine ⟨words, supplied, ?_⟩
    have budget : s.general.maxDeltaRounds.toNat = 2 := congrArg UInt64.toNat budget
    rcases run_within_two source waveform out valid.wide budget enough returns with
      ⟨returned, silent⟩ | ⟨⟨t, overflows⟩, shows⟩
    · refine ⟨⟨?_, fun sounds => absurd silent (loud.mpr sounds)⟩, fun _ => returned⟩
      rintro ⟨t, overflows⟩
      cases returned.symm.trans overflows
    · exact ⟨⟨fun _ => loud.mp shows, fun _ => ⟨t, overflows⟩⟩,
        fun settles => absurd overflows (settles t)⟩

/-- A word that shows needs a budget of three rounds, and a word that does not needs two. -/
theorem bounded_of_one_word :
    (∀ n t rounds,
      ((fresh (.immediate 1) ([5] : List Word) none (Memory.empty none)).after n).step.result ≠
        .error (.failure (.unsettled t rounds))) ∧
    (fresh ((Settings.immediate 1).allowing 1) ([5] : List Word) none (Memory.empty none)).step.result =
      .error (.failure (.unsettled 0 1)) ∧
    (∃ t, (fresh ((Settings.immediate 1).allowing 2) ([5] : List Word) none
      (Memory.empty none)).run.result = .error (.failure (.unsettled t 2))) ∧
    ∀ t, (fresh ((Settings.immediate 1).allowing 2) ([0] : List Word) none
      (Memory.empty none)).run.result ≠ .error (.failure (.unsettled t 2)) := by
  have valid : ((Settings.immediate 1).allowing 2).Valid := by decide
  have returns (words : List Word) (succeeds : (fresh (((Settings.immediate 1).allowing 2).allowing 3)
      words none (Memory.empty none)).run.result.isOk = true) :
      ∃ tally, (fresh (((Settings.immediate 1).allowing 2).allowing 3) words none
        (Memory.empty none)).run.result = .ok tally := by
    cases returned : (fresh (((Settings.immediate 1).allowing 2).allowing 3) words none
      (Memory.empty none)).run.result with
    | error halt =>
      rw [returned] at succeeds
      cases succeeds
    | ok tally => exact ⟨tally, rfl⟩
  refine ⟨fun n => ?_, ?_, ?_, ?_⟩
  · exact ((settling_bounded (.immediate 1) ([5] : List Word) none (Memory.empty none)).2.1
      (by decide) n).1
  · exact (settling_bounded ((Settings.immediate 1).allowing 1) ([5] : List Word) none
      (Memory.empty none)).2.2.1 (by decide) rfl
  · obtain ⟨tally, returned⟩ := returns [5] (by decide +kernel)
    obtain ⟨words, supplied, overflows, _⟩ := (settling_bounded ((Settings.immediate 1).allowing 2)
      ([5] : List Word) none (Memory.empty none)).2.2.2 valid rfl 3 tally (by decide) returned
    have drawn : ([5] : List Word).map some = words.map some := supplied
    obtain rfl := List.map_injective_iff.mpr (Option.some_injective Word) drawn
    exact overflows.mpr ⟨0, 5, rfl, .inl (by decide)⟩
  · obtain ⟨tally, returned⟩ := returns [0] (by decide +kernel)
    obtain ⟨words, supplied, overflows, _⟩ := (settling_bounded ((Settings.immediate 1).allowing 2)
      ([0] : List Word) none (Memory.empty none)).2.2.2 valid rfl 3 tally (by decide) returned
    have drawn : ([0] : List Word).map some = words.map some := supplied
    obtain rfl := List.map_injective_iff.mpr (Option.some_injective Word) drawn
    intro t fails
    obtain ⟨i, word, listed, shows⟩ := overflows.mp ⟨t, fails⟩
    cases i with
    | zero =>
      cases listed
      rcases shows with loud | full
      · exact loud rfl
      · cases full
    | succ i => cases listed

end Recording

end IdentifyBench

import IdentifyBench.Proofs.Draining
import IdentifyBench.Proofs.FixedPoint

/-! The end of an instant. Settling leaves the schedule and the stimulus alone, but for a stimulus
that the clock's edge lets go on to its fetch delay. So a settled bench is on its course again: clock
and stimulus stand where the timetable has them, and the lines carry what they have written. -/
namespace IdentifyBench

namespace Bus

theorem nextInputs_eq_of_next {b d : Bus} (same : ∀ l ∈ Bench.stageInputs, d.next l = b.next l) :
    d.nextInputs = b.nextInputs := by
  have word : d.word.next = b.word.next := same .word (by decide)
  have reset : d.reset.next = b.reset.next := same .reset (by decide)
  have enable : d.enable.next = b.enable.next := same .enable (by decide)
  have full : d.arbiterFull.next = b.arbiterFull.next := same .arbiterFull (by decide)
  simp [nextInputs, word, reset, enable, full]

end Bus

theorem Stage.hold_of_disabled {s : Stage} {inputs : StageInputs} (idle : s.held = .neutral)
    (disabled : inputs.control.enable = false) : s.hold inputs = .neutral := by
  rw [Stage.hold, disabled, idle]
  cases inputs.control.reset <;> rfl

namespace Bench

variable {σ : Type}

/-- What the rounds of an instant leave alone. -/
structure Settles (b d : Bench σ) : Prop where
  now : d.now = b.now
  agenda : d.agenda = b.agenda
  started : d.started = b.started
  stopped : d.stopped = b.stopped
  limit : d.limit = b.limit
  maxRounds : d.maxRounds = b.maxRounds
  clock : d.clock = b.clock
  stimulus : d.stimulus = b.stimulus
  awaiting : d.awaitingEdge = b.awaitingEdge
  issued : d.tally.wordsIssued = b.tally.wordsIssued
  inputs : ∀ l ∈ stageInputs, d.bus.next l = b.bus.next l

namespace Settles

theorem trans {b c d : Bench σ} (first : b.Settles c) (second : c.Settles d) : b.Settles d where
  now := second.now.trans first.now
  agenda := second.agenda.trans first.agenda
  started := second.started.trans first.started
  stopped := second.stopped.trans first.stopped
  limit := second.limit.trans first.limit
  maxRounds := second.maxRounds.trans first.maxRounds
  clock := second.clock.trans first.clock
  stimulus := second.stimulus.trans first.stimulus
  awaiting := second.awaiting.trans first.awaiting
  issued := second.issued.trans first.issued
  inputs l input := (second.inputs l input).trans (first.inputs l input)

theorem commit (b : Bench σ) : b.Settles b.commit :=
  ⟨rfl, rfl, rfl, rfl, rfl, rfl, rfl, rfl, rfl, rfl, fun l _ => b.bus.next_commit l⟩

theorem respond (b : Bench σ) (moved : LineSet) : b.Settles (b.respond moved).1 := by
  have answered (l : Line) (input : l ∈ stageInputs) : (b.respond moved).1.bus.next l = b.bus.next l :=
    congrArg Wire.next (get_respond_of_input b moved input)
  rw [respond_state] at answered ⊢
  exact ⟨rfl, rfl, rfl, rfl, rfl, rfl, rfl, rfl, rfl, rfl, answered⟩

theorem rest (b : Bench σ) (round : Nat) (due : Bool) : b.Settles (b.rest round due).state := by
  have issued := rest_issued b round due
  rw [rest_state] at issued ⊢
  exact ⟨rfl, rfl, rfl, rfl, rfl, rfl, rfl, rfl, rfl, issued, fun _ _ => rfl⟩

theorem nextInputs {b d : Bench σ} (settles : b.Settles d) : d.bus.nextInputs = b.bus.nextInputs :=
  Bus.nextInputs_eq_of_next settles.inputs

end Settles

theorem Settles.edge {b : Bench σ} {moved : LineSet}
    (still : b.awaitingEdge = true → ¬(moved.contains .clock && b.bus.clock.level) = true) :
    b.Settles (b.edge moved) := by
  unfold Bench.edge
  dsimp only
  split
  · rename_i risen
    split
    · rename_i awaiting
      exact absurd risen (still awaiting)
    · exact ⟨rfl, rfl, rfl, rfl, rfl, rfl, rfl, rfl, rfl, rfl, fun _ _ => rfl⟩
  · exact ⟨rfl, rfl, rfl, rfl, rfl, rfl, rfl, rfl, rfl, rfl, fun _ _ => rfl⟩

variable [WordSource σ] {s : Settings} {source : σ} {phase : Phase} {n : Nat}

theorem At.settles {b d : Bench σ} (standing : b.At s source phase n) (settles : b.Settles d) :
    d.At s source phase n where
  stimulus := settles.stimulus.trans standing.stimulus
  supplied := standing.supplied
  awaiting := settles.awaiting.trans standing.awaiting
  stopped := settles.stopped.trans standing.stopped
  lines := settles.nextInputs.trans standing.lines
  issued := settles.issued.trans standing.issued

theorem At.calm {b : Bench σ} (standing : b.At s source phase n) : b.Calm := by
  intro awaiting
  rw [standing.awaiting] at awaiting
  rw [standing.stimulus]
  exact eq_of_beq awaiting

theorem At.fetch {b : Bench σ} (standing : b.At s source .awaitFetch n) :
    b.fetch.At s source .present n where
  stimulus := by
    rw [Bench.fetch, standing.stimulus]
    rfl
  supplied := standing.supplied
  awaiting := rfl
  stopped := standing.stopped
  lines := standing.lines
  issued := congrArg Stimulus.issued standing.stimulus

/-- What the settings say about the bench, and the limit that has been kept so far. -/
structure Built (s : Settings) (b : Bench σ) : Prop where
  started : b.started = true
  limit : b.limit = s.general.maxTime.map (·.toNat)
  rounds : b.maxRounds = s.general.maxDeltaRounds.toNat
  within : ∀ limit ∈ b.limit, b.now ≤ limit

omit [WordSource σ] in
theorem Built.frame {b d : Bench σ} (built : b.Built s) (frame : b.Frame d) : d.Built s where
  started := frame.started.trans built.started
  limit := frame.limit.trans built.limit
  rounds := frame.maxRounds.trans built.rounds
  within := by
    rw [frame.limit, frame.now]
    exact built.within

omit [WordSource σ] in
theorem Built.arrive {b : Bench σ} (built : b.Built s) {t : Instant}
    (within : ∀ limit ∈ b.limit, t ≤ limit) : Built s { b with now := t } :=
  ⟨built.started, built.limit, built.rounds, within⟩

omit [WordSource σ] in
theorem Built.settles {b d : Bench σ} (built : b.Built s) (settles : b.Settles d) : d.Built s where
  started := settles.started.trans built.started
  limit := settles.limit.trans built.limit
  rounds := settles.maxRounds.trans built.rounds
  within := by
    rw [settles.limit, settles.now]
    exact built.within

omit [WordSource σ] in
theorem Built.mem_limit {b : Bench σ} (built : b.Built s) {limit : Instant} :
    limit ∈ b.limit ↔ ∃ l ∈ s.general.maxTime, l.toNat = limit := by
  rw [built.limit]
  exact Option.mem_map

omit [WordSource σ] in
theorem Built.now_le {b : Bench σ} (built : b.Built s) {limit : UInt64}
    (given : limit ∈ s.general.maxTime) : b.now ≤ limit.toNat :=
  built.within _ (built.mem_limit.mpr ⟨limit, given, rfl⟩)

/-- Between two steps, clock and stimulus stand where the timetable has them. The instants before
`since` are over. -/
structure OnCourse (s : Settings) (source : σ) (since : Nat) (phase : Phase) (n : Nat)
    (b : Bench σ) : Prop where
  standing : b.At s source phase n
  stands : s.timetable.Stands since phase n
  due : b.agenda.times .stimulus = s.timetable.wakes phase n
  ordered : b.agenda.Ordered
  rhythm : ∃ level c, b.Ticks level c false ∧ s.timetable.Wave level since c
  clock : b.clock = .ofPeriod s.timetable.period
  settled : b.Settled
  idle : phase.enabled = false → b.stage.held = .neutral
  built : b.Built s
  now : b.now = since - 1

theorem OnCourse.inputs {since : Nat} {b : Bench σ} (on : OnCourse s source since phase n b) :
    b.bus.inputs = Stimulus.lines s.stimulus source phase n := by
  rw [← on.settled.quiet.nextInputs_eq]
  exact on.standing.lines

def rounds (d : Bench σ) : Nat :=
  if d.moved.isEmpty then 0 else if d.reacted.moved.isEmpty then 1 else 2

/-- One of the lines that the observer minds is about to move. -/
def watched (d : Bench σ) : Bool :=
  d.moved.intersects Observation.triggers || d.reacted.moved.intersects Observation.triggers

def concluded (d : Bench σ) : Bench σ :=
  let b := (d.reacted.commit.rest d.rounds d.watched).state
  { b with tally.simTime := b.now }

omit [WordSource σ] in
theorem settles_concluded (d : Bench σ) : d.reacted.Settles d.concluded := by
  have settles := (Settles.commit d.reacted).trans (Settles.rest d.reacted.commit d.rounds d.watched)
  exact ⟨settles.now, settles.agenda, settles.started, settles.stopped, settles.limit,
    settles.maxRounds, settles.clock, settles.stimulus, settles.awaiting, settles.issued,
    settles.inputs⟩

/-- The clock rises when the instant settles, and the stimulus has waited for it. -/
def Fetches (d : Bench σ) : Prop :=
  d.awaitingEdge = true ∧ Line.clock ∈ d.moved ∧ d.bus.next .clock = true

omit [WordSource σ] in
theorem respond_clock (d : Bench σ) :
    (d.commit.respond d.moved).1.bus.clock.level = d.bus.next .clock := by
  have kept := get_respond_of_input d.commit d.moved (l := .clock) (by decide)
  exact (congrArg Wire.level kept).trans (Bus.level_commit d.bus .clock)

omit [WordSource σ] in
theorem concluded_of_still {d : Bench σ} (still : ¬d.Fetches) : d.Settles d.concluded := by
  have answered := (Settles.commit d).trans (Settles.respond d.commit d.moved)
  refine (answered.trans (Settles.edge ?_)).trans d.settles_concluded
  intro waiting risen
  obtain ⟨moves, high⟩ := risen_iff.mp risen
  rw [respond_clock] at high
  exact still ⟨answered.awaiting.symm.trans waiting, moves, high⟩

omit [WordSource σ] in
theorem concluded_of_fetches {d : Bench σ} (fetches : d.Fetches) :
    ∃ b, d.Settles b ∧ b.fetch.Settles d.concluded := by
  obtain ⟨waiting, moves, high⟩ := fetches
  have answered := (Settles.commit d).trans (Settles.respond d.commit d.moved)
  rw [← respond_clock] at high
  refine ⟨{ (d.commit.respond d.moved).1 with
    tally.clockCycles := (d.commit.respond d.moved).1.tally.clockCycles + 1 }, ?_, ?_⟩
  · exact answered.trans
      ⟨rfl, rfl, rfl, rfl, rfl, rfl, rfl, rfl, rfl, rfl, fun _ _ => rfl⟩
  · have risen := risen_iff.mpr ⟨moves, high⟩
    have settles := d.settles_concluded
    rw [reacted, edge, if_pos risen] at settles
    dsimp only at settles
    rw [if_pos (answered.awaiting.trans waiting)] at settles
    exact settles

section

omit [WordSource σ]

variable {d : Bench σ}

theorem inputs_of_still (still : ∀ l ∈ stageInputs, l ∉ d.moved) :
    d.bus.nextInputs = d.bus.inputs := by
  rw [← Bus.inputs_commit]
  exact Bus.inputs_eq_of_levels fun l input => Bus.level_commit_of_not_mem (still l input)

theorem concluded_stage (d : Bench σ) :
    d.concluded.stage = (d.commit.respond d.moved).1.stage := by
  unfold concluded
  dsimp only
  rw [rest_state]
  exact edge_stage _ _

theorem held_concluded (answered : d.Answered) :
    d.concluded.stage.held = d.stage.hold d.bus.nextInputs := by
  rw [concluded_stage]
  by_cases moves : d.moved.intersects stageInputs = true
  · rw [respond_of_moves moves]
    rfl
  · have still : ∀ l ∈ stageInputs, l ∉ d.moved := fun l input moved =>
      moves ((LineSet.intersects_iff _ _).mpr ⟨l, moved, input⟩)
    rw [respond_of_still still, inputs_of_still still]
    exact answered.held.symm

theorem settled_concluded (answered : d.Answered) : d.concluded.Settled := by
  have reacted : d.reacted.Answered := by
    have responded := answered_respond answered
    constructor
    · rw [Bench.reacted, edge_stage, edge_bus]
      exact responded.held
    · rw [Bench.reacted, edge_stage, edge_bus]
      exact responded.outputs
  have committed := answered_respond reacted
  rw [respond_of_still fun l input => not_mem_moved_of_inputsQuiet d.reacted_inputsQuiet input]
    at committed
  have rested := answered_rest committed d.rounds d.watched
  refine Answered.settled ⟨rested.held, rested.outputs⟩ ?_
  unfold concluded
  dsimp only
  rw [rest_state]
  exact d.reacted.bus.commit_quiet

theorem clock_of_quiet {b : Bus} (quiet : b.Quiet) : b.clock = ⟨b.next .clock, none⟩ := by
  have level : b.next .clock = b.clock.level := quiet.next_eq .clock
  have pending : b.clock.pending = none := quiet .clock
  rw [level, ← pending]

end

namespace Underway

variable {since : Nat} {level : Bool} {c : Nat} {toggled : Bool} {d : Bench σ}
  (under : Underway s source since level c toggled phase n d)
  (clockOver : c = d.now → toggled = true)

include under clockOver

/-- The clock's line is about to rise exactly on an edge of the timetable. -/
theorem rises_iff :
    Line.clock ∈ d.moved ∧ d.bus.next .clock = true ↔ Timetable.Rises level c d.now := by
  have ticks := under.ticks
  rw [moved, Bus.mem_moved]
  cases toggled with
  | false =>
    have next : d.bus.next .clock = level := congrArg Wire.next ticks.1
    have present : d.bus.level .clock = level := congrArg Wire.level ticks.1
    constructor
    · rintro ⟨moves, _⟩
      exact absurd (next.trans present.symm) moves
    · rintro ⟨_, due⟩
      cases clockOver due
  | true =>
    obtain ⟨due, wire, _⟩ := ticks
    have next : d.bus.next .clock = !level := congrArg Wire.next wire
    have present : d.bus.level .clock = level := congrArg Wire.level wire
    rw [next, present]
    constructor
    · rintro ⟨_, high⟩
      exact ⟨Bool.not_eq_true' _ ▸ high, due⟩
    · rintro ⟨rfl, _⟩
      exact ⟨Bool.noConfusion, rfl⟩

theorem rhythm {e : Bench σ} (quiet : e.bus.Quiet)
    (clockNext : e.bus.next .clock = d.bus.next .clock)
    (clockDue : e.agenda.times .clock = d.agenda.times .clock) :
    ∃ level c, e.Ticks level c false ∧ s.timetable.Wave level (d.now + 1) c := by
  have ticks := under.ticks
  have wave := under.wave
  have wire := clock_of_quiet quiet
  rw [clockNext] at wire
  cases toggled with
  | false =>
    have next : d.bus.next .clock = level := congrArg Wire.next ticks.1
    have later : d.now < c := by
      rcases Nat.eq_or_lt_of_le under.sooner with due | later
      · cases clockOver due.symm
      · exact later
    refine ⟨level, c, ⟨?_, clockDue.trans ticks.2⟩, ?_⟩
    · rw [wire, next]
    · exact wave.later under.recent later
  | true =>
    obtain ⟨rfl, toggling, due⟩ := ticks
    have next : d.bus.next .clock = !level := congrArg Wire.next toggling
    refine ⟨!level, _, ⟨?_, clockDue.trans due⟩, ?_⟩
    · rw [wire, next]
    · rw [under.clock]
      exact wave.toggle under.wide

theorem concludes (stimulusOver : ∀ u ∈ s.timetable.wake? phase n, d.now < u)
    (answered : d.Answered) (built : d.Built s) :
    ∃ phase', OnCourse s source (d.now + 1) phase' n d.concluded ∧ (phase' = .done ↔ phase = .done) := by
  have settled := settled_concluded answered
  have held := held_concluded answered
  rw [under.standing.lines] at held
  by_cases fetches : d.Fetches
  · obtain ⟨b, before, after⟩ := concluded_of_fetches fetches
    obtain ⟨waiting, risen⟩ := fetches
    have edge := (under.rises_iff clockOver).mp risen
    rw [under.standing.awaiting] at waiting
    obtain rfl : phase = .awaitFetch := eq_of_beq waiting
    have now : d.concluded.now = d.now := after.now.trans before.now
    have fetched := under.passes.fetched edge
    have agenda : d.concluded.agenda = d.agenda.add ⟨min (s.timetable.word (n + 1)) Instant.last,
        .stimulus⟩ := by
      have due : d.now = s.timetable.edge n := under.passes.2.2.1 edge
      rw [after.agenda, Bench.fetch, before.agenda, before.now, before.stimulus, due,
        under.standing.stimulus]
      rfl
    refine ⟨.present, ?_, by simp⟩
    exact {
      standing := (under.standing.settles before).fetch.settles after
      stands := fetched
      due := by
        rw [agenda]
        exact Agenda.times_add_of_nil under.due
      ordered := by
        rw [agenda]
        exact Agenda.ordered_add under.ordered _
      rhythm := by
        refine under.rhythm clockOver settled.quiet ?_ ?_
        · exact (after.inputs .clock (by decide)).trans (before.inputs .clock (by decide))
        · rw [agenda]
          exact Agenda.times_add_of_ne (by simp) _
      clock := after.clock.trans (before.clock.trans under.clock)
      settled
      idle := nofun
      built := by
        have fetch : b.fetch.Built s := by
          have built := built.settles before
          exact ⟨built.started, built.limit, built.rounds, built.within⟩
        exact fetch.settles after
      now := now }
  · have settles := concluded_of_still fetches
    have still : phase = .awaitFetch → ¬Timetable.Rises level c d.now := by
      rintro rfl edge
      exact fetches ⟨under.standing.awaiting, (under.rises_iff clockOver).mpr edge⟩
    refine ⟨phase, ?_, Iff.rfl⟩
    exact {
      standing := under.standing.settles settles
      stands := under.passes.stands under.recent stimulusOver still
      due := by
        rw [settles.agenda]
        exact under.due
      ordered := by
        rw [settles.agenda]
        exact under.ordered
      rhythm := under.rhythm clockOver settled.quiet (settles.inputs .clock (by decide))
        (by rw [settles.agenda])
      clock := settles.clock.trans under.clock
      settled
      idle := fun disabled => by
        rw [held]
        exact Stage.hold_of_disabled (under.idle disabled) disabled
      built := built.settles settles
      now := settles.now }

end Underway

end Bench

end IdentifyBench

import IdentifyBench.Proofs.Reading
import IdentifyBench.Proofs.Run
import IdentifyBench.Proofs.Settling

/-! Settled instants. Whatever is still pending, the outputs will carry what the stage answers to
the committed inputs, since every commit that moves an input is followed by an answer at once. This
holds between rounds and between wake-ups, and it outlives a halt. Where a step succeeds, nothing is
pending, and the outputs carry the answer already, so that the views of the lines tell it. -/
namespace IdentifyBench

theorem Stage.hold_hold (s : Stage) (inputs : StageInputs) (evaluations : Nat) :
    Stage.hold ⟨s.hold inputs, evaluations⟩ inputs = s.hold inputs := by
  unfold hold
  split
  · rfl
  · split <;> rfl

section

variable {s : Stage} {inputs : StageInputs}

theorem Stage.outputs_of_reset (reset : inputs.control.reset = true) :
    (s.evaluate inputs).2 = .neutral := by
  simp [evaluate, hold, reset, StageOutputs.neutral]

theorem Stage.outputs_of_enabled (released : inputs.control.reset = false)
    (enabled : inputs.control.enable = true) :
    (s.evaluate inputs).2 = ⟨identify inputs.word, inputs.control.arbiterFull⟩ := by
  simp [evaluate, hold, released, enabled]

theorem Stage.outputs_of_disabled (released : inputs.control.reset = false)
    (disabled : inputs.control.enable = false) :
    (s.evaluate inputs).2 = ⟨s.held, inputs.control.arbiterFull⟩ := by
  simp [evaluate, hold, released, disabled]

theorem Stage.stall_of_released (released : inputs.control.reset = false) :
    (s.evaluate inputs).2.stall = inputs.control.arbiterFull := by
  simp [evaluate, released]

end

namespace Bench

variable {σ : Type}

/-- The stage would hold what it holds if it answered once more, and its answer is what the outputs
carry after the next commit. -/
structure Answered (b : Bench σ) : Prop where
  held : (b.stage.evaluate b.bus.inputs).1.held = b.stage.held
  outputs : b.bus.Promises (b.stage.evaluate b.bus.inputs).2

/-- Nothing is pending, and one more answer of the stage would change nothing. -/
structure Settled (b : Bench σ) : Prop where
  quiet : b.bus.Quiet
  held : (b.stage.evaluate b.bus.inputs).1.held = b.stage.held
  outputs : b.bus.Carries (b.stage.evaluate b.bus.inputs).2

theorem Answered.settled {b : Bench σ} (answered : b.Answered) (quiet : b.bus.Quiet) : b.Settled :=
  ⟨quiet, answered.held, answered.outputs.carries quiet⟩

theorem Settled.answered {b : Bench σ} (settled : b.Settled) : b.Answered :=
  ⟨settled.held, fun l value driven => by
    rw [settled.quiet.next_eq]
    exact settled.outputs l value driven⟩

theorem Answered.arrive {b : Bench σ} (answered : b.Answered) (t : Instant) :
    Answered { b with now := t } :=
  ⟨answered.held, answered.outputs⟩

theorem Frame.answered {b d : Bench σ} (frame : b.Frame d) (answered : b.Answered) : d.Answered := by
  constructor
  · rw [frame.stage, frame.bus.inputs_eq]
    exact answered.held
  · rw [frame.stage, frame.bus.inputs_eq]
    exact frame.bus.promises answered.outputs

theorem answered_new (s : Settings) (source : σ) : (new s source).Answered where
  held := rfl
  outputs := by
    intro l value driven
    cases l <;> cases driven <;> rfl

theorem answered_start {b : Bench σ} (answered : b.Answered) : b.start.Answered := by
  unfold start
  split
  · exact answered
  · exact ⟨answered.held, answered.outputs⟩

/-- A commit that moves an input is followed by an answer; one that moves outputs alone leaves the
inputs that were answered. -/
theorem answered_respond {b : Bench σ} (answered : b.Answered) :
    (b.commit.respond b.moved).1.Answered := by
  by_cases moves : b.moved.intersects stageInputs = true
  · have inputs (o : StageOutputs) : (b.commit.bus.drive o).inputs = b.commit.bus.inputs :=
      Bus.inputs_eq_of_levels fun l _ => Bus.level_drive _ _ l
    have again : ((b.stage.evaluate b.commit.bus.inputs).1.evaluate b.commit.bus.inputs).2 =
        (b.stage.evaluate b.commit.bus.inputs).2 := by
      simp only [Stage.evaluate, Stage.hold_hold]
    rw [respond_of_moves moves]
    constructor
    · dsimp only
      rw [inputs]
      exact b.stage.hold_hold _ _
    · dsimp only
      rw [inputs, show b.commit.stage = b.stage from rfl, again]
      exact Bus.promises_drive _ _
  · have still : ∀ l ∈ stageInputs, l ∉ b.moved := fun l input moved =>
      moves ((LineSet.intersects_iff _ _).mpr ⟨l, moved, input⟩)
    have inputs : b.commit.bus.inputs = b.bus.inputs :=
      Bus.inputs_eq_of_levels fun l input => Bus.level_commit_of_not_mem (still l input)
    rw [respond_of_still still]
    constructor
    · rw [inputs]
      exact answered.held
    · rw [inputs]
      intro l value driven
      rw [show b.commit.bus.next l = b.bus.next l from Bus.next_commit _ _]
      exact answered.outputs l value driven

theorem answered_rest {b : Bench σ} (answered : b.Answered) (round : Nat) (due : Bool) :
    (b.rest round due).state.Answered := by
  rw [rest_state]
  exact ⟨answered.held, answered.outputs⟩

variable [WordSource σ]

theorem answered_passEdge {b : Bench σ} (answered : b.Answered) (moved : LineSet) :
    (b.passEdge moved).state.Answered := by
  unfold passEdge
  split
  · dsimp only
    split
    · exact (frame_resumeStimulus _).answered ⟨answered.held, answered.outputs⟩
    · exact ⟨answered.held, answered.outputs⟩
  · exact answered

theorem answered_react {b : Bench σ} (answered : b.Answered) : b.react.state.Answered := by
  apply Turn.state_andThen (P := Answered)
  · exact answered_respond answered
  · exact fun c _ kept => answered_passEdge kept b.moved

theorem answered_settle {b : Bench σ} (answered : b.Answered) (left round : Nat) (due : Bool) :
    (settle left round due b).state.Answered := by
  induction left generalizing round due b with
  | zero => exact answered
  | succ left ih =>
    rw [settle_succ]
    split
    · rename_i empty
      -- A commit that moves nothing is a round without an answer.
      have idle : b.commit.respond b.moved = (b.commit, []) :=
        respond_of_still fun l _ => (LineSet.isEmpty_iff _).mp empty l
      have committed := answered_respond answered
      rw [idle] at committed
      exact answered_rest committed round due
    · apply Turn.state_andThen (P := Answered)
      · exact answered_react answered
      · exact fun c _ kept => ih kept _ _

theorem quiet_settle {left round : Nat} {due : Bool} {b : Bench σ}
    (settles : (settle left round due b).result = .ok ()) :
    (settle left round due b).state.bus.Quiet := by
  induction left generalizing round due b with
  | zero => cases settles
  | succ left ih =>
    rw [settle_succ] at settles ⊢
    split
    · rw [rest_state]
      exact b.bus.commit_quiet
    · rename_i moves
      rw [if_neg moves] at settles
      cases reacts : b.react.result with
      | error halt =>
        rw [Turn.andThen_of_error reacts] at settles
        cases settles
      | ok x =>
        rw [Turn.andThen_of_ok reacts] at settles ⊢
        exact ih settles

theorem answered_instant {b : Bench σ} (answered : b.Answered) (wakeups : Nat) (first : Wakeup) :
    (b.instant wakeups first).state.Answered := by
  apply Turn.state_andThen (P := Answered)
  · apply Turn.state_andThen (P := Answered)
    · exact (frame_wake _ _).answered (answered.arrive first.time)
    · exact fun c _ kept => (frame_drain _ c).answered kept
  · intro c _ kept
    apply Turn.state_andThen (P := Answered)
    · exact answered_settle kept _ _ _
    · exact fun d _ kept => ⟨kept.held, kept.outputs⟩

theorem answered_step {b : Bench σ} (answered : b.Answered) : b.step.state.Answered := by
  have started := answered_start answered
  unfold step stepWithin
  dsimp only
  split
  · exact answered
  · split
    · exact started
    · rename_i first rest _
      have taken : Answered { b.start with agenda := rest } := ⟨started.held, started.outputs⟩
      split
      · exact taken
      · exact answered_instant taken _ first

theorem answered_after {b : Bench σ} (answered : b.Answered) (n : Nat) : (b.after n).Answered := by
  induction n with
  | zero => exact answered
  | succ n ih => exact answered_step ih

theorem quiet_instant (b : Bench σ) (wakeups : Nat) (first : Wakeup) :
    (b.instant wakeups first).Ends (fun c _ _ => c.bus.Quiet) fun _ _ _ => True := by
  apply Turn.ends_andThen
  intro c _
  have settles : (settle c.maxRounds 0 false c).Ends (fun d _ _ => d.bus.Quiet)
      fun _ _ _ => True := by
    unfold Turn.Ends
    split
    · rename_i settled
      exact quiet_settle settled
    · trivial
  rw [Turn.andThen_ends]
  exact settles

theorem going_of_advanced {b : Bench σ} {t : Instant} (returns : b.step.result = .ok (.advanced t)) :
    b.stopped = false := by
  by_contra stopped
  rw [step, stepWithin, if_pos (Bool.not_eq_false _ ▸ stopped)] at returns
  cases returns

theorem quiet_step {b : Bench σ} {outcome : Outcome} (going : b.stopped = false)
    (returns : b.step.result = .ok outcome) : b.step.state.bus.Quiet := by
  have ends : b.step.Ends (fun c _ _ => c.bus.Quiet) fun _ _ _ => True := by
    unfold step stepWithin
    rw [if_neg (by simp [going])]
    dsimp only
    split
    · trivial
    · split
      · trivial
      · exact quiet_instant _ _ _
  exact (Turn.ends_iff_of_ok returns).mp ends

end Bench

/-- Whenever a step simulates an instant and succeeds, whatever happened in the steps before, the
lines have come to rest: nothing is pending, and to evaluate the stage once more would change neither
what it holds nor what its outputs carry. So the outputs are neutral in reset; out of reset the stall
repeats the arbiter's line, and the other outputs tell about the word while the stage is enabled, and
about what it holds while it is not. -/
theorem Recording.step_fixedPoint {σ κ : Type} [WordSource σ] [Sink κ] (s : Settings) (source : σ)
    (waveform : Option Waveform) (out : κ) (n : Nat) (t : Instant) :
    let r := (fresh s source waveform out).after n
    let b := r.step.state.bench
    r.step.result = .ok (.advanced t) ∨
        r.bench.stopped = false ∧ r.step.result = .ok (.stopped t) →
      (∀ l, (b.bus.get l).pending = none) ∧
      (b.stage.evaluate b.bus.inputs).1.held = b.stage.held ∧
      b.bus.Carries (b.stage.evaluate b.bus.inputs).2 ∧
      b.bus.Tells (b.stage.evaluate b.bus.inputs).2 ∧
      (b.bus.level .reset = true → b.bus.Carries .neutral ∧ b.bus.Tells .neutral) ∧
      (b.bus.level .reset = false → b.bus.level .stall = b.bus.level .arbiterFull) ∧
      (b.bus.level .reset = false → b.bus.level .enable = true →
        let o : StageOutputs := ⟨identify (b.bus.level .word), b.bus.level .arbiterFull⟩
        b.bus.Carries o ∧ b.bus.Tells o) ∧
      (b.bus.level .reset = false → b.bus.level .enable = false →
        let o : StageOutputs := ⟨b.stage.held, b.bus.level .arbiterFull⟩
        b.bus.Carries o ∧ b.bus.Tells o) := by
  intro r b succeeds
  obtain ⟨going, outcome, returns⟩ : r.bench.stopped = false ∧
      ∃ outcome, r.step.result = .ok outcome := by
    rcases succeeds with advanced | ⟨going, stopped⟩
    · exact ⟨Bench.going_of_advanced (bench_result_of_step_ok advanced), _, advanced⟩
    · exact ⟨going, _, stopped⟩
  have same : b = r.bench.step.state := step_bench r
  have answered : r.bench.Answered := by
    rw [after_bench]
    exact Bench.answered_after (Bench.answered_new s source) n
  have settled : b.Settled := by
    rw [same]
    exact (Bench.answered_step answered).settled
      (Bench.quiet_step going (bench_result_of_step_ok returns))
  have outputs := settled.outputs
  refine ⟨settled.quiet, settled.held, outputs, outputs.tells, ?_, ?_, ?_, ?_⟩
  · intro reset
    rw [Stage.outputs_of_reset reset] at outputs
    exact ⟨outputs, outputs.tells⟩
  · intro released
    have stall := outputs .stall _ rfl
    rw [Stage.stall_of_released released] at stall
    exact stall
  · intro released enabled
    rw [Stage.outputs_of_enabled released enabled] at outputs
    exact ⟨outputs, outputs.tells⟩
  · intro released disabled
    rw [Stage.outputs_of_disabled released disabled] at outputs
    exact ⟨outputs, outputs.tells⟩

/-- The source of this run is dry from the start, so that its second step fails. The third one
succeeds. -/
theorem Recording.fixedPoint_after_exhaustion :
    ∃ r : Recording (List Word) Memory, r = fresh (.immediate 1) [] none (.empty none) ∧
      (r.after 1).step.result.isOk = false ∧ (r.after 2).step.result = .ok (.advanced 1) ∧
      (r.after 2).step.state.bench.bus.Quiet := by
  have fails : ((fresh (.immediate 1) ([] : List Word) none (Memory.empty none)).after
      1).step.result.isOk = false := by
    decide +kernel
  have returns : ((fresh (.immediate 1) ([] : List Word) none (Memory.empty none)).after
      2).step.result = .ok (.advanced 1) :=
    Turn.result_of_toOption (by decide +kernel)
  have rests := step_fixedPoint (.immediate 1) ([] : List Word) none (Memory.empty none) 2 1
    (.inl returns)
  exact ⟨_, rfl, fails, returns, rests.1⟩

end IdentifyBench

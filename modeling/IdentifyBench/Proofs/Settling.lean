import IdentifyBench.Proofs.Waking

/-! The rounds of an instant. A round commits, lets the stage answer, and passes a rising edge on.
Only the first round can move an input of the stage, so that the second moves outputs at most, and
the third nothing. -/
namespace IdentifyBench

theorem Tally.classify_eq (t : Tally) (d : Identification) :
    t.classify d = { t with
      iForm := (t.classify d).iForm
      bForm := (t.classify d).bForm
      register := (t.classify d).register
      condition := (t.classify d).condition
      unrecognized := (t.classify d).unrecognized } := by
  unfold classify
  split
  · rfl
  · rfl
  · rfl
  · split <;> rfl

theorem Tally.wordsIssued_record (t : Tally) (o : Observation) :
    (t.record o).wordsIssued = t.wordsIssued := by
  unfold record
  rw [classify_eq]

namespace Bench

variable {σ : Type}

def commit (b : Bench σ) : Bench σ := { b with bus := b.bus.commit.1 }

def moved (b : Bench σ) : LineSet := b.bus.commit.2

def rest (b : Bench σ) (round : Nat) (due : Bool) : Turn (Bench σ) Unit :=
  let b := { b with tally.deltaRounds := max b.tally.deltaRounds round }
  if due then b.observe else .done b []

theorem observe_result (b : Bench σ) : b.observe.result = .ok () := by
  unfold observe
  split <;> rfl

theorem rest_result (b : Bench σ) (round : Nat) (due : Bool) : (b.rest round due).result = .ok () := by
  unfold rest
  cases due with
  | false => rfl
  | true => exact observe_result _

theorem observe_state (b : Bench σ) :
    b.observe.state = { b with
      observer := b.observe.state.observer, tally := b.observe.state.tally } := by
  unfold observe
  split <;> rfl

theorem observe_issued (b : Bench σ) : b.observe.state.tally.wordsIssued = b.tally.wordsIssued := by
  unfold observe
  split
  · rfl
  · exact Tally.wordsIssued_record _ _

theorem rest_issued (b : Bench σ) (round : Nat) (due : Bool) :
    (b.rest round due).state.tally.wordsIssued = b.tally.wordsIssued := by
  unfold rest
  cases due with
  | false => rfl
  | true => exact observe_issued _

theorem rest_state (b : Bench σ) (round : Nat) (due : Bool) :
    (b.rest round due).state = { b with
      observer := (b.rest round due).state.observer, tally := (b.rest round due).state.tally } := by
  unfold rest
  cases due with
  | false => rfl
  | true =>
    dsimp only
    rw [if_pos rfl, observe_state]

theorem respond_state (b : Bench σ) (moved : LineSet) :
    (b.respond moved).1 = { b with
      stage := (b.respond moved).1.stage
      bus := (b.respond moved).1.bus
      tally.stageEvaluations := (b.respond moved).1.tally.stageEvaluations } := by
  unfold respond
  split <;> rfl

theorem level_respond (b : Bench σ) (moved : LineSet) (l : Line) :
    (b.respond moved).1.bus.level l = b.bus.level l := by
  unfold respond
  split
  · exact Bus.level_drive _ _ _
  · rfl

theorem get_respond_of_input (b : Bench σ) (moved : LineSet) {l : Line} (input : l ∈ stageInputs) :
    (b.respond moved).1.bus.get l = b.bus.get l := by
  unfold respond
  split
  · exact Bus.get_drive_of_input _ _ ((StageOutputs.on_eq_none_iff _ l).mpr input)
  · rfl

/-- No input of the stage is about to change. -/
def InputsQuiet (b : Bench σ) : Prop := ∀ l ∈ stageInputs, (b.bus.get l).pending = none

theorem not_mem_moved_of_inputsQuiet {b : Bench σ} (quiet : b.InputsQuiet) {l : Line}
    (input : l ∈ stageInputs) : l ∉ b.moved := by
  rw [moved, Bus.mem_moved, Bus.next, Wire.next_of_pending_none (quiet l input)]
  exact fun moves => moves rfl

theorem respond_of_still {b : Bench σ} {moved : LineSet} (still : ∀ l ∈ stageInputs, l ∉ moved) :
    b.respond moved = (b, []) := by
  have apart : ¬ moved.intersects stageInputs = true := by
    rw [LineSet.intersects_iff]
    rintro ⟨l, moves, input⟩
    exact still l input moves
  rw [respond, if_neg apart]

theorem respond_of_moves {b : Bench σ} {moved : LineSet}
    (moves : moved.intersects stageInputs = true) :
    b.respond moved =
      ({ b with
          stage := (b.stage.evaluate b.bus.inputs).1
          bus := b.bus.drive (b.stage.evaluate b.bus.inputs).2
          tally.stageEvaluations := b.tally.stageEvaluations + 1 },
        match Stage.examined? b.bus.inputs with
        | some word => [.identified word (b.stage.evaluate b.bus.inputs).1.held]
        | none => []) := by
  unfold respond
  exact if_pos moves

theorem moved_of_quiet {b : Bench σ} (quiet : b.bus.Quiet) : b.moved.isEmpty = true :=
  (LineSet.isEmpty_iff _).mpr quiet.not_mem_moved

theorem commit_of_quiet {b : Bench σ} (quiet : b.bus.Quiet) : b.commit = b := by
  rw [commit, quiet.commit_eq]

theorem not_intersects_of_isEmpty {s : LineSet} (empty : s.isEmpty = true) (t : LineSet) :
    s.intersects t = false := by
  rw [Bool.eq_false_iff, Ne, LineSet.intersects_iff]
  rintro ⟨l, inside, _⟩
  exact (LineSet.isEmpty_iff s).mp empty l inside

/-- A stimulus that waits for an edge is about to let the fetch delay pass, and writes nothing. -/
def Calm (b : Bench σ) : Prop := b.awaitingEdge = true → b.stimulus.phase = .awaitFetch

def fetch (b : Bench σ) : Bench σ :=
  { b with
    agenda := b.agenda.add ⟨b.now.after b.stimulus.fetchDelay, .stimulus⟩
    stimulus := { b.stimulus with phase := .present }
    awaitingEdge := false
    tally.wordsIssued := b.stimulus.issued }

/-- What an edge leads to, once the lines that moved are known. -/
def edge (b : Bench σ) (moved : LineSet) : Bench σ :=
  if moved.contains .clock && b.bus.clock.level then
    let b := { b with tally.clockCycles := b.tally.clockCycles + 1 }
    if b.awaitingEdge then b.fetch else b
  else b

theorem risen_iff {b : Bench σ} {moved : LineSet} :
    (moved.contains .clock && b.bus.clock.level) = true ↔
      .clock ∈ moved ∧ b.bus.clock.level = true :=
  Bool.and_eq_true _ _ ▸ Iff.rfl

theorem edge_of_still {b : Bench σ} {moved : LineSet} (still : .clock ∉ moved) :
    b.edge moved = b := by
  rw [edge, if_neg fun risen => still (risen_iff.mp risen).1]

theorem edge_bus (b : Bench σ) (moved : LineSet) : (b.edge moved).bus = b.bus := by
  unfold edge
  dsimp only
  split
  · split <;> rfl
  · rfl

theorem edge_stage (b : Bench σ) (moved : LineSet) : (b.edge moved).stage = b.stage := by
  unfold edge
  dsimp only
  split
  · split <;> rfl
  · rfl

def reacted (b : Bench σ) : Bench σ := (b.commit.respond b.moved).1.edge b.moved

theorem respond_calm {b : Bench σ} (calm : b.Calm) (moved : LineSet) : (b.respond moved).1.Calm := by
  unfold respond
  split <;> exact calm

theorem respond_inputsQuiet {b : Bench σ} (quiet : b.InputsQuiet) (moved : LineSet) :
    (b.respond moved).1.InputsQuiet := by
  intro l input
  rw [get_respond_of_input b moved input]
  exact quiet l input

theorem reacted_inputsQuiet (b : Bench σ) : b.reacted.InputsQuiet := by
  have committed : b.commit.InputsQuiet := fun l _ => b.bus.commit_quiet l
  intro l input
  rw [reacted, edge_bus]
  exact respond_inputsQuiet committed b.moved l input

theorem reacted_of_still {b : Bench σ} (still : b.moved.isEmpty = true) : b.reacted = b.commit := by
  have unmoved : ∀ l, l ∉ b.moved := (LineSet.isEmpty_iff _).mp still
  have unanswered : b.commit.respond b.moved = (b.commit, []) :=
    respond_of_still fun l _ => unmoved l
  rw [reacted, unanswered]
  exact edge_of_still (unmoved .clock)

variable [WordSource σ]

def react (b : Bench σ) : Turn (Bench σ) Unit :=
  (Turn.done (b.commit.respond b.moved).1 (b.commit.respond b.moved).2).andThen
    fun c _ => c.passEdge b.moved

theorem settle_succ (left round : Nat) (due : Bool) (b : Bench σ) :
    settle (left + 1) round due b =
      if b.moved.isEmpty then b.commit.rest round due
      else b.react.andThen fun c _ =>
        settle left (round + 1) (due || b.moved.intersects Observation.triggers) c := by
  rw [react, Turn.andThen_assoc]
  rfl

theorem passEdge_of_calm {b : Bench σ} (calm : b.Calm) (moved : LineSet) :
    b.passEdge moved = .done (b.edge moved) [] := by
  unfold passEdge edge
  dsimp only
  split
  · split
    · rename_i awaiting
      unfold resumeStimulus Stimulus.resume
      rw [calm awaiting]
      rfl
    · rfl
  · rfl

theorem passEdge_of_still {b : Bench σ} {moved : LineSet} (still : .clock ∉ moved) :
    b.passEdge moved = .done b [] := by
  rw [passEdge, if_neg fun risen => still (risen_iff.mp risen).1]

theorem react_of_calm {b : Bench σ} (calm : b.Calm) :
    b.react = .done b.reacted (b.commit.respond b.moved).2 := by
  have committed : b.commit.Calm := calm
  rw [react, Turn.done_andThen, passEdge_of_calm (respond_calm committed b.moved)]
  simp [Turn.done, reacted]

theorem react_of_inputsQuiet {b : Bench σ} (quiet : b.InputsQuiet) : b.react = .done b.commit [] := by
  have still : ∀ l ∈ stageInputs, l ∉ b.moved := fun l input => not_mem_moved_of_inputsQuiet quiet input
  rw [react, respond_of_still still, Turn.done_andThen, passEdge_of_still (still .clock (by decide))]
  rfl

/-- Where only outputs are pending, one round moves them, and the next one moves nothing. -/
theorem settle_of_inputsQuiet {b : Bench σ} (quiet : b.InputsQuiet) {left : Nat} (enough : 2 ≤ left)
    (round : Nat) (due : Bool) :
    settle left round due b =
      b.commit.rest (if b.moved.isEmpty then round else round + 1)
        (due || b.moved.intersects Observation.triggers) := by
  obtain ⟨left, rfl⟩ := Nat.exists_eq_add_of_le' enough
  rw [settle_succ]
  split
  · rename_i empty
    rw [not_intersects_of_isEmpty empty, Bool.or_false]
  · have settled : b.commit.bus.Quiet := b.bus.commit_quiet
    rw [react_of_inputsQuiet quiet, Turn.done_andThen, settle_succ, if_pos (moved_of_quiet settled),
      commit_of_quiet settled]
    rfl

/-- Settling takes two rounds that move lines at most: one for the inputs and one for the outputs. -/
theorem settle_of_calm {b : Bench σ} (calm : b.Calm) {left : Nat} (enough : 3 ≤ left) :
    settle left 0 false b =
      (Turn.done b.reacted (b.commit.respond b.moved).2).andThen fun c _ =>
        c.commit.rest (if b.moved.isEmpty then 0 else if c.moved.isEmpty then 1 else 2)
          (b.moved.intersects Observation.triggers || c.moved.intersects Observation.triggers) := by
  obtain ⟨left, rfl⟩ := Nat.exists_eq_add_of_le' enough
  rw [settle_succ]
  split
  · rename_i empty
    have settled : b.commit.bus.Quiet := b.bus.commit_quiet
    have unanswered : b.commit.respond b.moved = (b.commit, []) :=
      respond_of_still fun l _ => (LineSet.isEmpty_iff _).mp empty l
    rw [reacted_of_still empty, unanswered, Turn.done_andThen, commit_of_quiet settled,
      not_intersects_of_isEmpty empty, not_intersects_of_isEmpty (moved_of_quiet settled)]
    rfl
  · rw [react_of_calm calm, Turn.done_andThen, Turn.done_andThen,
      settle_of_inputsQuiet b.reacted_inputsQuiet (by omega), Bool.false_or]

end Bench

end IdentifyBench

import IdentifyBench.Coverage

/-! Statistics of a run: its activity, the mix of instructions that was observed, and the coverage
reached. -/
namespace IdentifyBench

structure Tally where
  simTime : Instant
  /-- Rising clock edges. -/
  clockCycles : Nat
  wordsIssued : Nat
  stageEvaluations : Nat
  /-- Most delta rounds that an instant took to settle. -/
  deltaRounds : Nat
  observations : Nat
  iForm : Nat
  /-- Conditional branches to a displacement. -/
  bForm : Nat
  /-- Branches to a register. -/
  register : Nat
  condition : Nat
  unrecognized : Nat
  stalled : Nat
  coverage : Coverage

namespace Tally

def empty : Tally := ⟨0, 0, 0, 0, 0, 0, 0, 0, 0, 0, 0, 0, .empty⟩

def classify (t : Tally) (d : Identification) : Tally :=
  match d.form, d.target with
  | some .iForm, _ => { t with iForm := t.iForm + 1 }
  | some .bForm, none => { t with bForm := t.bForm + 1 }
  | some .bForm, some _ => { t with register := t.register + 1 }
  | none, _ =>
    if d.condition then { t with condition := t.condition + 1 }
    else { t with unrecognized := t.unrecognized + 1 }

def record (t : Tally) (o : Observation) : Tally :=
  let t := t.classify o.identified
  { t with
    observations := t.observations + 1
    stalled := if o.stall then t.stalled + 1 else t.stalled
    coverage := t.coverage.sample o }

end Tally

end IdentifyBench

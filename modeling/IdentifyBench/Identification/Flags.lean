import IdentifyBench.Identification

/-! The stage's one-bit outputs: one line per fact about the word, and the way back from the lines
to an identification. -/
namespace IdentifyBench

structure Flags where
  branch : Bool
  iForm : Bool
  bForm : Bool
  lr : Bool
  ctr : Bool
  tar : Bool
  condition : Bool
  ops : ConditionOp → Bool
  prefixed : Bool
  deriving DecidableEq

namespace Identification

def flags (d : Identification) : Flags where
  branch := d.branch
  iForm := d.form == some .iForm
  bForm := d.form == some .bForm
  lr := d.target == some .lr
  ctr := d.target == some .ctr
  tar := d.target == some .tar
  condition := d.condition
  ops op := d.op == some op
  prefixed := d.prefixed

end Identification

namespace Flags

/-- At most one of the form lines may be high. -/
def form? (f : Flags) : Option (Option BranchForm) :=
  match f.iForm, f.bForm with
  | false, false => some none
  | true, false => some (some .iForm)
  | false, true => some (some .bForm)
  | true, true => none

def target? (f : Flags) : Option (Option TargetRegister) :=
  match f.lr, f.ctr, f.tar with
  | false, false, false => some none
  | true, false, false => some (some .lr)
  | false, true, false => some (some .ctr)
  | false, false, true => some (some .tar)
  | _, _, _ => none

def op? (f : Flags) : Option (Option ConditionOp) :=
  match ConditionOp.all.filter f.ops with
  | [] => some none
  | [op] => some (some op)
  | _ => none

/-- The identification that drives these lines, if a consistent one does. -/
def identification? (f : Flags) (opcode word : Word) : Option Identification := do
  let form ← f.form?
  let target ← f.target?
  let op ← f.op?
  let d : Identification := {
    branch := f.branch, form, target, condition := f.condition, op,
    prefixed := f.prefixed, opcode, word }
  if d.Consistent then some d else none

end Flags

end IdentifyBench

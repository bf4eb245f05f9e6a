import IdentifyBench.Word.Fields

/-! What the stage says about one word: whether it is a branch, of which form and with which
target register, whether it is a condition register operation and which, and the slices of the word
that travel with the answer. -/
namespace IdentifyBench

inductive BranchForm
  | iForm
  | bForm
  deriving DecidableEq, Repr

inductive TargetRegister
  | lr
  | ctr
  | tar
  deriving DecidableEq, Repr

inductive ConditionOp
  | crand
  | crnand
  | cror
  | crxor
  | crnor
  | creqv
  | crandc
  | crorc
  | mcrf
  deriving DecidableEq, Repr

/-- In the order of the stage's output lines. -/
def ConditionOp.all : List ConditionOp :=
  [.crand, .crnand, .cror, .crxor, .crnor, .creqv, .crandc, .crorc, .mcrf]

theorem ConditionOp.mem_all (op : ConditionOp) : op ∈ ConditionOp.all := by
  cases op <;> decide

instance : DecidableEq (ConditionOp → Bool) := fun f g =>
  decidable_of_iff (∀ op ∈ ConditionOp.all, f op = g op)
    ⟨fun same => funext fun op => same op op.mem_all, fun same _ _ => same ▸ rfl⟩

structure Identification where
  branch : Bool
  form : Option BranchForm
  target : Option TargetRegister
  condition : Bool
  op : Option ConditionOp
  prefixed : Bool
  opcode : Word
  word : Word
  deriving DecidableEq, Repr

namespace Identification

/-- The answer while the stage is in reset. -/
def neutral : Identification where
  branch := false
  form := none
  target := none
  condition := false
  op := none
  prefixed := false
  opcode := 0
  word := 0

instance : Inhabited Identification := ⟨neutral⟩

def unrecognized (d : Identification) : Bool := !d.branch && !d.condition

/-- A branch has a form, only the conditional form names a register, an operation is given exactly
for a condition register instruction, and no word is both. -/
def Consistent (d : Identification) : Prop :=
  (d.branch = d.form.isSome) ∧
  (d.target.isSome → d.form = some .bForm) ∧
  (d.condition = d.op.isSome) ∧
  ¬(d.branch = true ∧ d.condition = true)

instance (d : Identification) : Decidable d.Consistent := by
  unfold Consistent; infer_instance

end Identification

namespace BranchForm

def text : Option BranchForm → String
  | none => "-"
  | some .iForm => "I-form"
  | some .bForm => "B-form"

def tag : Option BranchForm → String
  | none => "None"
  | some .iForm => "IForm"
  | some .bForm => "BForm"

end BranchForm

namespace TargetRegister

def text : Option TargetRegister → String
  | none => "-"
  | some .lr => "LR"
  | some .ctr => "CTR"
  | some .tar => "TAR"

def tag : Option TargetRegister → String
  | none => "None"
  | some .lr => "Lr"
  | some .ctr => "Ctr"
  | some .tar => "Tar"

end TargetRegister

namespace ConditionOp

def mnemonic : ConditionOp → String
  | .crand => "crand"
  | .crnand => "crnand"
  | .cror => "cror"
  | .crxor => "crxor"
  | .crnor => "crnor"
  | .creqv => "creqv"
  | .crandc => "crandc"
  | .crorc => "crorc"
  | .mcrf => "mcrf"

def text : Option ConditionOp → String
  | none => "-"
  | some op => op.mnemonic

def tag : Option ConditionOp → String
  | none => "None"
  | some .crand => "Crand"
  | some .crnand => "Crnand"
  | some .cror => "Cror"
  | some .crxor => "Crxor"
  | some .crnor => "Crnor"
  | some .creqv => "Creqv"
  | some .crandc => "Crandc"
  | some .crorc => "Crorc"
  | some .mcrf => "Mcrf"

end ConditionOp

end IdentifyBench

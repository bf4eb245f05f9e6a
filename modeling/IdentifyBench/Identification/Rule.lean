import IdentifyBench.Identification

/-! The rules that recognize words. A rule fixes some bits of a word and leaves its operands open,
and no two rules accept the same word, so the order of the table does not matter. -/
namespace IdentifyBench

inductive InstructionClass
  | branch (form : BranchForm) (target : Option TargetRegister)
  | condition (op : ConditionOp)
  deriving DecidableEq, Repr

structure Rule where
  mnemonic : String
  mask : Word
  pattern : Word
  kind : InstructionClass
  deriving DecidableEq, Repr

namespace Rule

/-- Every bit that some rule examines. -/
def relevantBits : Word := 0xfc0007fe

def accepts (r : Rule) (w : Word) : Bool := w &&& r.mask == r.pattern

def primary (mnemonic : String) (opcode : BitVec 6) (kind : InstructionClass) : Rule :=
  ⟨mnemonic, 0xfc000000, opcode ++ 0#26, kind⟩

def extended (mnemonic : String) (opcode : BitVec 10) (kind : InstructionClass) : Rule :=
  ⟨mnemonic, relevantBits, 19#6 ++ 0#15 ++ opcode ++ 0#1, kind⟩

def table : List Rule :=
  [primary "b" 18 (.branch .iForm none),
   primary "bc" 16 (.branch .bForm none),
   extended "bclr" 16 (.branch .bForm (some .lr)),
   extended "bcctr" 528 (.branch .bForm (some .ctr)),
   extended "bctar" 560 (.branch .bForm (some .tar)),
   extended "crand" 257 (.condition .crand),
   extended "crnand" 225 (.condition .crnand),
   extended "cror" 449 (.condition .cror),
   extended "crxor" 193 (.condition .crxor),
   extended "crnor" 33 (.condition .crnor),
   extended "creqv" 289 (.condition .creqv),
   extended "crandc" 129 (.condition .crandc),
   extended "crorc" 417 (.condition .crorc),
   extended "mcrf" 0 (.condition .mcrf)]

def find? (w : Word) : Option Rule := table.find? (·.accepts w)

end Rule

def Identification.plain (w : Word) : Identification :=
  { Identification.neutral with
    prefixed := w.primaryOpcode == 1, opcode := w.primaryOpcode.setWidth 32, word := w }

def Identification.classified (d : Identification) : InstructionClass → Identification
  | .branch form target => { d with branch := true, form := some form, target }
  | .condition op => { d with condition := true, op := some op }

/-- Total: a word no rule accepts is unrecognized, which is not an error. -/
def identify (w : Word) : Identification :=
  match Rule.find? w with
  | none => .plain w
  | some rule => (Identification.plain w).classified rule.kind

end IdentifyBench

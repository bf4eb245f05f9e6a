import IdentifyBench.Bus
import IdentifyBench.Digits
import IdentifyBench.Instant

/-! Settled views of the stage, and their text as lines of JSON. -/
namespace IdentifyBench

structure Observation where
  time : Instant
  word : Word
  control : Control
  identified : Identification
  stall : Bool
  deriving DecidableEq, Repr

namespace Observation

/-- A view is due when one of these lines moved. -/
def triggers : LineSet := .ofList [.word, .branch, .condition]

/-- The settled view of the lines, unless the outputs carry levels the stage never drives. -/
def ofBus? (time : Instant) (b : Bus) : Option Observation := do
  let identified ← b.identification?
  return {
    time, word := b.inputs.word, control := b.inputs.control, identified, stall := b.stall.level }

def member (name value : String) : String := "\"" ++ name ++ "\":" ++ value

def object (members : List String) : String := "\x7b" ++ ",".intercalate members ++ "\x7d"

def quoted (text : String) : String := "\"" ++ text ++ "\""

def number (w : Word) : String := toString w.toNat

def json (o : Observation) : String :=
  object [
    member "time" (toString o.time),
    member "word" (number o.word),
    member "control" (object [
      member "reset" (Digits.boolean o.control.reset),
      member "enable" (Digits.boolean o.control.enable),
      member "arbiter_full" (Digits.boolean o.control.arbiterFull)]),
    member "decode" (object [
      member "branch_identified" (Digits.boolean o.identified.branch),
      member "branch_form" (quoted (BranchForm.tag o.identified.form)),
      member "branch_condition" (quoted (TargetRegister.tag o.identified.target)),
      member "condreg_identified" (Digits.boolean o.identified.condition),
      member "condreg_op" (quoted (ConditionOp.tag o.identified.op)),
      member "prefixed" (Digits.boolean o.identified.prefixed),
      member "instr_prefix" (number o.identified.opcode),
      member "instr_suffix" (number o.identified.word)]),
    member "stall_fetch" (Digits.boolean o.stall)]

def jsonLines (observations : List Observation) : String :=
  String.join (observations.map fun o => o.json ++ "\n")

end Observation

end IdentifyBench

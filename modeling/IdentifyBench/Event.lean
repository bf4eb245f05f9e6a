import IdentifyBench.Assembly
import IdentifyBench.Coverage

/-! What a run has to tell while it goes on. Each event has a severity, a message and named
fields. -/
namespace IdentifyBench

inductive Severity
  | error
  | warn
  | info
  | debug
  | trace
  deriving DecidableEq, Repr

namespace Severity

def name : Severity → String
  | error => "ERROR"
  | warn => "WARN"
  | info => "INFO"
  | debug => "DEBUG"
  | trace => "TRACE"

/-- Grows as events matter less. -/
def rank : Severity → Nat
  | error => 0
  | warn => 1
  | info => 2
  | debug => 3
  | trace => 4

end Severity

inductive Event
  | tracing (path : String)
  | started (period : Nat)
  | resetAsserted (now : Instant)
  | resetReleased (now : Instant)
  | enabled (now : Instant)
  | presented (now : Instant) (word : Word) (arbiterFull : Bool)
  | stopRequested (time : Instant)
  | identified (word : Word) (result : Identification)
  | observed (observation : Observation)
  | inconsistent (time : Instant) (flags : Flags)
  | uncovered (hole : Hole)
  | stopped (time : Instant)

namespace Event

def severity : Event → Severity
  | tracing .. | started .. | observed .. | stopped .. => .info
  | resetAsserted .. | resetReleased .. | enabled .. | presented .. | stopRequested .. => .debug
  | identified .. => .trace
  | inconsistent .. | uncovered .. => .warn

def record (name : String) (parts : List (String × String)) : String :=
  name ++ " \x7b " ++ ", ".intercalate (parts.map fun (part, value) => part ++ ": " ++ value) ++
    " \x7d"

def identificationText (d : Identification) : String :=
  record "DecodeResult" [
    ("branch_identified", Digits.boolean d.branch),
    ("branch_form", BranchForm.tag d.form),
    ("branch_condition", TargetRegister.tag d.target),
    ("condreg_identified", Digits.boolean d.condition),
    ("condreg_op", ConditionOp.tag d.op),
    ("prefixed", Digits.boolean d.prefixed),
    ("instr_prefix", toString d.opcode.toNat),
    ("instr_suffix", toString d.word.toNat)]

def flagsText (f : Flags) : String :=
  record "OutputFlags" [
    ("branch_identified", Digits.boolean f.branch),
    ("branch_i_form", Digits.boolean f.iForm),
    ("branch_b_form", Digits.boolean f.bForm),
    ("branch_cond_lr", Digits.boolean f.lr),
    ("branch_cond_ctr", Digits.boolean f.ctr),
    ("branch_cond_tar", Digits.boolean f.tar),
    ("condreg_identified", Digits.boolean f.condition),
    ("condreg_ops",
      "[" ++ ", ".intercalate (ConditionOp.all.map fun op => Digits.boolean (f.ops op)) ++ "]"),
    ("prefixed", Digits.boolean f.prefixed)]

def classText (d : Identification) : String :=
  "branch=" ++ Digits.boolean d.branch ++ " form=" ++ BranchForm.text d.form ++ " cond=" ++
    TargetRegister.text d.target ++ " condreg=" ++ Digits.boolean d.condition ++ " op=" ++
    ConditionOp.text d.op

def message : Event → String
  | tracing _ => "tracing enabled"
  | started _ => "simulation started"
  | resetAsserted _ => "reset asserted"
  | resetReleased _ => "reset released"
  | enabled _ => "enabled"
  | presented .. => "presented"
  | stopRequested _ => "stop requested"
  | identified .. => "identify"
  | observed o =>
    o.time.text ++ ": " ++ Digits.word o.word ++ " " ++ Digits.column 24 (disassemble o.word) ++
      " " ++ classText o.identified ++ " stall=" ++ Digits.boolean o.stall
  | inconsistent .. => "inconsistent stage outputs"
  | uncovered _ => "coverage hole"
  | stopped _ => "simulation stopped"

def fields : Event → List (String × String)
  | tracing path => [("path", path)]
  | started period => [("period", Instant.text period)]
  | resetAsserted now => [("now", now.text)]
  | resetReleased now => [("now", now.text)]
  | enabled now => [("now", now.text)]
  | presented now word full =>
    [("arbiter_full", Digits.boolean full), ("now", now.text), ("word", Digits.word word)]
  | stopRequested time => [("time", time.text)]
  | identified word result => [("decode", identificationText result), ("word", Digits.word word)]
  | observed _ => []
  | inconsistent time flags => [("flags", flagsText flags), ("time", time.text)]
  | uncovered hole => [("bin", hole.text)]
  | stopped time => [("time", time.text)]

def reaches (e : Event) (s : Severity) : Bool := e.severity.rank ≤ s.rank

end Event

end IdentifyBench

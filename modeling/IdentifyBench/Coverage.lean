import IdentifyBench.Line.Table
import IdentifyBench.Observation

/-! Functional coverage: how often each output flag was seen low and high, and how often the two
identification flags were seen together. -/
namespace IdentifyBench

/-- How often a flag was seen low and high. -/
structure Bin where
  low : Nat
  high : Nat
  deriving DecidableEq, Repr

namespace Bin

def empty : Bin := ⟨0, 0⟩

def hits (b : Bin) (high : Bool) : Nat := if high then b.high else b.low

def count (b : Bin) (high : Bool) : Bin :=
  if high then { b with high := b.high + 1 } else { b with low := b.low + 1 }

end Bin

inductive Hole
  | value (line : Line) (high : Bool)
  | cross (branch condition : Bool)
  deriving DecidableEq, Repr

def Hole.text : Hole → String
  | .value line high => line.name ++ "=" ++ Digits.bit high
  | .cross branch condition =>
    "branch=" ++ Digits.bit branch ++ " x condreg=" ++ Digits.bit condition

structure Coverage where
  bins : LineTable fun _ => Bin
  /-- Hits where no branch was identified, by the condition register flag. -/
  plain : Bin
  /-- Hits where a branch was identified, by the condition register flag. -/
  branch : Bin

namespace Coverage

def points : List Line :=
  [.branch, .iForm, .bForm, .targetLr, .targetCtr, .targetTar, .stall, .condition, .crand, .crnand,
   .cror, .crxor, .crnor, .creqv, .crandc, .crorc, .mcrf]

def empty : Coverage := ⟨.ofFn fun _ => .empty, .empty, .empty⟩

def values (o : Observation) : List Bool :=
  let flags := o.identified.flags
  [flags.branch, flags.iForm, flags.bForm, flags.lr, flags.ctr, flags.tar, o.stall,
   flags.condition] ++ ConditionOp.all.map flags.ops

def flag? (o : Observation) (l : Line) : Option Bool := (points.zip (values o)).lookup l

def sample (c : Coverage) (o : Observation) : Coverage where
  bins := c.bins.map fun l bin =>
    match flag? o l with
    | some high => bin.count high
    | none => bin
  plain := if o.identified.branch then c.plain else c.plain.count o.identified.condition
  branch := if o.identified.branch then c.branch.count o.identified.condition else c.branch

def hits (c : Coverage) (l : Line) (high : Bool) : Nat := (c.bins.get l).hits high

def crossHits (c : Coverage) (branch condition : Bool) : Nat :=
  (if branch then c.branch else c.plain).hits condition

/-- The combinations of the two identification flags that can occur. -/
def crossPoints : List (Bool × Bool) := [(false, false), (true, false), (false, true)]

def holes (c : Coverage) : List Hole :=
  (points.flatMap fun l =>
    ([false, true].filter fun high => c.hits l high == 0).map fun high => .value l high) ++
  (crossPoints.filter fun (branch, condition) => c.crossHits branch condition == 0).map
    fun (branch, condition) => .cross branch condition

def total : Nat := points.length * 2 + crossPoints.length

/-- Share of the bins that were hit, in percent. -/
def percent (c : Coverage) : Float :=
  (total - c.holes.length).toUInt64.toFloat / total.toUInt64.toFloat * 100

end Coverage

end IdentifyBench

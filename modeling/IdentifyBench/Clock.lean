import IdentifyBench.Instant

/-! A square wave. Its first toggle drives the line high, and of an odd period the low phase takes
the spare picosecond. -/
namespace IdentifyBench

structure Clock where
  high : Nat
  low : Nat
  deriving DecidableEq, Repr

namespace Clock

def ofPeriod (period : Nat) : Clock := ⟨period / 2, period - period / 2⟩

def period (c : Clock) : Nat := c.high + c.low

def toggle (c : Clock) (level : Bool) : Bool × Nat :=
  if level then (false, c.low) else (true, c.high)

end Clock

end IdentifyBench

/-! Time on the simulated timeline, counted in picoseconds from the start. The timeline has a last
instant, and no delay leads beyond it. -/
namespace IdentifyBench

abbrev Instant := Nat

namespace Instant

def last : Instant := UInt64.size - 1

def ofNanoseconds (n : Nat) : Instant := n * 1000

def after (t : Instant) (delay : Nat) : Instant := min (t + delay) last

/-- Whole nanoseconds where possible, picoseconds otherwise. -/
def text (t : Instant) : String :=
  if t % 1000 = 0 then toString (t / 1000) ++ " ns" else toString t ++ " ps"

end Instant

end IdentifyBench

import IdentifyBench.Instant

/-! Scheduled wake-ups, the next one first. Among wake-ups at one instant, the one scheduled first
comes first. -/
namespace IdentifyBench

inductive Process
  | clock
  | stimulus
  deriving DecidableEq, Repr

structure Wakeup where
  time : Instant
  process : Process
  deriving DecidableEq, Repr

abbrev Agenda := List Wakeup

namespace Agenda

def add : Agenda → Wakeup → Agenda
  | [], w => [w]
  | v :: rest, w => if v.time ≤ w.time then v :: add rest w else w :: v :: rest

end Agenda

end IdentifyBench

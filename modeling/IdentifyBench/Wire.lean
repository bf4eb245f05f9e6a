import IdentifyBench.Line.Set

/-! A wire holds a committed level and at most one pending write. A write stays invisible until it
is committed, and the last write before a commit wins. -/
namespace IdentifyBench

structure Wire (α : Type) where
  level : α
  pending : Option α
  deriving DecidableEq, Repr

namespace Wire

variable {α : Type}

def holding (level : α) : Wire α := ⟨level, none⟩

def write (w : Wire α) (value : α) : Wire α := { w with pending := some value }

def commit (w : Wire α) : Wire α := holding (w.pending.getD w.level)

def moves [DecidableEq α] (w : Wire α) : Bool := w.pending.any (· != w.level)

def commitInto [DecidableEq α] (w : Wire α) (l : Line) (moved : LineSet) : Wire α × LineSet :=
  (w.commit, if w.moves then moved.insert l else moved)

end Wire

end IdentifyBench

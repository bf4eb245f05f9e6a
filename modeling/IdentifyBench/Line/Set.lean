import IdentifyBench.Line

/-! Finite sets of lines, one bit for each line at its place in the trace order. -/
namespace IdentifyBench

structure LineSet where
  bits : BitVec 25
  deriving DecidableEq, Repr

namespace LineSet

def empty : LineSet := ⟨0⟩

instance : Inhabited LineSet := ⟨empty⟩

def insert (s : LineSet) (l : Line) : LineSet := ⟨s.bits ||| BitVec.twoPow 25 l.index⟩

def contains (s : LineSet) (l : Line) : Bool := s.bits.getLsbD l.index

def intersects (s t : LineSet) : Bool := s.bits &&& t.bits != 0

def isEmpty (s : LineSet) : Bool := s.bits == 0

def ofList (lines : List Line) : LineSet := lines.foldl insert empty

/-- The members in trace order. -/
def toList (s : LineSet) : List Line := Line.all.filter s.contains

instance : Membership Line LineSet := ⟨fun s l => s.contains l = true⟩

instance (s : LineSet) (l : Line) : Decidable (l ∈ s) :=
  inferInstanceAs (Decidable (s.contains l = true))

end LineSet

end IdentifyBench

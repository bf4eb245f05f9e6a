/-! Instruction words and their fields. Bits are counted from the least significant one, so the
primary opcode is the top six bits of a word. -/
namespace IdentifyBench

abbrev Word := BitVec 32

namespace Word

def primaryOpcode (w : Word) : BitVec 6 := w.extractLsb' 26 6

/-- Tells apart the instructions that share primary opcode 19. -/
def extendedOpcode (w : Word) : BitVec 10 := w.extractLsb' 1 10

def bo (w : Word) : BitVec 5 := w.extractLsb' 21 5

def bi (w : Word) : BitVec 5 := w.extractLsb' 16 5

def bb (w : Word) : BitVec 5 := w.extractLsb' 11 5

def bh (w : Word) : BitVec 2 := w.extractLsb' 11 2

def bf (w : Word) : BitVec 3 := w.extractLsb' 23 3

def bfa (w : Word) : BitVec 3 := w.extractLsb' 18 3

def absolute (w : Word) : Bool := w.getLsbD 1

def link (w : Word) : Bool := w.getLsbD 0

/-- Byte displacement of an unconditional branch, read as a signed number. -/
def liDisplacement (w : Word) : BitVec 32 := (w.extractLsb' 2 24 ++ 0#2).signExtend 32

/-- Byte displacement of a conditional branch, read as a signed number. -/
def bdDisplacement (w : Word) : BitVec 32 := (w.extractLsb' 2 14 ++ 0#2).signExtend 32

end Word

end IdentifyBench

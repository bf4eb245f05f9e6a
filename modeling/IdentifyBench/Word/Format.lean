import IdentifyBench.Word.Fields

/-! Words built from operands, one function per instruction format. Every operand is cut to the
width of its field. -/
namespace IdentifyBench.Word

/-- An unconditional branch. The two low bits of the byte displacement are dropped. -/
def iForm (displacement : Word) (absolute link : Bool) : Word :=
  18#6 ++ displacement.extractLsb' 2 24 ++ BitVec.ofBool absolute ++ BitVec.ofBool link

def bForm (bo bi displacement : Word) (absolute link : Bool) : Word :=
  16#6 ++ bo.setWidth 5 ++ bi.setWidth 5 ++ displacement.extractLsb' 2 14 ++
    BitVec.ofBool absolute ++ BitVec.ofBool link

def xlBranch (bo bi bh extended : Word) (link : Bool) : Word :=
  19#6 ++ bo.setWidth 5 ++ bi.setWidth 5 ++ 0#3 ++ bh.setWidth 2 ++ extended.setWidth 10 ++
    BitVec.ofBool link

def xlLogical (bt ba bb extended : Word) : Word :=
  19#6 ++ bt.setWidth 5 ++ ba.setWidth 5 ++ bb.setWidth 5 ++ extended.setWidth 10 ++ 0#1

def moveField (bf bfa : Word) : Word :=
  19#6 ++ bf.setWidth 3 ++ 0#2 ++ bfa.setWidth 3 ++ 0#18

end IdentifyBench.Word

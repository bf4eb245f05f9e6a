import IdentifyBench.Source.Generator
import IdentifyBench.Word.Format

/-! Random words. Most samples are encodings of the instructions the stage recognizes, with random
operands, so that every output line gets exercised; the rest are stray words. -/
namespace IdentifyBench

/-- What random choices are made with. Nothing is known of an answer but its range. -/
class Dice (m : Type → Type) where
  /-- One of eight equally likely cases. -/
  roll : m (Fin 8)
  field (width : Nat) : m (BitVec width)
  pick {n : Nat} (positive : 0 < n) : m (Fin n)
  flag : m Bool
  number : m UInt32

instance : Dice (StateM Generator) where
  roll := return ⟨((← Generator.number) >>> 29).toNat % 8, Nat.mod_lt _ (Nat.succ_pos 7)⟩
  field := Generator.field
  pick := Generator.pick
  flag := Generator.flag
  number := Generator.number

inductive Sample
  | branch (displacement : BitVec 24) (absolute link : Bool)
  | conditional (displacement : BitVec 14) (bo bi : BitVec 5) (absolute link : Bool)
  | toRegister (register : Fin 3) (bo bi : BitVec 5) (bh : BitVec 2) (link : Bool)
  | logical (operation : Fin 8) (bt ba bb : BitVec 5)
  | move (bf bfa : BitVec 3)
  | opcode19 (extended : BitVec 10) (link : BitVec 1)
  | stray (word : Word)
  deriving DecidableEq, Repr

namespace Sample

/-- Extended opcodes of the branches to the link, count and target address registers. -/
def registers : Vector (BitVec 10) 3 := #v[16, 528, 560]

/-- Extended opcodes of the eight condition register logicals. -/
def operations : Vector (BitVec 10) 8 := #v[257, 225, 449, 193, 33, 289, 129, 417]

def word : Sample → Word
  | branch displacement absolute link =>
    Word.iForm ((displacement ++ 0#2).signExtend 32) absolute link
  | conditional displacement bo bi absolute link =>
    Word.bForm (bo.setWidth 32) (bi.setWidth 32) ((displacement ++ 0#2).signExtend 32) absolute link
  | toRegister register bo bi bh link =>
    Word.xlBranch (bo.setWidth 32) (bi.setWidth 32) (bh.setWidth 32)
      (registers[register].setWidth 32) link
  | logical operation bt ba bb =>
    Word.xlLogical (bt.setWidth 32) (ba.setWidth 32) (bb.setWidth 32)
      (operations[operation].setWidth 32)
  | move bf bfa => Word.moveField (bf.setWidth 32) (bfa.setWidth 32)
  | opcode19 extended link => 19#6 ++ 0#15 ++ extended ++ link
  | stray word => word

/-- The first draw settles which of the eight cases applies; the logicals have two. -/
def draw {m : Type → Type} [Monad m] [Dice m] : m Sample := do
  match ← Dice.roll with
  | 0 => return .branch (← Dice.field 24) (← Dice.flag) (← Dice.flag)
  | 1 =>
    return .conditional (← Dice.field 14) (← Dice.field 5) (← Dice.field 5) (← Dice.flag)
      (← Dice.flag)
  | 2 =>
    return .toRegister (← Dice.pick (Nat.succ_pos 2)) (← Dice.field 5) (← Dice.field 5)
      (← Dice.field 2) (← Dice.flag)
  | 3 | 4 =>
    return .logical (← Dice.pick (Nat.succ_pos 7)) (← Dice.field 5) (← Dice.field 5)
      (← Dice.field 5)
  | 5 => return .move (← Dice.field 3) (← Dice.field 3)
  | 6 => return .opcode19 (← Dice.field 10) (← Dice.field 1)
  | 7 => return .stray (← Dice.number).toBitVec

end Sample

end IdentifyBench

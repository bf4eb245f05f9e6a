import IdentifyBench.Digits
import IdentifyBench.Identification.Rule

/-! Assembler text of a word. A word no rule accepts is written as data. -/
namespace IdentifyBench

/-- Displacements are written as unsigned hexadecimal numbers of 32 bits. -/
def disassemble (w : Word) : String :=
  match Rule.find? w with
  | none => ".long " ++ Digits.word w
  | some rule =>
    let number {n : Nat} (field : BitVec n) : String := toString field.toNat
    let l := if w.link then "l" else ""
    let a := if w.absolute then "a" else ""
    match rule.kind with
    | .branch .iForm _ =>
      rule.mnemonic ++ l ++ a ++ " 0x" ++ Digits.hex w.liDisplacement.toNat
    | .branch .bForm none =>
      rule.mnemonic ++ l ++ a ++ " " ++ number w.bo ++ ", " ++ number w.bi ++ ", 0x" ++
        Digits.hex w.bdDisplacement.toNat
    | .branch .bForm (some _) =>
      rule.mnemonic ++ l ++ " " ++ number w.bo ++ ", " ++ number w.bi ++ ", " ++ number w.bh
    | .condition .mcrf => rule.mnemonic ++ " " ++ number w.bf ++ ", " ++ number w.bfa
    | .condition _ =>
      rule.mnemonic ++ " " ++ number w.bo ++ ", " ++ number w.bi ++ ", " ++ number w.bb

end IdentifyBench

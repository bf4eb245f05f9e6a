import IdentifyBench.Proofs.Assembler

/-! What the assembler text of a word says about it. The text reads back as the word without the bits
its format does not use, and those bits do not show in it, so two words have the same text exactly if
they are the same in all other bits. -/
namespace IdentifyBench

def Format.operands (f : Format) (w : Word) : List Operand :=
  match f with
  | unconditional => [.displacement w.liDisplacement]
  | conditional => [.field w.bo.toNat, .field w.bi.toNat, .displacement w.bdDisplacement]
  | register => [.field w.bo.toNat, .field w.bi.toNat, .field w.bh.toNat]
  | logical => [.field w.bo.toNat, .field w.bi.toNat, .field w.bb.toNat]
  | move => [.field w.bf.toNat, .field w.bfa.toNat]

theorem Format.operands_ne_nil (f : Format) (w : Word) : f.operands w ≠ [] := by
  cases f <;> exact List.cons_ne_nil _ _

namespace Assembler

theorem disassemble_of_missing {w : Word} (missing : Rule.find? w = none) :
    (disassemble w).toList = ".long".toList ++ ' ' :: listing [.word w] := by
  unfold disassemble
  rw [missing]
  simp [listing, Operand.text]

theorem disassemble_of_found {w : Word} {r : Rule} (found : Rule.find? w = some r) :
    (disassemble w).toList =
      (Mnemonic.ofWord r w).spelling.toList ++ ' ' :: listing (r.format.operands w) := by
  obtain ⟨name, mask, pattern, kind⟩ := r
  unfold disassemble Mnemonic.spelling Mnemonic.ofWord Rule.format listing
  rw [found]
  cases kind with
  | branch form target =>
    cases form with
    | iForm =>
      simp [InstructionClass.format, Format.links, Format.absolutes, Format.operands, Operand.text,
        Digits.hex]
    | bForm =>
      cases target with
      | none =>
        simp [InstructionClass.format, Format.links, Format.absolutes, Format.operands, Operand.text,
          Digits.hex]
      | some register =>
        simp [InstructionClass.format, Format.links, Format.absolutes, Format.operands, Operand.text]
  | condition op =>
    cases op <;>
      simp [InstructionClass.format, Format.links, Format.absolutes, Format.operands, Operand.text]

/-- The encoder of a printed mnemonic rebuilds the word from the printed operands. -/
theorem encode?_operands {w : Word} {r : Rule} (found : Rule.find? w = some r) :
    (Mnemonic.ofWord r w).encode? ((r.format.operands w).map Operand.value) =
      some (r.format.rebuild w) := by
  unfold Mnemonic.encode? Mnemonic.ofWord
  cases format : r.format with
  | unconditional =>
    simp [Format.links, Format.absolutes, Format.operands, Format.encode?, Format.rebuild,
      Operand.value]
  | conditional =>
    simp [Format.links, Format.absolutes, Format.operands, Format.encode?, Format.rebuild,
      Operand.value]
  | register =>
    have extended := Rule.extended_of_find? found (congrArg Format.primary format)
    simp [Format.links, Format.operands, Format.encode?, Format.rebuild, Operand.value, extended]
  | logical =>
    have extended := Rule.extended_of_find? found (congrArg Format.primary format)
    simp [Format.operands, Format.encode?, Format.rebuild, Operand.value, extended]
  | move => simp [Format.operands, Format.encode?, Format.rebuild, Operand.value]

theorem assemble?_disassemble (w : Word) : assemble? (disassemble w) = some w.canonical := by
  unfold Word.canonical
  cases found : Rule.find? w with
  | none => exact assemble?_data (disassemble_of_missing found)
  | some r =>
    have listed := Mnemonic.ofWord_mem_all (Rule.listed_of_find? found) w
    rw [assemble?_instruction listed (r.format.operands_ne_nil w) (disassemble_of_found found),
      encode?_operands found, r.rebuild_eq found]

end Assembler

/-- All that the text of a word in some format shows is the same. -/
structure Format.Alike (f : Format) (v w : Word) : Prop where
  primary : v.primaryOpcode = w.primaryOpcode
  extended : v.extendedOpcode = w.extendedOpcode
  link : (f.links && v.link) = (f.links && w.link)
  absolute : (f.absolutes && v.absolute) = (f.absolutes && w.absolute)
  operands : f.operands v = f.operands w

namespace Format

open Word in
theorem alike_without_unused (f : Format) (w : Word) : f.Alike (w &&& ~~~f.unused) w := by
  have whole : w &&& ~~~(0 : Word) = w := BitVec.and_allOnes
  cases f with
  | unconditional =>
    rw [show unconditional.unused = 0 from rfl, whole]
    exact ⟨rfl, rfl, rfl, rfl, rfl⟩
  | conditional =>
    rw [show conditional.unused = 0 from rfl, whole]
    exact ⟨rfl, rfl, rfl, rfl, rfl⟩
  | register =>
    rw [and_unused_register]
    exact {
      primary := primaryOpcode_groupRow ..
      extended := extendedOpcode_groupRow ..
      link := congrArg (true && ·) (link_groupRow ..)
      absolute := rfl
      operands := by
        unfold operands
        rw [bo_groupRow, bi_groupRow, bh_eq (groupRow ..), bb_groupRow,
          BitVec.extractLsb'_append_eq_right] }
  | logical =>
    rw [and_unused_logical]
    exact {
      primary := primaryOpcode_groupRow ..
      extended := extendedOpcode_groupRow ..
      link := rfl
      absolute := rfl
      operands := by
        unfold operands
        rw [bo_groupRow, bi_groupRow, bb_groupRow] }
  | move =>
    rw [and_unused_move]
    exact {
      primary := primaryOpcode_groupRow ..
      extended := extendedOpcode_groupRow ..
      link := rfl
      absolute := rfl
      operands := by
        unfold operands
        rw [bf_eq (groupRow ..), bo_groupRow, bfa_eq (groupRow ..), bi_groupRow,
          BitVec.extractLsb'_append_eq_left, BitVec.extractLsb'_append_eq_left] }

end Format

namespace Assembler

theorem disassemble_of_alike {v w : Word} {r : Rule} (found : Rule.find? w = some r)
    (alike : r.format.Alike v w) : disassemble v = disassemble w := by
  have also : Rule.find? v = some r := (Rule.find?_congr alike.primary alike.extended).trans found
  have mnemonic : Mnemonic.ofWord r v = Mnemonic.ofWord r w := by
    unfold Mnemonic.ofWord
    rw [alike.link, alike.absolute]
  apply String.toList_injective
  rw [disassemble_of_found also, disassemble_of_found found, mnemonic, alike.operands]

theorem disassemble_canonical (w : Word) : disassemble w.canonical = disassemble w := by
  unfold Word.canonical
  cases found : Rule.find? w with
  | none => rfl
  | some r => exact disassemble_of_alike found (r.format.alike_without_unused w)

theorem starts_as_data_iff (w : Word) :
    ".long".toList <+: (disassemble w).toList ↔ (identify w).unrecognized = true := by
  unfold identify
  cases found : Rule.find? w with
  | none =>
    rw [disassemble_of_missing found]
    exact ⟨fun _ => rfl, fun _ => List.prefix_append _ _⟩
  | some r =>
    obtain ⟨c, rest, spelled, letter⟩ :=
      Mnemonic.head_spelling (Mnemonic.ofWord_mem_all (Rule.listed_of_find? found) w)
    have recognized : ((Identification.plain w).classified r.kind).unrecognized = false := by
      cases r.kind <;> rfl
    rw [disassemble_of_found found, spelled]
    constructor
    · intro starts
      exact absurd (List.cons_prefix_cons.mp starts).1.symm letter
    · intro missing
      exact absurd (recognized.symm.trans missing) Bool.false_ne_true

theorem firstToken_disassemble {w : Word} {r : Rule} (found : Rule.find? w = some r) :
    firstToken (disassemble w) = (Mnemonic.ofWord r w).spelling :=
  firstToken_of_shape (disassemble_of_found found)
    (Mnemonic.solid_spelling (Mnemonic.ofWord_mem_all (Rule.listed_of_find? found) w))

/-- The text of a word determines the word up to the bits that its format does not use: the encoders,
applied to what is printed, give that word back. A word is printed as data exactly if no rule accepts
it; otherwise the text starts with the name of the rule and the suffixes for those of the two flags
that the format has and the word sets. -/
theorem disassemble_determines :
    (∀ v w, disassemble v = disassemble w ↔ v.canonical = w.canonical) ∧
    (∀ w, assemble? (disassemble w) = some w.canonical) ∧
    (∀ w, ".long".toList <+: (disassemble w).toList ↔ (identify w).unrecognized = true) ∧
    ∀ w r, Rule.find? w = some r →
      firstToken (disassemble w) = r.mnemonic ++
        (if r.format.links && w.link then "l" else "") ++
        (if r.format.absolutes && w.absolute then "a" else "") := by
  refine ⟨fun v w => ⟨fun same => ?_, fun same => ?_⟩, assemble?_disassemble, starts_as_data_iff,
    fun w r found => firstToken_disassemble found⟩
  -- Reading the text back is a function, so that equal texts come from equal canonical words.
  · have read := assemble?_disassemble v
    rw [same, assemble?_disassemble w] at read
    exact (Option.some.inj read).symm
  · rw [← disassemble_canonical v, same, disassemble_canonical w]

theorem determined_of_absolute_link :
    Rule.find? 0x48032bfb = some (.primary "b" 18 (.branch .iForm none)) ∧
    firstToken (disassemble 0x48032bfb) = "bla" ∧
    disassemble 0x4ce43421 = disassemble 0x4ce41421 ∧
    disassemble 0x48032bfb ≠ disassemble 0x48032bf9 := by
  obtain ⟨same, _, _, first⟩ := disassemble_determines
  have found : Rule.find? 0x48032bfb = some (.primary "b" 18 (.branch .iForm none)) := by decide
  refine ⟨found, first _ _ found, (same _ _).mpr (by decide), fun texts => ?_⟩
  exact absurd ((same _ _).mp texts) (by decide)

end Assembler

end IdentifyBench

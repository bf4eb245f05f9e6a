import IdentifyBench.Proofs.Classification
import Mathlib.Algebra.Order.Group.Unbundled.Int
import Mathlib.Data.List.Find

/-! Encoders and fields undo one another. What an encoder builds carries each operand cut to its field
and is accepted by the rule of its format; and a word that a rule accepts is built again from its own
operands, up to the bits that its format does not use. -/
namespace IdentifyBench

/-- How the operands of an instruction lie in its word. -/
inductive Format
  | unconditional
  | conditional
  | register
  | logical
  | move
  deriving DecidableEq, Repr

def InstructionClass.format : InstructionClass → Format
  | .branch .iForm _ => .unconditional
  | .branch .bForm none => .conditional
  | .branch .bForm (some _) => .register
  | .condition .mcrf => .move
  | .condition _ => .logical

def Rule.format (r : Rule) : Format := r.kind.format

namespace Format

def primary : Format → BitVec 6
  | unconditional => 18
  | conditional => 16
  | register | logical | move => 19

/-- The bits that are neither fixed nor part of an operand. -/
def unused : Format → Word
  | unconditional | conditional => 0
  | register => 0x0000e000
  | logical => 0x00000001
  | move => 0x0063f801

def rebuild (f : Format) (w : Word) : Word :=
  match f with
  | unconditional => .iForm w.liDisplacement w.absolute w.link
  | conditional => .bForm (w.bo.setWidth 32) (w.bi.setWidth 32) w.bdDisplacement w.absolute w.link
  | register =>
    .xlBranch (w.bo.setWidth 32) (w.bi.setWidth 32) (w.bh.setWidth 32)
      (w.extendedOpcode.setWidth 32) w.link
  | logical =>
    .xlLogical (w.bo.setWidth 32) (w.bi.setWidth 32) (w.bb.setWidth 32) (w.extendedOpcode.setWidth 32)
  | move => .moveField (w.bf.setWidth 32) (w.bfa.setWidth 32)

end Format

/-- The word with the bits its format does not use cleared. -/
def Word.canonical (w : Word) : Word :=
  match Rule.find? w with
  | none => w
  | some rule => w &&& ~~~rule.format.unused

namespace Rule

def ofExtended? (n : Nat) : Option Rule :=
  table.find? fun r => r.pattern.primaryOpcode == 19 && r.pattern.extendedOpcode.toNat == n

theorem find?_congr {v w : Word} (primary : v.primaryOpcode = w.primaryOpcode)
    (extended : v.extendedOpcode = w.extendedOpcode) : find? v = find? w := by
  refine List.find?_congr fun r listed => ?_
  rw [Bool.eq_iff_iff, accepts_iff listed, accepts_iff listed, primary, extended]

theorem find?_of_unconditional {w : Word} (primary : w.primaryOpcode = 18) :
    find? w = some (.primary "b" 18 (.branch .iForm none)) := by
  have accepted := (accepts_primary "b" 18 (.branch .iForm none) w).mpr primary
  unfold find? table
  rw [List.find?_cons, accepted]

theorem find?_of_conditional {w : Word} (primary : w.primaryOpcode = 16) :
    find? w = some (.primary "bc" 16 (.branch .bForm none)) := by
  have accepted := (accepts_primary "bc" 16 (.branch .bForm none) w).mpr primary
  have refused : (Rule.primary "b" 18 (.branch .iForm none)).accepts w = false := by
    rw [Bool.eq_false_iff, ne_eq, accepts_primary, primary]
    decide
  unfold find? table
  rw [List.find?_cons, refused, List.find?_cons, accepted]

theorem find?_of_group {w : Word} (primary : w.primaryOpcode = 19) :
    find? w = ofExtended? w.extendedOpcode.toNat := by
  refine List.find?_congr fun r listed => ?_
  rw [Bool.eq_iff_iff, accepts_iff listed, primary, Bool.and_eq_true, beq_iff_eq, beq_iff_eq,
    BitVec.toNat_inj]
  constructor
  · rintro ⟨own, extended⟩
    exact ⟨own.symm, (extended own.symm).symm⟩
  · rintro ⟨own, extended⟩
    exact ⟨own.symm, fun _ => extended.symm⟩

theorem primary_of_find? {r : Rule} {w : Word} (found : find? w = some r) :
    w.primaryOpcode = r.format.primary := by
  have own : ∀ r ∈ table, r.pattern.primaryOpcode = r.format.primary := by decide
  have accepted := (accepts_iff (listed_of_find? found) w).mp (accepts_of_find? found)
  rw [accepted.1, own r (listed_of_find? found)]

theorem extended_of_find? {r : Rule} {w : Word} (found : find? w = some r)
    (grouped : r.format.primary = 19) : w.extendedOpcode = r.pattern.extendedOpcode := by
  have own : ∀ r ∈ table, r.format.primary = 19 → r.pattern.primaryOpcode = 19 := by decide
  have listed := listed_of_find? found
  exact ((accepts_iff listed w).mp (accepts_of_find? found)).2 (own r listed grouped)

theorem extended_of_move {r : Rule} {w : Word} (found : find? w = some r) (moves : r.format = .move) :
    w.extendedOpcode = 0 := by
  have own : ∀ r ∈ table, r.format = .move → r.pattern.extendedOpcode = 0 := by decide
  rw [extended_of_find? found (congrArg Format.primary moves), own r (listed_of_find? found) moves]

end Rule

namespace Word

section Displacements

/-- The only multiple of four in the signed range of the width that agrees with the aligned operand
up to the width. -/
def Reaches (width : Nat) (x d : Int) : Prop :=
  4 ∣ d ∧ -2 ^ (width - 1) ≤ d ∧ d < 2 ^ (width - 1) ∧ d ≡ x - x % 4 [ZMOD 2 ^ width]

theorem quarter_toInt (x : Word) {n : Nat} (fits : n ≤ 30) :
    (2 : Int) ^ n ∣ (x.extractLsb' 2 n).toInt - x.toInt / 4 := by
  have field : (2 : Int) ^ n ∣ (x.extractLsb' 2 n).toInt - ((x.toNat >>> 2 : Nat) : Int) := by
    have remainder := Int.dvd_bmod_sub_self (x := ((x.toNat >>> 2 : Nat) : Int)) (m := 2 ^ n)
    rw [BitVec.toInt_extractLsb']
    exact_mod_cast remainder
  have whole : (2 : Int) ^ n ∣ ((x.toNat >>> 2 : Nat) : Int) - x.toInt / 4 := by
    have bound := x.isLt
    have wraps : ((x.toNat >>> 2 : Nat) : Int) - x.toInt / 4 = 0 ∨
        ((x.toNat >>> 2 : Nat) : Int) - x.toInt / 4 = 2 ^ 30 := by
      rw [Nat.shiftRight_eq_div_pow, BitVec.toInt_eq_toNat_cond]
      split <;> omega
    rcases wraps with same | around
    · rw [same]; exact Int.dvd_zero _
    · rw [around]; exact pow_dvd_pow 2 fits
  have both := Int.dvd_add field whole
  rwa [sub_add_sub_cancel] at both

/-- Whoever reads the field of `n` bits above the two lowest, with two zeros below it, as a signed
number reaches what the operand asked for. -/
theorem reaches_iff (x : Word) {n : Nat} (fits : n ≤ 30) (d : Int) :
    Reaches (n + 2) x.toInt d ↔ d = 4 * (x.extractLsb' 2 n).toInt := by
  have quarter := quarter_toInt x fits
  have below := (x.extractLsb' 2 n).le_two_mul_toInt
  have above := (x.extractLsb' 2 n).two_mul_toInt_lt
  have half : (2 : Int) ^ (n + 2 - 1) = 2 * 2 ^ n := by
    rw [Nat.add_sub_cancel (n + 1) 1, pow_succ, mul_comm]
  have width : (2 : Int) ^ (n + 2) = 4 * 2 ^ n := by rw [pow_add, mul_comm]; rfl
  have aligned : x.toInt - x.toInt % 4 = 4 * (x.toInt / 4) := by omega
  unfold Reaches
  rw [half, width, aligned, Int.modEq_comm, Int.modEq_iff_dvd]
  constructor
  · rintro ⟨⟨e, rfl⟩, low, high, same⟩
    -- Two candidates differ by a multiple of the modulus, and its window is too small for both.
    rw [← mul_sub] at same
    have agrees : (2 : Int) ^ n ∣ e - x.toInt / 4 := Int.dvd_of_mul_dvd_mul_left (by omega) same
    have apart := Int.dvd_sub agrees quarter
    rw [sub_sub_sub_cancel_right] at apart
    have zero := Int.eq_zero_of_abs_lt_dvd apart (abs_lt.mpr ⟨by omega, by omega⟩)
    omega
  · rintro rfl
    refine ⟨Int.dvd_mul_right 4 _, by omega, by omega, ?_⟩
    rw [← mul_sub]
    exact Int.mul_dvd_mul_left 4 quarter

theorem Reaches.self {width : Nat} {x : Int} (aligned : 4 ∣ x) (low : -2 ^ (width - 1) ≤ x)
    (high : x < 2 ^ (width - 1)) : Reaches width x x := by
  refine ⟨aligned, low, high, ?_⟩
  rw [Int.emod_eq_zero_of_dvd aligned, sub_zero]

theorem liDisplacement_toInt (w : Word) : w.liDisplacement.toInt = 4 * w.longBody.toInt := by
  unfold liDisplacement
  rw [BitVec.toInt_signExtend_of_le (by omega), BitVec.toInt_append, longBody]
  simp

theorem bdDisplacement_toInt (w : Word) : w.bdDisplacement.toInt = 4 * w.shortBody.toInt := by
  unfold bdDisplacement
  rw [BitVec.toInt_signExtend_of_le (by omega), BitVec.toInt_append, shortBody]
  simp

theorem extract_signExtend {n : Nat} (fits : n ≤ 30) (y : BitVec n) :
    ((y ++ 0#2).signExtend 32).extractLsb' 2 n = y := by
  ext i inside
  have within : 2 + i < 32 := by omega
  have below : 2 + i < n + 2 := by omega
  have above : ¬2 + i < 2 := by omega
  rw [BitVec.getElem_extractLsb', BitVec.getLsbD_signExtend, if_pos below, BitVec.getLsbD_append,
    if_neg above, Nat.add_sub_cancel_left, BitVec.getLsbD_eq_getElem inside]
  simp [within]

theorem longBody_liDisplacement (w : Word) : longBody w.liDisplacement = w.longBody :=
  extract_signExtend (by omega) w.longBody

theorem shortBody_bdDisplacement (w : Word) : shortBody w.bdDisplacement = w.shortBody :=
  extract_signExtend (by omega) w.shortBody

end Displacements

section Rows

theorem xlBranch_eq_groupRow (bo bi bh extended : Word) (link : Bool) :
    xlBranch bo bi bh extended link = groupRow 19 (bo.setWidth 5) (bi.setWidth 5)
      (0#3 ++ bh.setWidth 2) (extended.setWidth 10) link := by
  apply BitVec.eq_of_toNat_eq
  unfold xlBranch groupRow
  simp only [BitVec.toNat_append, BitVec.toNat_ofNat, Nat.zero_mod, Nat.or_zero, Nat.zero_or,
    Nat.zero_shiftLeft, Nat.shiftLeft_or_distrib, ← Nat.shiftLeft_add]
  rfl

theorem xlLogical_eq_groupRow (bt ba bb extended : Word) :
    xlLogical bt ba bb extended =
      groupRow 19 (bt.setWidth 5) (ba.setWidth 5) (bb.setWidth 5) (extended.setWidth 10) false := rfl

theorem moveField_eq_groupRow (bf bfa : Word) :
    moveField bf bfa =
      groupRow 19 (bf.setWidth 3 ++ 0#2) (bfa.setWidth 3 ++ 0#2) 0#5 0#10 false := by
  have noLink : BitVec.ofBool false = 0#1 := rfl
  apply BitVec.eq_of_toNat_eq
  unfold moveField groupRow
  simp only [noLink, BitVec.toNat_append, BitVec.toNat_ofNat, Nat.zero_mod, Nat.or_zero,
    Nat.shiftLeft_or_distrib, ← Nat.shiftLeft_add]
  rfl

theorem extract_extract (w : Word) (start width low length : Nat) (inside : low + length ≤ width) :
    (w.extractLsb' start width).extractLsb' low length = w.extractLsb' (start + low) length := by
  ext i bound
  have within : low + i < width := by omega
  simp [within, Nat.add_assoc]

theorem bh_eq (w : Word) : w.bh = w.bb.extractLsb' 0 2 :=
  (extract_extract w 11 5 0 2 (by omega)).symm

theorem bf_eq (w : Word) : w.bf = w.bo.extractLsb' 2 3 :=
  (extract_extract w 21 5 2 3 (by omega)).symm

theorem bfa_eq (w : Word) : w.bfa = w.bi.extractLsb' 2 3 :=
  (extract_extract w 16 5 2 3 (by omega)).symm

/-- A mask of whole fields and of the parts that the formats of the group leave in them. -/
theorem and_unused_register (w : Word) :
    w &&& ~~~Format.register.unused =
      groupRow w.primaryOpcode w.bo w.bi (0#3 ++ w.bh) w.extendedOpcode w.link := by
  have mask : ~~~Format.register.unused = groupRow (BitVec.allOnes 6) (BitVec.allOnes 5)
      (BitVec.allOnes 5) 3#5 (BitVec.allOnes 10) true := by decide
  have low : ∀ x : BitVec 5, x &&& 3#5 = 0#3 ++ x.extractLsb' 0 2 := by decide
  conv_lhs => rw [mask, ← groupRow_fields w]
  rw [groupRow_and, low, bh_eq]
  simp only [BitVec.and_allOnes, Bool.and_true]

theorem and_unused_logical (w : Word) :
    w &&& ~~~Format.logical.unused =
      groupRow w.primaryOpcode w.bo w.bi w.bb w.extendedOpcode false := by
  have mask : ~~~Format.logical.unused = groupRow (BitVec.allOnes 6) (BitVec.allOnes 5)
      (BitVec.allOnes 5) (BitVec.allOnes 5) (BitVec.allOnes 10) false := by decide
  conv_lhs => rw [mask, ← groupRow_fields w]
  rw [groupRow_and]
  simp only [BitVec.and_allOnes, Bool.and_false]

theorem and_unused_move (w : Word) :
    w &&& ~~~Format.move.unused =
      groupRow w.primaryOpcode (w.bf ++ 0#2) (w.bfa ++ 0#2) 0#5 w.extendedOpcode false := by
  have mask : ~~~Format.move.unused =
      groupRow (BitVec.allOnes 6) 28#5 28#5 0#5 (BitVec.allOnes 10) false := by decide
  have high : ∀ x : BitVec 5, x &&& 28#5 = x.extractLsb' 2 3 ++ 0#2 := by decide
  conv_lhs => rw [mask, ← groupRow_fields w]
  rw [groupRow_and, high, high, bf_eq, bfa_eq]
  simp only [BitVec.and_allOnes, BitVec.and_zero, Bool.and_false]

end Rows

end Word

/-- The encoder of a rule's format builds a word again from its operands, without the bits that the
format does not use. -/
theorem Rule.rebuild_eq {r : Rule} {w : Word} (found : Rule.find? w = some r) :
    r.format.rebuild w = w &&& ~~~r.format.unused := by
  have primary := Rule.primary_of_find? found
  cases format : r.format with
  | unconditional =>
    rw [format] at primary
    rw [Format.rebuild, Word.iForm_fields _ w primary w.longBody_liDisplacement]
    exact BitVec.and_allOnes.symm
  | conditional =>
    rw [format] at primary
    rw [Format.rebuild, Word.bForm_fields _ w primary w.shortBody_bdDisplacement]
    exact BitVec.and_allOnes.symm
  | register =>
    rw [format] at primary
    rw [Word.and_unused_register, Format.rebuild, Word.xlBranch_eq_groupRow, primary]
    simp only [Word.setWidth_widened (by omega : 5 ≤ 32), Word.setWidth_widened (by omega : 2 ≤ 32),
      Word.setWidth_widened (by omega : 10 ≤ 32)]
    rfl
  | logical =>
    rw [format] at primary
    rw [Word.and_unused_logical, Format.rebuild, Word.xlLogical_eq_groupRow, primary]
    simp only [Word.setWidth_widened (by omega : 5 ≤ 32), Word.setWidth_widened (by omega : 10 ≤ 32)]
    rfl
  | move =>
    rw [format] at primary
    rw [Word.and_unused_move, Format.rebuild, Word.moveField_eq_groupRow, primary,
      Rule.extended_of_move found format]
    simp only [Word.setWidth_widened (by omega : 3 ≤ 32)]
    rfl

theorem Word.and_not_eq_self_iff (w mask : Word) : w &&& ~~~mask = w ↔ w &&& mask = 0 := by
  constructor
  · intro same
    rw [← same, BitVec.and_assoc, BitVec.and_comm (~~~mask), BitVec.and_not_self]
    exact BitVec.and_zero
  · intro clear
    ext i inside
    have bit : (w &&& mask)[i] = false := by
      rw [clear]
      exact BitVec.getElem_zero inside
    rw [BitVec.getElem_and] at bit
    rw [BitVec.getElem_and, BitVec.getElem_not]
    cases set : w[i] with
    | false => rfl
    | true =>
      rw [set, Bool.true_and] at bit
      rw [bit]
      rfl

namespace Word

/-- What an unconditional branch with these operands reads as. -/
structure Unconditional (x : Word) (absolute link : Bool) (w : Word) : Prop where
  primary : w.primaryOpcode = 18
  rule : Rule.find? w = some (.primary "b" 18 (.branch .iForm none))
  absolute : w.absolute = absolute
  link : w.link = link
  displacement : ∀ d, Reaches 26 x.toInt d ↔ d = w.liDisplacement.toInt
  exact : 4 ∣ x.toInt → -2 ^ 25 ≤ x.toInt → x.toInt < 2 ^ 25 → w.liDisplacement = x

structure Conditional (bo bi x : Word) (absolute link : Bool) (w : Word) : Prop where
  primary : w.primaryOpcode = 16
  rule : Rule.find? w = some (.primary "bc" 16 (.branch .bForm none))
  bo : w.bo.toNat = bo.toNat % 32
  bi : w.bi.toNat = bi.toNat % 32
  absolute : w.absolute = absolute
  link : w.link = link
  displacement : ∀ d, Reaches 16 x.toInt d ↔ d = w.bdDisplacement.toInt
  exact : 4 ∣ x.toInt → -2 ^ 15 ≤ x.toInt → x.toInt < 2 ^ 15 → w.bdDisplacement = x

structure ToRegister (bo bi bh extended : Word) (link : Bool) (w : Word) : Prop where
  primary : w.primaryOpcode = 19
  rule : Rule.find? w = Rule.ofExtended? (extended.toNat % 1024)
  bo : w.bo.toNat = bo.toNat % 32
  bi : w.bi.toNat = bi.toNat % 32
  bh : w.bh.toNat = bh.toNat % 4
  extended : w.extendedOpcode.toNat = extended.toNat % 1024
  link : w.link = link

structure Logical (bt ba bb extended : Word) (w : Word) : Prop where
  primary : w.primaryOpcode = 19
  rule : Rule.find? w = Rule.ofExtended? (extended.toNat % 1024)
  bt : w.bo.toNat = bt.toNat % 32
  ba : w.bi.toNat = ba.toNat % 32
  bb : w.bb.toNat = bb.toNat % 32
  extended : w.extendedOpcode.toNat = extended.toNat % 1024

structure Move (bf bfa : Word) (w : Word) : Prop where
  primary : w.primaryOpcode = 19
  rule : Rule.find? w = some (.extended "mcrf" 0 (.condition .mcrf))
  bf : w.bf.toNat = bf.toNat % 8
  bfa : w.bfa.toNat = bfa.toNat % 8
  extended : w.extendedOpcode = 0

theorem unconditional_iForm (x : Word) (absolute link : Bool) :
    Unconditional x absolute link (iForm x absolute link) where
  primary := primaryOpcode_iForm x absolute link
  rule := Rule.find?_of_unconditional (primaryOpcode_iForm x absolute link)
  absolute := absolute_iForm x absolute link
  link := link_iForm x absolute link
  displacement d := by
    rw [liDisplacement_toInt, longBody_iForm]
    exact reaches_iff x (by omega) d
  exact aligned low high := by
    have reached := (reaches_iff x (by omega) x.toInt).mp (Reaches.self aligned low high)
    apply BitVec.eq_of_toInt_eq
    rw [liDisplacement_toInt, longBody_iForm]
    exact reached.symm

theorem conditional_bForm (bo bi x : Word) (absolute link : Bool) :
    Conditional bo bi x absolute link (bForm bo bi x absolute link) where
  primary := primaryOpcode_bForm x absolute link bo bi
  rule := Rule.find?_of_conditional (primaryOpcode_bForm x absolute link bo bi)
  bo := by rw [bo_bForm, BitVec.toNat_setWidth]
  bi := by rw [bi_bForm, BitVec.toNat_setWidth]
  absolute := absolute_bForm x absolute link bo bi
  link := link_bForm x absolute link bo bi
  displacement d := by
    rw [bdDisplacement_toInt, shortBody_bForm]
    exact reaches_iff x (by omega) d
  exact aligned low high := by
    have reached := (reaches_iff x (by omega) x.toInt).mp (Reaches.self aligned low high)
    apply BitVec.eq_of_toInt_eq
    rw [bdDisplacement_toInt, shortBody_bForm]
    exact reached.symm

theorem toRegister_xlBranch (bo bi bh extended : Word) (link : Bool) :
    ToRegister bo bi bh extended link (xlBranch bo bi bh extended link) := by
  rw [xlBranch_eq_groupRow]
  exact {
    primary := by rw [primaryOpcode_groupRow]
    rule := by
      rw [Rule.find?_of_group (by rw [primaryOpcode_groupRow]), extendedOpcode_groupRow,
        BitVec.toNat_setWidth]
    bo := by rw [bo_groupRow, BitVec.toNat_setWidth]
    bi := by rw [bi_groupRow, BitVec.toNat_setWidth]
    bh := by
      rw [bh_eq, bb_groupRow, BitVec.extractLsb'_append_eq_right, BitVec.toNat_setWidth]
    extended := by rw [extendedOpcode_groupRow, BitVec.toNat_setWidth]
    link := by rw [link_groupRow] }

theorem logical_xlLogical (bt ba bb extended : Word) :
    Logical bt ba bb extended (xlLogical bt ba bb extended) := by
  rw [xlLogical_eq_groupRow]
  exact {
    primary := by rw [primaryOpcode_groupRow]
    rule := by
      rw [Rule.find?_of_group (by rw [primaryOpcode_groupRow]), extendedOpcode_groupRow,
        BitVec.toNat_setWidth]
    bt := by rw [bo_groupRow, BitVec.toNat_setWidth]
    ba := by rw [bi_groupRow, BitVec.toNat_setWidth]
    bb := by rw [bb_groupRow, BitVec.toNat_setWidth]
    extended := by rw [extendedOpcode_groupRow, BitVec.toNat_setWidth] }

theorem move_moveField (bf bfa : Word) : Move bf bfa (moveField bf bfa) := by
  rw [moveField_eq_groupRow]
  exact {
    primary := by rw [primaryOpcode_groupRow]
    rule := by
      rw [Rule.find?_of_group (by rw [primaryOpcode_groupRow]), extendedOpcode_groupRow]
      decide
    bf := by
      rw [bf_eq, bo_groupRow, BitVec.extractLsb'_append_eq_left, BitVec.toNat_setWidth]
    bfa := by
      rw [bfa_eq, bi_groupRow, BitVec.extractLsb'_append_eq_left, BitVec.toNat_setWidth]
    extended := by rw [extendedOpcode_groupRow]; rfl }

/-- Every encoder puts its operands, cut to their fields, into a word that the rule of its format
accepts; a displacement comes back as the only aligned number in the reach of its field that agrees
with it. And a word is built again from its own operands: exactly under the primary opcodes of the two
branches with an immediate target, and otherwise up to the bits its format does not use. -/
theorem encoders_invert_fields :
    (∀ x absolute link, Unconditional x absolute link (iForm x absolute link)) ∧
    (∀ bo bi x absolute link, Conditional bo bi x absolute link (bForm bo bi x absolute link)) ∧
    (∀ bo bi bh extended link,
      ToRegister bo bi bh extended link (xlBranch bo bi bh extended link)) ∧
    (∀ bt ba bb extended, Logical bt ba bb extended (xlLogical bt ba bb extended)) ∧
    (∀ bf bfa, Move bf bfa (moveField bf bfa)) ∧
    (∀ w : Word, w.primaryOpcode = 18 → iForm w.liDisplacement w.absolute w.link = w) ∧
    (∀ w : Word, w.primaryOpcode = 16 →
      bForm (w.bo.setWidth 32) (w.bi.setWidth 32) w.bdDisplacement w.absolute w.link = w) ∧
    ∀ w r, Rule.find? w = some r →
      r.format.rebuild w = w &&& ~~~r.format.unused ∧
      (r.format.rebuild w = w ↔ w &&& r.format.unused = 0) := by
  refine ⟨unconditional_iForm, conditional_bForm, toRegister_xlBranch, logical_xlLogical,
    move_moveField, fun w primary => ?_, fun w primary => ?_, fun w r found => ?_⟩
  · exact iForm_fields _ w primary w.longBody_liDisplacement
  · exact bForm_fields _ w primary w.shortBody_bdDisplacement
  · rw [r.rebuild_eq found]
    exact ⟨rfl, w.and_not_eq_self_iff r.format.unused⟩

/-- A branch back by four bytes, and a branch to the count register with a bit set that nobody uses. -/
theorem inverted_of_branch_back :
    (iForm (-4) false true).liDisplacement = -4 ∧
    iForm (liDisplacement 0x4bfffffd) (absolute 0x4bfffffd) (link 0x4bfffffd) = 0x4bfffffd ∧
    bForm ((bo 0x425b2bfa).setWidth 32) ((bi 0x425b2bfa).setWidth 32) (bdDisplacement 0x425b2bfa)
      (absolute 0x425b2bfa) (link 0x425b2bfa) = 0x425b2bfa ∧
    Format.register.rebuild 0x4ce43421 = 0x4ce41421 := by
  obtain ⟨unconditional, _, _, _, _, long, short, rebuilt⟩ := encoders_invert_fields
  refine ⟨(unconditional (-4) false true).exact (by decide) (by decide) (by decide),
    long _ (by decide), short _ (by decide), ?_⟩
  have found : Rule.find? 0x4ce43421 = some (.extended "bcctr" 528 (.branch .bForm (some .ctr))) := by
    decide
  exact (rebuilt 0x4ce43421 _ found).1

end Word

end IdentifyBench

import IdentifyBench.Identification.Rule
import IdentifyBench.Word.Format
import Mathlib.Data.Int.ModEq

/-! Words as rows of fields. A word is the row of its own fields, and a mask keeps or clears whole
fields, so what an encoder builds, what a rule examines and what a mask clears are all read field by
field. -/
namespace IdentifyBench.Word

/-- The layout of the group under primary opcode 19: three operands, extended opcode, link. -/
def groupRow (primary : BitVec 6) (a b c : BitVec 5) (extended : BitVec 10) (link : Bool) : Word :=
  primary ++ a ++ b ++ c ++ extended ++ BitVec.ofBool link

def longBody (w : Word) : BitVec 24 := w.extractLsb' 2 24

def shortBody (w : Word) : BitVec 14 := w.extractLsb' 2 14

theorem slices (w : Word) (start low high : Nat) :
    w.extractLsb' (start + low) high ++ w.extractLsb' start low = w.extractLsb' start (high + low) :=
  BitVec.extractLsb'_append_extractLsb'_eq_extractLsb' rfl

theorem ofBool_getLsbD (w : Word) (i : Nat) : BitVec.ofBool (w.getLsbD i) = w.extractLsb' i 1 := by
  ext j inside
  obtain rfl : j = 0 := by omega
  simp

/-- An operand that was taken from its field goes back whole. -/
theorem setWidth_widened {n : Nat} (fits : n ≤ 32) (x : BitVec n) :
    (x.setWidth 32).setWidth n = x := by
  rw [BitVec.setWidth_setWidth_of_le _ fits, BitVec.setWidth_eq]

section Group

variable (primary : BitVec 6) (a b c : BitVec 5) (extended : BitVec 10) (link : Bool)

@[simp] theorem primaryOpcode_groupRow :
    (groupRow primary a b c extended link).primaryOpcode = primary := by
  unfold primaryOpcode groupRow
  simp (disch := omega) only [BitVec.extractLsb'_append_eq_of_le]
  exact BitVec.extractLsb'_eq_self

@[simp] theorem bo_groupRow : (groupRow primary a b c extended link).bo = a := by
  unfold bo groupRow
  simp (disch := omega) only [BitVec.extractLsb'_append_eq_of_le,
    BitVec.extractLsb'_append_eq_of_add_le]
  exact BitVec.extractLsb'_eq_self

@[simp] theorem bi_groupRow : (groupRow primary a b c extended link).bi = b := by
  unfold bi groupRow
  simp (disch := omega) only [BitVec.extractLsb'_append_eq_of_le,
    BitVec.extractLsb'_append_eq_of_add_le]
  exact BitVec.extractLsb'_eq_self

@[simp] theorem bb_groupRow : (groupRow primary a b c extended link).bb = c := by
  unfold bb groupRow
  simp (disch := omega) only [BitVec.extractLsb'_append_eq_of_le,
    BitVec.extractLsb'_append_eq_of_add_le]
  exact BitVec.extractLsb'_eq_self

@[simp] theorem extendedOpcode_groupRow :
    (groupRow primary a b c extended link).extendedOpcode = extended := by
  unfold extendedOpcode groupRow
  simp (disch := omega) only [BitVec.extractLsb'_append_eq_of_le,
    BitVec.extractLsb'_append_eq_of_add_le]
  exact BitVec.extractLsb'_eq_self

@[simp] theorem link_groupRow : (groupRow primary a b c extended link).link = link := by
  unfold Word.link groupRow
  rw [BitVec.getLsbD_append, if_pos Nat.one_pos]
  simp

end Group

theorem groupRow_fields (w : Word) :
    groupRow w.primaryOpcode w.bo w.bi w.bb w.extendedOpcode w.link = w := by
  have opcodeBo : w.extractLsb' 26 6 ++ w.extractLsb' 21 5 = w.extractLsb' 21 11 := slices w 21 5 6
  have withBi : w.extractLsb' 21 11 ++ w.extractLsb' 16 5 = w.extractLsb' 16 16 := slices w 16 5 11
  have withBb : w.extractLsb' 16 16 ++ w.extractLsb' 11 5 = w.extractLsb' 11 21 := slices w 11 5 16
  have withExtended : w.extractLsb' 11 21 ++ w.extractLsb' 1 10 = w.extractLsb' 1 31 :=
    slices w 1 10 21
  have withLink : w.extractLsb' 1 31 ++ w.extractLsb' 0 1 = w.extractLsb' 0 32 := slices w 0 1 31
  unfold groupRow primaryOpcode bo bi bb extendedOpcode link
  rw [ofBool_getLsbD, opcodeBo, withBi, withBb, withExtended, withLink]
  exact BitVec.extractLsb'_eq_self

theorem groupRow_and (p q : BitVec 6) (a b c a' b' c' : BitVec 5) (x y : BitVec 10) (k l : Bool) :
    groupRow p a b c x k &&& groupRow q a' b' c' y l =
      groupRow (p &&& q) (a &&& a') (b &&& b') (c &&& c') (x &&& y) (k && l) := by
  calc
    _ = (p ++ a ++ b ++ c ++ x &&& q ++ a' ++ b' ++ c' ++ y) ++
        (BitVec.ofBool k &&& BitVec.ofBool l) := BitVec.and_append
    _ = _ := by
      simp only [BitVec.and_append, BitVec.ofBool_and_ofBool]
      rfl

section Immediate

variable (x : Word) (absolute link : Bool)

@[simp] theorem primaryOpcode_iForm : (iForm x absolute link).primaryOpcode = 18 := by
  unfold primaryOpcode iForm
  simp (disch := omega) only [BitVec.extractLsb'_append_eq_of_le]
  exact BitVec.extractLsb'_eq_self

@[simp] theorem longBody_iForm : (iForm x absolute link).longBody = x.longBody := by
  unfold longBody iForm
  simp (disch := omega) only [BitVec.extractLsb'_append_eq_of_le,
    BitVec.extractLsb'_append_eq_of_add_le]
  exact BitVec.extractLsb'_eq_self

@[simp] theorem absolute_iForm : (iForm x absolute link).absolute = absolute := by
  unfold Word.absolute iForm
  rw [BitVec.getLsbD_append, if_neg (Nat.lt_irrefl 1), BitVec.getLsbD_append, if_pos Nat.one_pos]
  simp

@[simp] theorem link_iForm : (iForm x absolute link).link = link := by
  unfold Word.link iForm
  rw [BitVec.getLsbD_append, if_pos Nat.one_pos]
  simp

theorem iForm_fields (w : Word) (primary : w.primaryOpcode = 18) (same : x.longBody = w.longBody) :
    iForm x w.absolute w.link = w := by
  have opcodeBody : w.extractLsb' 26 6 ++ w.extractLsb' 2 24 = w.extractLsb' 2 30 := slices w 2 24 6
  have withAbsolute : w.extractLsb' 2 30 ++ w.extractLsb' 1 1 = w.extractLsb' 1 31 := slices w 1 1 30
  have withLink : w.extractLsb' 1 31 ++ w.extractLsb' 0 1 = w.extractLsb' 0 32 := slices w 0 1 31
  unfold longBody at same
  unfold iForm
  rw [same, show 18#6 = w.extractLsb' 26 6 from primary.symm, Word.absolute, Word.link,
    ofBool_getLsbD, ofBool_getLsbD, opcodeBody, withAbsolute, withLink]
  exact BitVec.extractLsb'_eq_self

variable (bo bi : Word)

@[simp] theorem primaryOpcode_bForm : (bForm bo bi x absolute link).primaryOpcode = 16 := by
  unfold primaryOpcode bForm
  simp (disch := omega) only [BitVec.extractLsb'_append_eq_of_le]
  exact BitVec.extractLsb'_eq_self

@[simp] theorem bo_bForm : (bForm bo bi x absolute link).bo = bo.setWidth 5 := by
  unfold Word.bo bForm
  simp (disch := omega) only [BitVec.extractLsb'_append_eq_of_le,
    BitVec.extractLsb'_append_eq_of_add_le]
  exact BitVec.extractLsb'_eq_self

@[simp] theorem bi_bForm : (bForm bo bi x absolute link).bi = bi.setWidth 5 := by
  unfold Word.bi bForm
  simp (disch := omega) only [BitVec.extractLsb'_append_eq_of_le,
    BitVec.extractLsb'_append_eq_of_add_le]
  exact BitVec.extractLsb'_eq_self

@[simp] theorem shortBody_bForm : (bForm bo bi x absolute link).shortBody = x.shortBody := by
  unfold shortBody bForm
  simp (disch := omega) only [BitVec.extractLsb'_append_eq_of_le,
    BitVec.extractLsb'_append_eq_of_add_le]
  exact BitVec.extractLsb'_eq_self

@[simp] theorem absolute_bForm : (bForm bo bi x absolute link).absolute = absolute := by
  unfold Word.absolute bForm
  rw [BitVec.getLsbD_append, if_neg (Nat.lt_irrefl 1), BitVec.getLsbD_append, if_pos Nat.one_pos]
  simp

@[simp] theorem link_bForm : (bForm bo bi x absolute link).link = link := by
  unfold Word.link bForm
  rw [BitVec.getLsbD_append, if_pos Nat.one_pos]
  simp

theorem bForm_fields (w : Word) (primary : w.primaryOpcode = 16) (same : x.shortBody = w.shortBody) :
    bForm (w.bo.setWidth 32) (w.bi.setWidth 32) x w.absolute w.link = w := by
  have opcodeBo : w.extractLsb' 26 6 ++ w.extractLsb' 21 5 = w.extractLsb' 21 11 := slices w 21 5 6
  have withBi : w.extractLsb' 21 11 ++ w.extractLsb' 16 5 = w.extractLsb' 16 16 := slices w 16 5 11
  have withBody : w.extractLsb' 16 16 ++ w.extractLsb' 2 14 = w.extractLsb' 2 30 := slices w 2 14 16
  have withAbsolute : w.extractLsb' 2 30 ++ w.extractLsb' 1 1 = w.extractLsb' 1 31 := slices w 1 1 30
  have withLink : w.extractLsb' 1 31 ++ w.extractLsb' 0 1 = w.extractLsb' 0 32 := slices w 0 1 31
  unfold shortBody at same
  unfold bForm
  rw [same, show 16#6 = w.extractLsb' 26 6 from primary.symm, Word.absolute, Word.link,
    ofBool_getLsbD, ofBool_getLsbD, setWidth_widened (by omega), setWidth_widened (by omega)]
  unfold Word.bo Word.bi
  rw [opcodeBo, withBi, withBody, withAbsolute, withLink]
  exact BitVec.extractLsb'_eq_self

end Immediate

end IdentifyBench.Word

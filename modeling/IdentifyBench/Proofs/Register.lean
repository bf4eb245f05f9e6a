import IdentifyBench.Proofs.LineSet
import Mathlib.Data.List.Nodup

/-! Line sets are the finite sets of lines, and a register of 32 bits can hold them. Whatever is inserted one
after the other, the register has a bit for each member and nothing above the last line, so that comparing and
masking whole registers compares the members. -/
namespace IdentifyBench

theorem Line.all_in_order : Line.all.Pairwise fun k l => k.index < l.index := by decide

namespace LineSet

theorem ext_iff_mem (s t : LineSet) : s = t ↔ ∀ l, l ∈ s ↔ l ∈ t := by
  constructor
  · rintro rfl l
    rfl
  · intro same
    obtain ⟨a⟩ := s
    obtain ⟨b⟩ := t
    congr 1
    apply BitVec.eq_of_getLsbD_eq
    intro i bound
    obtain ⟨l, placed⟩ := Line.index_surjective ⟨i, bound⟩
    have agree := same l
    simp only [mem_def, contains, placed] at agree
    exact Bool.eq_iff_iff.mpr agree

/-! ### Members one by one -/

@[simp] theorem mem_toList (s : LineSet) (l : Line) : l ∈ s.toList ↔ l ∈ s := by
  simp [toList, mem_def, Line.mem_all]

theorem toList_in_order (s : LineSet) : s.toList.Pairwise fun k l => k.index < l.index :=
  Line.all_in_order.filter _

theorem nodup_toList (s : LineSet) : s.toList.Nodup := by
  apply s.toList_in_order.imp
  rintro k l earlier rfl
  exact Nat.lt_irrefl _ earlier

theorem count_toList (s : LineSet) (l : Line) : s.toList.count l = if l ∈ s then 1 else 0 := by
  simp [s.nodup_toList.count]

theorem ofList_toList (s : LineSet) : ofList s.toList = s := by
  simp [ext_iff_mem]

/-! ### Registers -/

def bit (l : Line) : BitVec 32 := 1#32 <<< (l.index : Nat)

def raised (lines : List Line) : BitVec 32 := lines.foldl (fun register l => register ||| bit l) 0

/-- A register holds a set if it has the bits of the members and no others. -/
structure Holds (register : BitVec 32) (s : LineSet) : Prop where
  lines : ∀ l : Line, register.getLsbD l.index = s.contains l
  above : ∀ i, 25 ≤ i → register.getLsbD i = false

theorem widened_inj {a b : BitVec 25} : a.setWidth 32 = b.setWidth 32 ↔ a = b := by
  have widen : 25 ≤ 32 := by decide
  rw [BitVec.toNat_eq, BitVec.toNat_setWidth_of_le widen, BitVec.toNat_setWidth_of_le widen,
    ← BitVec.toNat_eq]

theorem getLsbD_bit (l : Line) (i : Nat) : (bit l).getLsbD i = decide ((l.index : Nat) = i) := by
  have inside : (l.index : Nat) < 32 := Nat.lt_trans l.index.isLt (by decide)
  rw [bit, ← BitVec.twoPow_eq, BitVec.getLsbD_twoPow, decide_eq_true inside, Bool.true_and]

theorem holds_empty : Holds 0 empty where
  lines l := by simp [empty, contains]
  above i _ := by simp

theorem Holds.insert {register : BitVec 32} {s : LineSet} (holds : Holds register s) (k : Line) :
    Holds (register ||| bit k) (s.insert k) where
  lines l := by
    have grown := mem_insert s k l
    rw [mem_def, mem_def] at grown
    rw [BitVec.getLsbD_or, getLsbD_bit, holds.lines, Bool.eq_iff_iff, grown]
    simp [Line.index_inj]
  above i beyond := by
    have apart : (k.index : Nat) ≠ i := Nat.ne_of_lt (Nat.lt_of_lt_of_le k.index.isLt beyond)
    simp [getLsbD_bit, holds.above i beyond, apart]

theorem Holds.foldl {register : BitVec 32} {s : LineSet} (holds : Holds register s)
    (lines : List Line) :
    Holds (lines.foldl (fun register l => register ||| bit l) register) (lines.foldl LineSet.insert s) := by
  induction lines generalizing register s with
  | nil => exact holds
  | cons l rest ih => exact ih (holds.insert l)

theorem holds_raised (lines : List Line) : Holds (raised lines) (ofList lines) :=
  holds_empty.foldl lines

section

variable {r q : BitVec 32} {s t : LineSet} (held : Holds r s) (other : Holds q t)

include held

theorem Holds.register_eq : r = s.bits.setWidth 32 := by
  apply BitVec.eq_of_getLsbD_eq
  intro i bound
  by_cases low : i < 25
  · obtain ⟨l, placed⟩ := Line.index_surjective ⟨i, low⟩
    have same := held.lines l
    rw [contains, placed] at same
    simpa [bound] using same
  · have unset := held.above i (by omega)
    simp [unset, BitVec.getLsbD_of_ge s.bits i (by omega)]

theorem Holds.contains_eq (l : Line) : s.contains l = (r &&& bit l != 0) := by
  have raised : bit l ≠ 0 := by
    intro zero
    have own := getLsbD_bit l l.index
    simp [zero] at own
  rw [← held.lines, bit, ← BitVec.twoPow_eq, BitVec.and_twoPow, BitVec.twoPow_eq]
  cases r.getLsbD l.index
  · rfl
  · exact (bne_iff_ne.mpr raised).symm

theorem Holds.isEmpty_eq : s.isEmpty = (r == 0) := by
  rw [Bool.eq_iff_iff, isEmpty, beq_iff_eq, beq_iff_eq, held.register_eq, ← widened_inj]
  simp

include other

theorem Holds.beq_eq : (s == t) = (r == q) := by
  obtain ⟨a⟩ := s
  obtain ⟨b⟩ := t
  rw [Bool.eq_iff_iff, beq_iff_eq, beq_iff_eq, held.register_eq, other.register_eq, widened_inj,
    LineSet.mk.injEq]

theorem Holds.intersects_eq : s.intersects t = (r &&& q != 0) := by
  rw [Bool.eq_iff_iff, intersects, bne_iff_ne, bne_iff_ne, held.register_eq, other.register_eq,
    ← BitVec.setWidth_and, Ne, Ne, ← widened_inj]
  simp

end

/-- What is listed and inserted is in a set and nothing else; sets are the same, empty or meet as their members
say; and the members come one by one in the order of the trace, from which the set is built again. Registers in
which the same bits are raised give the same answers. -/
theorem finite_sets_of_lines :
    (∀ (listed inserted : List Line) (l : Line),
      l ∈ inserted.foldl insert (ofList listed) ↔ l ∈ listed ∨ l ∈ inserted) ∧
    (∀ s t : LineSet, (s == t) = true ↔ ∀ l, l ∈ s ↔ l ∈ t) ∧
    (∀ s : LineSet, s.isEmpty = true ↔ ∀ l, l ∉ s) ∧
    (∀ s t : LineSet, s.intersects t = true ↔ ∃ l, l ∈ s ∧ l ∈ t) ∧
    (∀ s : LineSet, (∀ l, s.toList.count l = if l ∈ s then 1 else 0) ∧
      s.toList.Sublist Line.all ∧ s.toList.Pairwise (fun k l => k.index < l.index) ∧
      ofList s.toList = s) ∧
    ∀ lines others : List Line,
      (ofList lines == ofList others) = (raised lines == raised others) ∧
      (ofList lines).isEmpty = (raised lines == 0) ∧
      (ofList lines).intersects (ofList others) = (raised lines &&& raised others != 0) ∧
      ∀ l, (ofList lines).contains l = (raised lines &&& bit l != 0) := by
  refine ⟨fun listed inserted l => ?_, fun s t => ?_, isEmpty_iff, intersects_iff, fun s => ?_,
    fun lines others => ?_⟩
  · rw [mem_foldl_insert, mem_ofList]
  · rw [beq_iff_eq, ext_iff_mem]
  · exact ⟨s.count_toList, List.filter_sublist, s.toList_in_order, s.ofList_toList⟩
  · have held := holds_raised lines
    have other := holds_raised others
    exact ⟨held.beq_eq other, held.isEmpty_eq, held.intersects_eq other, held.contains_eq⟩

example : (ofList [.prefixed, .clock, .prefixed]).toList = [.clock, .prefixed] := by decide

end LineSet

end IdentifyBench

import IdentifyBench.Line.Set
import Mathlib.Tactic.ByContra

/-! Line sets by their members. Every bit of a set is the bit of exactly one line, so that two sets
meet, or one is empty, just as the lists of their members say. -/
namespace IdentifyBench

theorem Line.index_injective {k l : Line} (same : k.index = l.index) : k = l := by
  have place := congrArg Fin.val same
  simp only [Line.index] at place
  cases k <;> cases l <;> first | rfl | cases place

theorem Line.index_inj {k l : Line} : (k.index : Nat) = l.index ↔ k = l :=
  ⟨fun same => Line.index_injective (Fin.ext same), fun same => same ▸ rfl⟩

theorem Line.index_surjective (i : Fin 25) : ∃ l : Line, l.index = i := by
  revert i
  have covered : ∀ i : Fin 25, ∃ l ∈ Line.all, l.index = i := by decide
  intro i
  obtain ⟨l, _, placed⟩ := covered i
  exact ⟨l, placed⟩

namespace LineSet

theorem mem_def (s : LineSet) (l : Line) : l ∈ s ↔ s.contains l = true := Iff.rfl

@[simp] theorem not_mem_empty (l : Line) : l ∉ empty := by
  simp [mem_def, empty, contains]

@[simp] theorem mem_insert (s : LineSet) (k l : Line) : l ∈ s.insert k ↔ l ∈ s ∨ k = l := by
  simp [mem_def, insert, contains, Line.index_inj, eq_comm (a := k)]

theorem mem_foldl_insert (lines : List Line) (s : LineSet) (l : Line) :
    l ∈ lines.foldl insert s ↔ l ∈ s ∨ l ∈ lines := by
  induction lines generalizing s with
  | nil => simp
  | cons k rest ih =>
    rw [List.foldl_cons, ih, mem_insert, List.mem_cons, or_assoc, eq_comm (a := k)]

@[simp] theorem mem_ofList (lines : List Line) (l : Line) : l ∈ ofList lines ↔ l ∈ lines := by
  simp [ofList, mem_foldl_insert]

theorem bits_ne_zero_iff (x : BitVec 25) : x ≠ 0 ↔ ∃ l : Line, x.getLsbD l.index = true := by
  constructor
  · intro nonzero
    by_contra absent
    apply nonzero
    apply BitVec.eq_of_getLsbD_eq
    intro i bound
    obtain ⟨l, placed⟩ := Line.index_surjective ⟨i, bound⟩
    have low : x.getLsbD l.index ≠ true := fun high => absent ⟨l, high⟩
    rw [placed] at low
    simpa using low
  · rintro ⟨l, high⟩ rfl
    simp at high

theorem isEmpty_iff (s : LineSet) : s.isEmpty = true ↔ ∀ l, l ∉ s := by
  have nonzero := bits_ne_zero_iff s.bits
  simp only [isEmpty, beq_iff_eq, mem_def, contains]
  constructor
  · intro zero l high
    exact nonzero.mpr ⟨l, high⟩ zero
  · intro absent
    by_contra h
    obtain ⟨l, high⟩ := nonzero.mp h
    exact absent l high

theorem intersects_iff (s t : LineSet) : s.intersects t = true ↔ ∃ l, l ∈ s ∧ l ∈ t := by
  simp only [intersects, bne_iff_ne, bits_ne_zero_iff, mem_def, contains, BitVec.getLsbD_and,
    Bool.and_eq_true]

end LineSet

end IdentifyBench

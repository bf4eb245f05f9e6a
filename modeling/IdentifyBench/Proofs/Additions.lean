import IdentifyBench.Proofs.Dump
import IdentifyBench.Proofs.LineSet
import IdentifyBench.Waveform
import Mathlib.Data.List.Nodup

/-! What a sample adds to the dump of a waveform, as items of the dump: the levels that differ from
those told last, under a stamp where the time has moved on. -/
namespace IdentifyBench

def Level.number : Level → Nat
  | .bit high => high.toNat
  | .vector value => value.toNat

namespace Waveform

open Dump

def item (l : Line) : Level → Item
  | .bit high => .scalar high (code l)
  | .vector value => .vector value.toNat (code l)

@[simp] theorem stamp?_item (l : Line) (level : Level) : (item l level).stamp? = none := by
  cases level <;> rfl

@[simp] theorem change?_item (l : Line) (level : Level) :
    (item l level).change? = some (code l, level.number) := by
  cases level <;> rfl

theorem code_solid (l : Line) : Solid (code l).toList := by
  cases l <;> decide

theorem codes_distinct : (Line.all.map code).Nodup := by decide

theorem code_injective {k l : Line} (same : code k = code l) : k = l :=
  List.inj_on_of_nodup_map codes_distinct k.mem_all l.mem_all same

def changeItems (w : Waveform) (b : Bus) : List Item :=
  (w.changed b).map fun l => item l (levelOf b l)

def additions (w : Waveform) (t : Instant) (b : Bus) : List Item :=
  match w.time with
  | none => .stamp t :: .opened :: w.changeItems b ++ [.closed]
  | some last =>
    if last = t ∨ w.changed b = [] then w.changeItems b else .stamp t :: w.changeItems b

theorem toList_stamp (t : Instant) :
    (stamp t).flatMap String.toList = line (Item.stamp t).parts := by
  simp [stamp, line, Item.parts]

theorem toList_change (l : Line) (level : Level) :
    (change l level).flatMap String.toList = line (item l level).parts := by
  cases level with
  | bit high => cases high <;> simp [change, line, Item.parts, item, Digits.bit]
  | vector value => simp [change, line, Item.parts, item, Digits.binary]

theorem toList_entries (w : Waveform) (t : Instant) (b : Bus) :
    ((w.entries t b).flatMap Entry.pieces).flatMap String.toList =
      (w.additions t b).flatMap (line ·.parts) := by
  have changes (lines : List Line) :
      ((lines.map fun l => Entry.mk (some l) (change l (levelOf b l))).flatMap Entry.pieces).flatMap
          String.toList =
        (lines.map fun l => item l (levelOf b l)).flatMap (line ·.parts) := by
    simp only [List.flatMap_assoc, List.flatMap_map, toList_change]
  unfold entries additions changeItems
  cases w.time with
  | none =>
    simp only [List.cons_append, List.flatMap_cons, List.flatMap_append, List.flatMap_nil,
      List.append_assoc, changes, toList_stamp]
    rfl
  | some last =>
    by_cases same : last = t
    · simp only [same, if_pos, true_or]
      exact changes _
    · cases moved : w.changed b with
      | nil => simp [same]
      | cons l rest =>
        simp only [same, if_false, false_or, reduceCtorEq, List.map_cons, List.flatMap_cons,
          List.flatMap_append, List.append_assoc, toList_stamp, toList_change, changes]

theorem entries_isEmpty (w : Waveform) (t : Instant) (b : Bus) :
    (w.entries t b).isEmpty = true ↔ w.additions t b = [] := by
  unfold entries additions changeItems
  cases w.time with
  | none => simp
  | some last =>
    by_cases same : last = t
    · simp [same]
    · cases w.changed b <;> simp [same]

theorem lines_entries (w : Waveform) (t : Instant) (b : Bus) :
    (w.entries t b).filterMap Entry.line = w.changed b := by
  have changes (lines : List Line) :
      (lines.map fun l => Entry.mk (some l) (change l (levelOf b l))).filterMap Entry.line =
        lines := by
    induction lines with
    | nil => rfl
    | cons l rest ih => simp [ih]
  unfold entries
  cases w.time with
  | none =>
    simp only [List.cons_append, List.filterMap_cons_none, List.filterMap_append, List.filterMap_nil,
      List.append_nil, changes]
  | some last =>
    by_cases same : last = t
    · simp only [same, if_pos]
      exact changes _
    · cases moved : w.changed b with
      | nil => simp [same]
      | cons l rest =>
        simp only [same, if_false, List.map_cons]
        rw [List.filterMap_cons_some (f := Entry.line) (b := l) rfl, changes]

theorem mem_changed {w : Waveform} {b : Bus} {l : Line} :
    l ∈ w.changed b ↔ w.last.get l ≠ some (levelOf b l) := by
  unfold changed
  rw [List.mem_filter, and_iff_right l.mem_all, bne_iff_ne]

def opening (t : Instant) (b : Bus) : List Item :=
  .stamp t :: .opened :: (Line.all.map fun l => item l (levelOf b l)) ++ [.closed]

section Additions

variable (w : Waveform) (t : Instant) (b : Bus)

def moved : List (String × Nat) := (w.changed b).map fun l => (code l, (levelOf b l).number)

theorem additions_cases :
    (w.time = none ∧ w.additions t b = .stamp t :: .opened :: w.changeItems b ++ [.closed]) ∨
    (w.time = some t ∧ w.additions t b = w.changeItems b) ∨
    (w.time ≠ none ∧ w.changed b = [] ∧ w.additions t b = []) ∨
    ∃ last, w.time = some last ∧ last ≠ t ∧ w.changed b ≠ [] ∧
      w.additions t b = .stamp t :: w.changeItems b := by
  unfold additions
  cases w.time with
  | none => exact .inl ⟨rfl, rfl⟩
  | some last =>
    by_cases same : last = t
    · exact .inr (.inl ⟨congrArg some same, if_pos (.inl same)⟩)
    · by_cases still : w.changed b = []
      · refine .inr (.inr (.inl ⟨Option.some_ne_none last, still, ?_⟩))
        simp [changeItems, still]
      · exact .inr (.inr (.inr ⟨last, rfl, same, still, if_neg (not_or.mpr ⟨same, still⟩)⟩))

theorem changeItems_unstamped : ∀ i ∈ w.changeItems b, i.stamp? = none := by
  intro i listed
  obtain ⟨l, _, rfl⟩ := List.mem_map.mp listed
  exact stamp?_item l _

theorem opened_unstamped : ∀ i ∈ .opened :: w.changeItems b ++ [.closed], i.stamp? = none := by
  intro i listed
  rcases List.mem_append.mp listed with early | final
  · rcases List.mem_cons.mp early with rfl | change
    · rfl
    · exact w.changeItems_unstamped b i change
  · rw [List.mem_singleton.mp final]
    rfl

theorem filterMap_changeItems : (w.changeItems b).filterMap Item.change? = w.moved b := by
  unfold changeItems moved
  rw [List.filterMap_map, ← List.filterMap_eq_map]
  exact List.filterMap_congr fun l _ => change?_item l _

theorem filterMap_additions : (w.additions t b).filterMap Item.change? = w.moved b := by
  obtain ⟨_, added⟩ | ⟨_, added⟩ | ⟨_, still, added⟩ | ⟨_, _, _, _, added⟩ := w.additions_cases t b
  · rw [added, List.filterMap_append, List.filterMap_cons_none rfl, List.filterMap_cons_none rfl,
      filterMap_changeItems]
    exact List.append_nil _
  · rw [added, filterMap_changeItems]
  · rw [added, moved, still]
    rfl
  · rw [added, List.filterMap_cons_none rfl, filterMap_changeItems]

/-- What a sample adds counts from its time. Without a stamp of its own it counts from the one before,
which is of the same time then. -/
theorem changes_additions (q : Instant) {due : Bool}
    (stamped : w.time = some t → due = decide (t ≤ q)) :
    changes q due (w.additions t b) = if t ≤ q then w.moved b else [] := by
  rw [← w.filterMap_additions t b]
  obtain ⟨_, added⟩ | ⟨same, added⟩ | ⟨_, _, added⟩ | ⟨_, _, _, _, added⟩ := w.additions_cases t b
  · rw [added]
    exact changes_stamp q t due (w.opened_unstamped b)
  · rw [added, changes_of_unstamped q due (w.changeItems_unstamped b), stamped same]
    simp only [decide_eq_true_eq]
  · rw [added, List.filterMap_nil, ite_self]
    rfl
  · rw [added, changes_stamp q t due (w.changeItems_unstamped b)]

theorem additions_coded : ∀ i ∈ w.additions t b, i.Coded := by
  intro i listed change changes
  have told : change ∈ w.moved b := by
    rw [← w.filterMap_additions t b]
    exact List.mem_filterMap.mpr ⟨i, listed, changes⟩
  obtain ⟨l, _, rfl⟩ := List.mem_map.mp told
  exact code_solid l

theorem stamps_additions :
    (w.time ≠ some t ∧ w.additions t b ≠ [] ∧ stamps (w.additions t b) = [t]) ∨
    (w.time = some t ∧ stamps (w.additions t b) = []) ∨
    (w.time ≠ none ∧ w.additions t b = []) := by
  have alone {items : List Item} (unstamped : ∀ i ∈ items, i.stamp? = none) :
      stamps (.stamp t :: items) = [t] := by
    rw [stamps, List.filterMap_cons_some (f := Item.stamp?) (b := t) rfl,
      List.filterMap_eq_nil_iff.mpr unstamped]
  obtain ⟨fresh, added⟩ | ⟨same, added⟩ | ⟨timed, _, added⟩ | ⟨last, timed, differs, _, added⟩ :=
    w.additions_cases t b
  · refine .inl ⟨by simp [fresh], by simp [added], ?_⟩
    rw [added]
    exact alone (w.opened_unstamped b)
  · exact .inr (.inl ⟨same, added ▸ List.filterMap_eq_nil_iff.mpr (w.changeItems_unstamped b)⟩)
  · exact .inr (.inr ⟨timed, added⟩)
  · refine .inl ⟨by simp [timed, differs], by simp [added], ?_⟩
    rw [added]
    exact alone (w.changeItems_unstamped b)

theorem stamped_additions (timed : w.time ≠ none) : Stamped (w.additions t b) := by
  have changes := stamped_of_unstamped (w.changeItems_unstamped b)
  obtain ⟨fresh, _⟩ | ⟨_, added⟩ | ⟨_, _, added⟩ | ⟨_, _, _, moves, added⟩ := w.additions_cases t b
  · exact absurd fresh timed
  · exact added ▸ changes
  · exact added ▸ trivial
  · rw [added]
    refine ⟨fun _ => ?_, changes⟩
    obtain ⟨l, rest, changed⟩ := List.exists_cons_of_ne_nil moves
    simp [changeItems, changed]

theorem additions_of_fresh (fresh : ∀ l, w.last.get l = none) (untimed : w.time = none) :
    w.additions t b = opening t b := by
  have all : w.changed b = Line.all := by
    refine List.filter_eq_self.mpr fun l _ => ?_
    rw [fresh l]
    rfl
  unfold additions changeItems
  rw [untimed, all]
  rfl

theorem latest_moved (l : Line) :
    latest (code l) (w.moved b) =
      if l ∈ w.changed b then some (levelOf b l).number else none := by
  unfold moved
  -- Codes tell lines apart, so that only the change of the line itself counts under its code.
  induction w.changed b with
  | nil => rfl
  | cons k lines ih =>
    have own : latest (code l) [(code k, (levelOf b k).number)] =
        if l = k then some (levelOf b l).number else none := by
      by_cases same : l = k
      · subst same
        simp [latest]
      · have apart : code k ≠ code l := fun codes => same (code_injective codes).symm
        simp [latest, apart, same]
    rw [List.map_cons, ← List.singleton_append, latest_append, ih, own]
    by_cases later : l ∈ lines
    · simp [later]
    · simp [later]

end Additions

end Waveform

end IdentifyBench

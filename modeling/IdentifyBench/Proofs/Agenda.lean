import IdentifyBench.Agenda

/-! The agenda by process: the times at which a process is due, soonest first. -/
namespace IdentifyBench.Agenda

def times (a : Agenda) (p : Process) : List Instant :=
  (a.filter (·.process = p)).map (·.time)

/-- No wake-up is later than one behind it. -/
def Ordered (a : Agenda) : Prop := a.Pairwise (·.time ≤ ·.time)

def Soonest (a : Agenda) (w : Wakeup) : Prop := w ∈ a ∧ ∀ v ∈ a, w.time ≤ v.time

@[simp] theorem times_nil (p : Process) : times [] p = [] := rfl

theorem times_cons_self (w : Wakeup) (a : Agenda) :
    times (w :: a) w.process = w.time :: times a w.process := by
  simp [times]

theorem times_cons_of_ne {w : Wakeup} {p : Process} (other : w.process ≠ p) (a : Agenda) :
    times (w :: a) p = times a p := by
  simp [times, other]

theorem length_eq_times (a : Agenda) :
    a.length = (a.times .clock).length + (a.times .stimulus).length := by
  induction a with
  | nil => rfl
  | cons w rest ih =>
    obtain ⟨t, process⟩ := w
    cases process with
    | clock =>
      rw [times_cons_self ⟨t, .clock⟩, times_cons_of_ne (p := .stimulus) (by simp), List.length_cons,
        List.length_cons, ih, Nat.add_right_comm]
    | stimulus =>
      rw [times_cons_self ⟨t, .stimulus⟩, times_cons_of_ne (p := .clock) (by simp), List.length_cons,
        List.length_cons, ih, Nat.add_assoc]

theorem mem_add {a : Agenda} {w v : Wakeup} : v ∈ a.add w ↔ v = w ∨ v ∈ a := by
  induction a with
  | nil => simp [add]
  | cons u rest ih =>
    unfold add
    split
    · rw [List.mem_cons, ih, List.mem_cons]
      exact or_left_comm
    · simp

theorem times_add_of_ne {w : Wakeup} {p : Process} (other : w.process ≠ p) (a : Agenda) :
    (a.add w).times p = a.times p := by
  induction a with
  | nil => exact times_cons_of_ne other []
  | cons u rest ih =>
    unfold add
    split
    · by_cases same : u.process = p
      · subst same
        rw [times_cons_self, times_cons_self, ih]
      · rw [times_cons_of_ne same, times_cons_of_ne same, ih]
    · exact times_cons_of_ne other _

theorem times_add_of_nil {a : Agenda} {w : Wakeup} (absent : a.times w.process = []) :
    (a.add w).times w.process = [w.time] := by
  induction a with
  | nil => rw [add, times_cons_self, times_nil]
  | cons u rest ih =>
    have different : u.process ≠ w.process := by
      intro same
      rw [← same, times_cons_self] at absent
      cases absent
    rw [times_cons_of_ne different] at absent
    unfold add
    split
    · rw [times_cons_of_ne different, ih absent]
    · rw [times_cons_self, times_cons_of_ne different, absent]

theorem ordered_add {a : Agenda} (ordered : a.Ordered) (w : Wakeup) : (a.add w).Ordered := by
  induction a with
  | nil => exact List.pairwise_singleton _ _
  | cons u rest ih =>
    obtain ⟨first, others⟩ := List.pairwise_cons.mp ordered
    unfold add
    split
    · rename_i sooner
      refine List.pairwise_cons.mpr ⟨?_, ih others⟩
      intro v inside
      rcases mem_add.mp inside with rfl | old
      · exact sooner
      · exact first v old
    · rename_i later
      have sooner : w.time ≤ u.time := Nat.le_of_not_le later
      refine List.pairwise_cons.mpr ⟨?_, ordered⟩
      intro v inside
      rcases List.mem_cons.mp inside with rfl | old
      · exact sooner
      · exact Nat.le_trans sooner (first v old)

theorem times_erase_of_ne {w : Wakeup} {p : Process} (other : w.process ≠ p) (a : Agenda) :
    times (a.erase w) p = a.times p := by
  induction a with
  | nil => rfl
  | cons u rest ih =>
    by_cases same : u = w
    · rw [same, List.erase_cons_head, times_cons_of_ne other]
    · rw [List.erase_cons_tail (by simpa using same)]
      by_cases mine : u.process = p
      · subst mine
        rw [times_cons_self, times_cons_self, ih]
      · rw [times_cons_of_ne mine, times_cons_of_ne mine, ih]

theorem times_erase_self (a : Agenda) (w : Wakeup) :
    times (a.erase w) w.process = (a.times w.process).erase w.time := by
  induction a with
  | nil => rfl
  | cons u rest ih =>
    by_cases same : u = w
    · rw [same, List.erase_cons_head, times_cons_self, List.erase_cons_head]
    · rw [List.erase_cons_tail (by simpa using same)]
      by_cases mine : u.process = w.process
      · have other : u.time ≠ w.time := fun when => same (by cases u; cases w; simp_all)
        rw [← mine] at ih ⊢
        rw [times_cons_self, times_cons_self, List.erase_cons_tail (by simpa using other), ih]
      · rw [times_cons_of_ne mine, times_cons_of_ne mine, ih]

theorem ordered_erase {a : Agenda} (ordered : a.Ordered) (w : Wakeup) : Ordered (a.erase w) :=
  List.Pairwise.sublist List.erase_sublist ordered

theorem soonest_first {first : Wakeup} {rest : Agenda} (ordered : Ordered (first :: rest)) :
    Soonest (first :: rest) first := by
  refine ⟨List.mem_cons_self, fun v inside => ?_⟩
  rcases List.mem_cons.mp inside with rfl | later
  · exact Nat.le_refl _
  · exact (List.pairwise_cons.mp ordered).1 v later

theorem mem_times {a : Agenda} {p : Process} {t : Instant} :
    t ∈ a.times p ↔ (⟨t, p⟩ : Wakeup) ∈ a := by
  simp only [times, List.mem_map, List.mem_filter, decide_eq_true_eq]
  constructor
  · rintro ⟨w, ⟨inside, rfl⟩, rfl⟩
    exact inside
  · intro inside
    exact ⟨_, ⟨inside, rfl⟩, rfl⟩

theorem first_le {first : Wakeup} {rest : Agenda} (ordered : Ordered (first :: rest)) {p : Process}
    {t : Instant} (due : t ∈ times (first :: rest) p) : first.time ≤ t :=
  (soonest_first ordered).2 _ (mem_times.mp due)

end IdentifyBench.Agenda

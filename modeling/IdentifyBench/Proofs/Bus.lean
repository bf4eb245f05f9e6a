import IdentifyBench.Bench
import IdentifyBench.Proofs.LineSet

/-! Wires and lines under writes and commits. A wire is known by two values: its level, and the
level it will have after the next commit. A write changes only the second, a commit only the
first. -/
namespace IdentifyBench

namespace Wire

variable {α : Type}

/-- The level after the next commit. -/
def next (w : Wire α) : α := w.pending.getD w.level

@[simp] theorem next_write (w : Wire α) (value : α) : (w.write value).next = value := rfl

@[simp] theorem level_write (w : Wire α) (value : α) : (w.write value).level = w.level := rfl

@[simp] theorem level_commit (w : Wire α) : w.commit.level = w.next := rfl

@[simp] theorem next_commit (w : Wire α) : w.commit.next = w.next := rfl

@[simp] theorem pending_commit (w : Wire α) : w.commit.pending = none := rfl

theorem next_of_pending_none {w : Wire α} (quiet : w.pending = none) : w.next = w.level := by
  simp [next, quiet]

theorem commit_of_pending_none {w : Wire α} (quiet : w.pending = none) : w.commit = w := by
  cases w
  simp_all [commit, holding]

theorem moves_iff [DecidableEq α] (w : Wire α) : w.moves = true ↔ w.next ≠ w.level := by
  cases w with
  | mk level pending => cases pending <;> simp [moves, next]

end Wire

namespace Bus

def next (b : Bus) (l : Line) : l.Value := (b.get l).next

def Quiet (b : Bus) : Prop := ∀ l, (b.get l).pending = none

def nextInputs (b : Bus) : StageInputs where
  word := b.word.next
  control := ⟨b.reset.next, b.enable.next, b.arbiterFull.next⟩

theorem get_write_self (b : Bus) (l : Line) (value : l.Value) :
    (b.write l value).get l = (b.get l).write value :=
  LineTable.get_set_self _ _ _

theorem get_write_of_ne (b : Bus) {l k : Line} (value : l.Value) (other : l ≠ k) :
    (b.write l value).get k = b.get k :=
  LineTable.get_set_of_ne _ _ other

@[simp] theorem level_write (b : Bus) (l k : Line) (value : l.Value) :
    (b.write l value).level k = b.level k := by
  by_cases same : l = k
  · subst same
    simp [level, get_write_self]
  · simp [level, get_write_of_ne b value same]

@[simp] theorem get_commit (b : Bus) (l : Line) : b.commit.1.get l = (b.get l).commit :=
  LineTable.get_map _ _ _

@[simp] theorem level_commit (b : Bus) (l : Line) : b.commit.1.level l = b.next l := by
  simp [level, next]

@[simp] theorem next_commit (b : Bus) (l : Line) : b.commit.1.next l = b.next l := by
  simp [next]

theorem commit_quiet (b : Bus) : b.commit.1.Quiet := fun l => by simp

theorem Quiet.commit_eq {b : Bus} (quiet : b.Quiet) : b.commit.1 = b :=
  LineTable.ext_get fun l => by rw [get_commit, Wire.commit_of_pending_none (quiet l)]

theorem Quiet.next_eq {b : Bus} (quiet : b.Quiet) (l : Line) : b.next l = b.level l :=
  Wire.next_of_pending_none (quiet l)

theorem mem_moved (b : Bus) (l : Line) : l ∈ b.commit.2 ↔ b.next l ≠ b.level l := by
  simp [commit, Line.mem_all, Wire.moves_iff, next, level]

theorem Quiet.not_mem_moved {b : Bus} (quiet : b.Quiet) (l : Line) : l ∉ b.commit.2 := by
  rw [mem_moved, quiet.next_eq]
  simp

theorem level_commit_of_not_mem {b : Bus} {l : Line} (still : l ∉ b.commit.2) :
    b.commit.1.level l = b.level l := by
  rw [level_commit]
  by_contra moved
  exact still ((mem_moved b l).mpr moved)

theorem inputs_eq_of_levels {b d : Bus} (same : ∀ l ∈ Bench.stageInputs, d.level l = b.level l) :
    d.inputs = b.inputs := by
  have word : d.word.level = b.word.level := same .word (by decide)
  have reset : d.reset.level = b.reset.level := same .reset (by decide)
  have enable : d.enable.level = b.enable.level := same .enable (by decide)
  have full : d.arbiterFull.level = b.arbiterFull.level := same .arbiterFull (by decide)
  simp [inputs, word, reset, enable, full]

@[simp] theorem inputs_commit (b : Bus) : b.commit.1.inputs = b.nextInputs := rfl

theorem Quiet.nextInputs_eq {b : Bus} (quiet : b.Quiet) : b.nextInputs = b.inputs := by
  rw [← inputs_commit, quiet.commit_eq]

theorem nextInputs_write_word (b : Bus) (word : Word) :
    (b.write .word word).nextInputs = ⟨word, b.nextInputs.control⟩ := rfl

theorem nextInputs_write_reset (b : Bus) (high : Bool) :
    (b.write .reset high).nextInputs =
      ⟨b.nextInputs.word, { b.nextInputs.control with reset := high }⟩ := rfl

theorem nextInputs_write_enable (b : Bus) (high : Bool) :
    (b.write .enable high).nextInputs =
      ⟨b.nextInputs.word, { b.nextInputs.control with enable := high }⟩ := rfl

theorem nextInputs_write_arbiterFull (b : Bus) (high : Bool) :
    (b.write .arbiterFull high).nextInputs =
      ⟨b.nextInputs.word, { b.nextInputs.control with arbiterFull := high }⟩ := rfl

@[simp] theorem level_drive (b : Bus) (o : StageOutputs) (l : Line) :
    (b.drive o).level l = b.level l := by
  simp only [level, drive, LineTable.get_map]
  split <;> rfl

theorem get_drive_of_input (b : Bus) (o : StageOutputs) {l : Line} (input : o.on l = none) :
    (b.drive o).get l = b.get l := by
  simp [drive, input]

theorem next_drive (b : Bus) {o : StageOutputs} {l : Line} {value : l.Value}
    (driven : o.on l = some value) : (b.drive o).next l = value := by
  simp [next, drive, driven]

def Carries (b : Bus) (o : StageOutputs) : Prop := ∀ l value, o.on l = some value → b.level l = value

/-- The lines carry these outputs once what is pending is committed. -/
def Promises (b : Bus) (o : StageOutputs) : Prop := ∀ l value, o.on l = some value → b.next l = value

theorem promises_drive (b : Bus) (o : StageOutputs) : (b.drive o).Promises o :=
  fun _ _ driven => next_drive b driven

theorem Promises.commit {b : Bus} {o : StageOutputs} (promised : b.Promises o) :
    b.commit.1.Carries o := fun l value driven => by
  rw [level_commit]
  exact promised l value driven

theorem Promises.carries {b : Bus} {o : StageOutputs} (promised : b.Promises o) (quiet : b.Quiet) :
    b.Carries o := by
  rw [← quiet.commit_eq]
  exact promised.commit

end Bus

theorem StageOutputs.on_eq_none_iff (o : StageOutputs) (l : Line) :
    o.on l = none ↔ l ∈ Bench.stageInputs := by
  rw [Bench.stageInputs, LineSet.mem_ofList]
  cases l <;> simp [on]

end IdentifyBench

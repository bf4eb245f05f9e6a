import IdentifyBench.Proofs.FixedPoint
import Mathlib.Data.List.Destutter

/-! The stage over a whole history of inputs. What it answers is found by a search back through the
history, for the last inputs that reset or enabled it; everything before those and every word it did not
look at is forgotten. So it makes no difference whether the stage is evaluated on inputs it has just
answered, and the bench may leave such evaluations out. -/
namespace IdentifyBench

/-- The inputs settle what the stage holds, whatever it held before. -/
def StageInputs.decides (i : StageInputs) : Bool := i.control.reset || i.control.enable

namespace Stage

def through (s : Stage) (history : List StageInputs) : Stage :=
  history.foldl (fun s i => (s.evaluate i).1) s

def answers : Stage → List StageInputs → List StageOutputs
  | _, [] => []
  | s, i :: rest => (s.evaluate i).2 :: answers (s.evaluate i).1 rest

/-- What the last deciding inputs of a history stand for. -/
def decided (history : List StageInputs) : Identification :=
  match history.reverse.find? (·.decides) with
  | none => .neutral
  | some i => if i.control.reset then .neutral else identify i.word

def answered (history : List StageInputs) : List (StageInputs × StageOutputs) :=
  history.zip (new.answers history)

/-- The stage is told the same by both inputs. The words may differ where it does not look at them. -/
structure Alike (i i' : StageInputs) : Prop where
  control : i'.control = i.control
  word : i.control.reset = false → i.control.enable = true → i'.word = i.word

theorem through_append (s : Stage) (history : List StageInputs) (i : StageInputs) :
    s.through (history ++ [i]) = ((s.through history).evaluate i).1 := by
  rw [through, List.foldl_append]
  rfl

theorem decided_append (history : List StageInputs) (i : StageInputs) :
    decided (history ++ [i]) =
      if i.control.reset then .neutral
      else if i.control.enable then identify i.word
      else decided history := by
  unfold decided
  rw [List.reverse_append, List.reverse_singleton, List.singleton_append, List.find?_cons]
  cases reset : i.control.reset <;> cases enable : i.control.enable <;>
    simp [StageInputs.decides, reset, enable]

/-- One more evaluation replaces what is held, or leaves it, just as the search back does. -/
theorem through_new (history : List StageInputs) :
    new.through history = ⟨decided history, history.length⟩ := by
  induction history using List.reverseRecOn with
  | nil => rfl
  | append_singleton history i ih =>
    rw [through_append, ih, decided_append, List.length_append]
    rfl

theorem getElem?_answers (s : Stage) (history : List StageInputs) (k : Nat) :
    (s.answers history)[k]? =
      history[k]?.map fun i => ((s.through (history.take k)).evaluate i).2 := by
  induction history generalizing s k with
  | nil => rfl
  | cons i rest ih =>
    cases k with
    | zero => rfl
    | succ k =>
      rw [answers, List.getElem?_cons_succ, ih, List.getElem?_cons_succ, List.take_succ_cons]
      rfl

theorem answers_congr {s s' : Stage} (same : s'.held = s.held) (history : List StageInputs) :
    s'.answers history = s.answers history := by
  induction history generalizing s s' with
  | nil => rfl
  | cons i rest ih =>
    have held : s'.hold i = s.hold i := by
      unfold hold
      rw [same]
    rw [answers, answers, ih (s := (s.evaluate i).1) held]
    unfold evaluate
    rw [held]

theorem answers_of_alike (s : Stage) {history history' : List StageInputs}
    (alike : List.Forall₂ Alike history history') : s.answers history' = s.answers history := by
  induction alike generalizing s with
  | nil => rfl
  | @cons i i' rest rest' alike _ ih =>
    obtain ⟨control, word⟩ := alike
    have held : s.hold i' = s.hold i := by
      unfold hold
      rw [control]
      cases reset : i.control.reset <;> cases enable : i.control.enable <;>
        simp [reset, enable, word]
    have same : s.evaluate i' = s.evaluate i := by
      unfold evaluate
      rw [held, control]
    rw [answers, answers, same, ih]

/-- A stage that has just answered some inputs answers the same to them again, so that the repetitions in
what follows may go. -/
theorem answered_destutter {s : Stage} {i : StageInputs} (settled : s.hold i = s.held) (o : StageOutputs)
    (rest : List StageInputs) :
    ∃ tail, rest.destutter' (· ≠ ·) i = i :: tail ∧
      (rest.zip (s.answers rest)).destutter' (·.1 ≠ ·.1) (i, o) =
        (i, o) :: tail.zip (s.answers tail) := by
  induction rest generalizing s i o with
  | nil => exact ⟨[], rfl, rfl⟩
  | cons j rest ih =>
    by_cases same : i = j
    · subst same
      obtain ⟨tail, shortened, answered⟩ := ih (s := (s.evaluate i).1) (s.hold_hold i _) o
      refine ⟨tail, ?_, ?_⟩
      · rw [List.destutter'_cons_neg _ (by simp), shortened]
      · rw [answers, List.zip_cons_cons, List.destutter'_cons_neg _ (by simp), answered,
          answers_congr (s := s) settled]
    · obtain ⟨tail, shortened, answered⟩ := ih (s := (s.evaluate j).1) (s.hold_hold j _) (s.evaluate j).2
      refine ⟨j :: tail, ?_, ?_⟩
      · rw [List.destutter'_cons_pos _ same, shortened]
      · rw [answers, List.zip_cons_cons, List.destutter'_cons_pos _ same, answered, answers,
          List.zip_cons_cons]

/-- The history of the inputs alone decides what the stage answers and holds: of all inputs so far the last
ones that reset or enabled the stage, which stand for nothing or for their word. The stall is that of the
latest inputs. So evaluations on inputs that are those just before can be left out, and the other answers
stay as they are, and no answer depends on a word that came in reset or to a disabled stage. -/
theorem history_decides (history : List StageInputs) :
    (∀ k i, history[k]? = some i →
      let d := decided (history.take (k + 1))
      (new.answers history)[k]? = some ⟨d, i.control.arbiterFull && !i.control.reset⟩ ∧
        (new.through (history.take (k + 1))).held = d ∧
        (new.through (history.take (k + 1))).evaluations = k + 1) ∧
    answered (history.destutter (· ≠ ·)) = (answered history).destutter (·.1 ≠ ·.1) ∧
    ∀ history', List.Forall₂ Alike history history' → new.answers history' = new.answers history := by
  refine ⟨?_, ?_, fun history' alike => new.answers_of_alike alike⟩
  · intro k i present d
    have taken : history.take (k + 1) = history.take k ++ [i] := by
      rw [List.take_add_one, present]
      rfl
    have size : (history.take (k + 1)).length = k + 1 := by
      have below := (List.getElem?_eq_some_iff.mp present).1
      exact List.length_take_of_le below
    have after : new.through (history.take (k + 1)) = ⟨d, k + 1⟩ := by
      rw [through_new, size]
    refine ⟨?_, congrArg held after, congrArg evaluations after⟩
    have holds : (new.through (history.take k)).hold i = d := by
      have evaluated := through_append new (history.take k) i
      rw [← taken, after] at evaluated
      exact (congrArg held evaluated).symm
    rw [getElem?_answers, present, Option.map_some, evaluate, holds, Bool.and_comm]
  · cases history with
    | nil => rfl
    | cons i rest =>
      obtain ⟨tail, shortened, rest_answered⟩ :=
        answered_destutter (s := (new.evaluate i).1) (new.hold_hold i _) (new.evaluate i).2 rest
      rw [answered, answered, answers, List.zip_cons_cons, List.destutter_cons', List.destutter_cons',
        rest_answered, shortened, answers, List.zip_cons_cons]

/-- The stage holds a branch while it is disabled, whatever the word, and forgets it in reset. -/
theorem decides_of_held_branch :
    ∃ history : List StageInputs, history =
        [.running 0x48000000, ⟨7, ⟨false, false, true⟩⟩, ⟨7, ⟨false, false, true⟩⟩,
          ⟨7, ⟨true, true, true⟩⟩, ⟨0x48000000, ⟨false, false, true⟩⟩] ∧
      (new.answers history)[2]? = some ⟨identify 0x48000000, true⟩ ∧
      (new.answers history)[3]? = some ⟨.neutral, false⟩ ∧
      (new.answers history)[4]? = some ⟨.neutral, true⟩ ∧
      (new.through history).evaluations = 5 ∧
      (answered history).destutter (·.1 ≠ ·.1) = answered (history.eraseIdx 2) ∧
      new.answers (history.set 1 ⟨9, ⟨false, false, true⟩⟩) = new.answers history := by
  obtain ⟨history, same⟩ : ∃ history : List StageInputs, history =
      [.running 0x48000000, ⟨7, ⟨false, false, true⟩⟩, ⟨7, ⟨false, false, true⟩⟩,
        ⟨7, ⟨true, true, true⟩⟩, ⟨0x48000000, ⟨false, false, true⟩⟩] := ⟨_, rfl⟩
  obtain ⟨law, shortened, unseen⟩ := history_decides history
  have shorter : history.destutter (· ≠ ·) = history.eraseIdx 2 := by
    rw [same]
    rfl
  refine ⟨history, same, ?_, ?_, ?_, ?_, ?_, unseen _ ?_⟩
  · rw [(law 2 ⟨7, ⟨false, false, true⟩⟩ (by rw [same]; rfl)).1, same]
    rfl
  · rw [(law 3 ⟨7, ⟨true, true, true⟩⟩ (by rw [same]; rfl)).1, same]
    rfl
  · rw [(law 4 ⟨0x48000000, ⟨false, false, true⟩⟩ (by rw [same]; rfl)).1, same]
    rfl
  · have evaluations := (law 4 ⟨0x48000000, ⟨false, false, true⟩⟩ (by rw [same]; rfl)).2.2
    rw [List.take_of_length_le (by rw [same]; simp)] at evaluations
    exact evaluations
  · rw [← shortened, shorter]
  · rw [same]
    exact .cons ⟨rfl, fun _ _ => rfl⟩ (.cons ⟨rfl, nofun⟩ (.cons ⟨rfl, fun _ _ => rfl⟩
      (.cons ⟨rfl, fun _ _ => rfl⟩ (.cons ⟨rfl, fun _ _ => rfl⟩ .nil))))

end Stage

end IdentifyBench

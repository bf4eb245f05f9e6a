import IdentifyBench.Proofs.Keeping
import IdentifyBench.Proofs.Settling
import IdentifyBench.Proofs.Stepping
import IdentifyBench.Proofs.Waking

/-! What a bench has told, beside the bench. A property of both that each operation of a step keeps holds
after every step that returns, and after a run. Where an operation fails the property may be lost, so
that a second one says what is left of it. -/
namespace IdentifyBench

namespace Turn

variable {β α γ : Type} {P : List Event → β → Prop} {H : List Event → β → Halt → Prop}
  {told : List Event}

/-- After what was told before, the turn leaves the first property, or it halts with the second. -/
def Leaves (t : Turn β α) (P : List Event → β → Prop) (H : List Event → β → Halt → Prop)
    (told : List Event) : Prop :=
  t.Ends (fun b more _ => P (told ++ more) b) fun b more halt => H (told ++ more) b halt

theorem leaves_done {b : β} {more : List Event} (kept : P (told ++ more) b) :
    (done b more).Leaves P H told := kept

theorem leaves_stay {b : β} (kept : P told b) (x : α) : (⟨b, [], .ok x⟩ : Turn β α).Leaves P H told := by
  change P (told ++ []) b
  rw [List.append_nil]
  exact kept

theorem leaves_of_state {t : Turn β α} (kept : P (told ++ t.events) t.state) :
    t.Leaves P (fun told b _ => P told b) told := by
  unfold Leaves Ends
  split <;> exact kept

theorem Leaves.state {t : Turn β α} (leaves : t.Leaves P (fun told b _ => P told b) told) :
    P (told ++ t.events) t.state := by
  unfold Leaves Ends at leaves
  split at leaves <;> exact leaves

theorem Leaves.andThen {t : Turn β α} {next : β → α → Turn β γ} (first : t.Leaves P H told)
    (second : ∀ {told : List Event} (b : β) (x : α), P told b → (next b x).Leaves P H told) :
    (t.andThen next).Leaves P H told := by
  refine (andThen_ends t next).mpr (first.mono (fun b more x kept => ?_) fun _ _ _ => id)
  refine (second b x kept).mono (fun c rest y kept => ?_) fun c rest halt halted => ?_
  · rw [← List.append_assoc]
    exact kept
  · rw [← List.append_assoc]
    exact halted

end Turn

namespace Bench

variable {σ : Type} [WordSource σ]

/-- Each operation of a step keeps the first property. Where the stimulus fails the second one holds, and
it follows from the first where anything else breaks the run off. -/
structure Telling (P : List Event → Bench σ → Prop) (H : List Event → Bench σ → Halt → Prop) : Prop where
  replan : ∀ {told : List Event} {b : Bench σ} (agenda : Agenda) (started : Bool), P told b →
    P told { b with agenda, started }
  toggle : ∀ {told : List Event} {b : Bench σ}, P told b → P told b.toggleClock
  resume : ∀ {told : List Event} {b : Bench σ}, P told b → b.resumeStimulus.Leaves P H told
  commit : ∀ {told : List Event} {b : Bench σ}, P told b → P told b.commit
  respond : ∀ {told : List Event} {b : Bench σ} (moved : LineSet), P told b →
    P (told ++ (b.respond moved).2) (b.respond moved).1
  rise : ∀ {told : List Event} {b : Bench σ} (awaitingEdge : Bool), P told b →
    P told { b with tally.clockCycles := b.tally.clockCycles + 1, awaitingEdge }
  rest : ∀ {told : List Event} {b : Bench σ} (round : Nat) (due : Bool), P told b →
    P (told ++ (b.rest round due).events) (b.rest round due).state
  finish : ∀ {told : List Event} {b : Bench σ}, P told b → P told { b with tally.simTime := b.now }
  breaks : ∀ {told : List Event} {b : Bench σ} {halt : Halt}, P told b →
    (∀ issued expected, halt ≠ .failure (.exhausted issued expected)) → H told b halt

namespace Telling

variable {P : List Event → Bench σ → Prop} {H : List Event → Bench σ → Halt → Prop} {told : List Event}
  {b : Bench σ} (telling : Telling P H) (kept : P told b)

include telling kept

theorem start : P told b.start := by
  unfold Bench.start
  split
  · exact kept
  · exact telling.replan _ true kept

theorem halts {α : Type} {halt : Halt} (other : ∀ issued expected, halt ≠ .failure (.exhausted issued expected)) :
    (⟨b, [], .error halt⟩ : Turn (Bench σ) α).Leaves P H told := by
  change H (told ++ []) b halt
  rw [List.append_nil]
  exact telling.breaks kept other

theorem wake (p : Process) : (b.wake p).Leaves P H told := by
  cases p with
  | clock => exact Turn.leaves_stay (telling.toggle kept) ()
  | stimulus => exact telling.resume kept

theorem drain (left : Nat) : (Bench.drain left b).Leaves P H told := by
  induction left generalizing told b with
  | zero =>
    unfold Bench.drain
    split
    · exact Turn.leaves_stay kept ()
    · split
      · exact telling.halts kept nofun
      · exact Turn.leaves_stay kept ()
  | succ left ih =>
    unfold Bench.drain
    split
    · exact Turn.leaves_stay kept ()
    · rename_i first rest _
      split
      · exact (telling.wake (telling.replan rest b.started kept) first.process).andThen
          fun _ _ woken => ih woken
      · exact Turn.leaves_stay kept ()

theorem passEdge (moved : LineSet) : (b.passEdge moved).Leaves P H told := by
  unfold Bench.passEdge
  dsimp only
  split
  · split
    · exact telling.resume (telling.rise false kept)
    · exact Turn.leaves_stay (telling.rise b.awaitingEdge kept) ()
  · exact Turn.leaves_stay kept ()

theorem settle (left round : Nat) (due : Bool) : (Bench.settle left round due b).Leaves P H told := by
  induction left generalizing told round due b with
  | zero => exact telling.halts kept nofun
  | succ left ih =>
    have committed := telling.commit kept
    rw [settle_succ]
    split
    · exact (Turn.ends_iff_of_ok (b.commit.rest_result round due)).mpr (telling.rest round due committed)
    · have responded : (Turn.done _ _).Leaves P H told := Turn.leaves_done (telling.respond b.moved committed)
      exact (responded.andThen fun _ _ kept => telling.passEdge kept b.moved).andThen
        fun _ _ reacted => ih reacted _ _

theorem conclude : b.conclude.Leaves P H told := by
  exact (telling.settle kept _ _ _).andThen fun _ _ settled => Turn.leaves_stay (telling.finish settled) _

/-- What the operations keep, a step keeps, as long as it holds on arrival at the next instant too. -/
theorem step (arrives : b.Simulates → P told b.start → P told b.arrive) : b.step.Leaves P H told := by
  cases going : b.stopped with
  | true =>
    rw [Bench.step, stepWithin_of_stopped going]
    exact Turn.leaves_stay kept _
  | false =>
    have started := telling.start kept
    rcases stepWithin_cases going with ⟨_, step⟩ | ⟨first, rest, _, _, _, _, step⟩ | simulates
    · rw [Bench.step, step]
      refine telling.halts started ?_
      rintro _ _ ⟨⟩
    · rw [Bench.step, step]
      refine telling.halts (telling.replan rest b.start.started started) ?_
      rintro _ _ ⟨⟩
    · rw [Bench.step, stepWithin_of_simulates simulates]
      exact (telling.drain (arrives simulates started) _).andThen
        fun _ _ drained => telling.conclude drained

end Telling

end Bench

end IdentifyBench

import IdentifyBench.Bench.Recording
import IdentifyBench.Proofs.Turn

/-! Steps one after the other. A recording follows its bench: it makes the same steps, and returns
an outcome only where the bench does. -/
namespace IdentifyBench

/-- Words without any delay between them, on the fastest clock. -/
def Settings.immediate (cycles : UInt64) : Settings where
  general := {
    maxTime := none, maxDeltaRounds := 3, logObservations := false, keepObservations := true }
  clock := { period := 2 }
  stimulus := {
    reset := 0, settle := 0, fetchDelay := 0, cycles, arbiterFullEvery := 0, source := .fixed [] }
  trace := { enabled := false, path := "" }

/-- The bench after so many steps, whether or not they succeeded. -/
def Bench.after {σ : Type} [WordSource σ] (b : Bench σ) : Nat → Bench σ
  | 0 => b
  | n + 1 => (b.after n).step.state

def Bench.told {σ : Type} [WordSource σ] (b : Bench σ) : Nat → List Event
  | 0 => []
  | n + 1 => b.told n ++ (b.after n).step.events

theorem Bench.after_succ {σ : Type} [WordSource σ] (b : Bench σ) (n : Nat) :
    b.after (n + 1) = b.step.state.after n := by
  induction n with
  | zero => rfl
  | succ n ih => rw [after, ih, after]

theorem Bench.after_of_stopped {σ : Type} [WordSource σ] {b : Bench σ} {n : Nat}
    (stopped : (b.after n).stopped = true) {k : Nat} (later : n ≤ k) : b.after k = b.after n := by
  induction later with
  | refl => rfl
  | step _ ih =>
    rw [after, ih, step, stepWithin, if_pos stopped]

theorem Bench.told_succ {σ : Type} [WordSource σ] (b : Bench σ) (n : Nat) :
    b.told (n + 1) = b.step.events ++ b.step.state.told n := by
  induction n with
  | zero => simp [told, after]
  | succ n ih => rw [told, ih, List.append_assoc, after_succ, told]

namespace Recording

variable {σ κ : Type}

def fresh (s : Settings) (source : σ) (waveform : Option Waveform) (out : κ) : Recording σ κ :=
  ⟨.new s source, waveform, out⟩

variable [Sink κ]

theorem sample_bench (r : Recording σ κ) : r.sample.1.bench = r.bench := by
  unfold sample
  split <;> rfl

theorem finish_bench (r : Recording σ κ) : r.finish.1.bench = r.bench := by
  unfold finish
  split
  · split <;> rfl
  · rfl

def follow (r : Recording σ κ) (turn : Turn (Bench σ) Outcome) : Turn (Recording σ κ) Outcome :=
  let simulated := { r with bench := turn.state }
  let failed (r : Recording σ κ) (fault : StorageFault) : Turn (Recording σ κ) Outcome :=
    ⟨r, turn.events, .error (.failure (.traceWrite r.bench.now fault))⟩
  if r.bench.stopped || !turn.result.isOk then ⟨simulated, turn.events, turn.result⟩
  else
    match simulated.sample with
    | (sampled, some fault) => failed sampled fault
    | (sampled, none) =>
      match sampled.finish with
      | (finished, some fault) => failed finished fault
      | (finished, none) => ⟨finished, turn.events, turn.result⟩

theorem follow_bench (r : Recording σ κ) (turn : Turn (Bench σ) Outcome) :
    (r.follow turn).state.bench = turn.state := by
  have sampled := sample_bench { r with bench := turn.state }
  have finished := finish_bench (sample { r with bench := turn.state }).1
  unfold follow
  dsimp only
  split
  · rfl
  · split
    · rename_i fault sampling
      rw [sampling] at sampled
      exact sampled
    · rename_i sampling
      rw [sampling] at sampled finished
      split
      · rename_i finishing
        rw [finishing] at finished
        exact finished.trans sampled
      · rename_i finishing
        rw [finishing] at finished
        exact finished.trans sampled

theorem result_of_follow_ok {r : Recording σ κ} {turn : Turn (Bench σ) Outcome} {outcome : Outcome}
    (returns : (r.follow turn).result = .ok outcome) : turn.result = .ok outcome := by
  unfold follow at returns
  dsimp only at returns
  split at returns
  · exact returns
  · split at returns
    · cases returns
    · split at returns
      · cases returns
      · exact returns

variable [WordSource σ]

def after (r : Recording σ κ) : Nat → Recording σ κ
  | 0 => r
  | n + 1 => (r.after n).step.state

theorem step_eq_follow (r : Recording σ κ) : r.step = r.follow r.bench.step := rfl

theorem step_bench (r : Recording σ κ) : r.step.state.bench = r.bench.step.state :=
  follow_bench r r.bench.step

theorem after_bench (r : Recording σ κ) (n : Nat) : (r.after n).bench = r.bench.after n := by
  induction n with
  | zero => rfl
  | succ n ih => rw [after, step_bench, ih, Bench.after]

theorem bench_result_of_step_ok {r : Recording σ κ} {outcome : Outcome}
    (returns : r.step.result = .ok outcome) : r.bench.step.result = .ok outcome :=
  result_of_follow_ok returns

theorem step_events (r : Recording σ κ) : r.step.events = r.bench.step.events := by
  unfold step
  dsimp only
  split
  · rfl
  · split
    · rfl
    · split <;> rfl

theorem after_succ (r : Recording σ κ) (n : Nat) : r.after (n + 1) = r.step.state.after n := by
  induction n with
  | zero => rfl
  | succ n ih => rw [after, ih, after]

/-- The step after the first `k` is one that the run goes on from. -/
def GoesOn (r : Recording σ κ) (k : Nat) : Prop :=
  ∃ t, (r.after k).step.result = .ok (.advanced t)

theorem steps_of_goesOn {r : Recording σ κ} (going : r.GoesOn 0) (left : Nat)
    (events : Array Event) :
    steps (left + 1) r events = steps left r.step.state (events ++ r.step.events.toArray) := by
  obtain ⟨t, returned⟩ := going
  have returned : r.step.result = .ok (.advanced t) := returned
  rw [steps, returned]

theorem steps_of_ended {r : Recording σ κ} (ended : ¬r.GoesOn 0) (left : Nat) (events : Array Event) :
    steps (left + 1) r events =
      ⟨r.step.state, events.toList ++ r.step.events, r.step.result.map fun _ => ()⟩ := by
  have gathered : (events ++ r.step.events.toArray).toList = events.toList ++ r.step.events := by simp
  rw [steps, gathered]
  cases returned : r.step.result with
  | error halt => rfl
  | ok outcome =>
    cases outcome with
    | advanced t => exact absurd ⟨t, returned⟩ ended
    | stopped t => rfl

theorem steps_eq {r : Recording σ κ} {k left : Nat} (going : ∀ j < k, r.GoesOn j)
    (ended : ¬r.GoesOn k) (enough : k < left) (events : Array Event) :
    steps left r events =
      ⟨r.after (k + 1), events.toList ++ r.bench.told (k + 1),
        (r.after k).step.result.map fun _ => ()⟩ := by
  induction k generalizing r left events with
  | zero =>
    obtain ⟨left, rfl⟩ := Nat.exists_eq_add_of_lt enough
    rw [steps_of_ended ended, step_events]
    rfl
  | succ k ih =>
    obtain ⟨left, rfl⟩ := Nat.exists_eq_add_of_lt enough
    have later (j : Nat) : r.GoesOn (j + 1) ↔ r.step.state.GoesOn j := by
      rw [GoesOn, after_succ, GoesOn]
    have rest := @ih r.step.state (k + 1 + left)
      (fun j below => (later j).mp (going (j + 1) (Nat.succ_lt_succ below)))
      (fun more => ended ((later k).mpr more)) (by omega) (events ++ r.step.events.toArray)
    rw [steps_of_goesOn (going 0 (Nat.succ_pos k)), rest, r.bench.told_succ (k + 1),
      r.after_succ (k + 1), r.after_succ k, step_bench, step_events]
    simp

section

variable {r : Recording σ κ} {k : Nat} (going : ∀ j < k, r.GoesOn j) (ended : ¬r.GoesOn k)
  (enough : k < maxSteps)

include going ended enough

theorem run_state : r.run.state = r.after (k + 1) := by
  rw [run, steps_eq going ended enough]
  unfold Turn.andThen
  cases (r.after k).step.result <;> rfl

theorem run_result :
    r.run.result = (r.after k).step.result.map fun _ => (r.after (k + 1)).bench.tally := by
  rw [run, steps_eq going ended enough]
  unfold Turn.andThen
  cases (r.after k).step.result <;> rfl

end

end Recording

end IdentifyBench

import IdentifyBench.Proofs.Commits
import IdentifyBench.Proofs.Pulse
import IdentifyBench.Proofs.Telling

/-! The counters of the parts. A part and the tally count the same things in different places, and a
step may break off between any two operations. So what is kept is looked at operation by operation: a
property that each of them keeps, whether or not it succeeds, holds after every step. -/
namespace IdentifyBench

open WordSource

namespace WordSource

variable {σ : Type} [WordSource σ]

theorem take_succ_eq (source : σ) (n : Nat) : take (n + 1) source = take n source ++ [word? source n] := by
  rw [take_eq_map, take_eq_map, List.range_succ, List.map_append]
  rfl

/-- A source that keeps its answers has kept these. -/
theorem kept_drop {log : σ → List (Option Word)} {source : σ} (start : log source = [])
    (keeps : ∀ g, log (next g).2 = log g ++ [(next g).1]) (n : Nat) :
    log (drop source n) = take n source := by
  induction n with
  | zero => exact start
  | succ n ih =>
    rw [take_succ_eq, ← ih]
    exact keeps (drop source n)

end WordSource

namespace Stimulus

variable {σ : Type} [WordSource σ]

/-- What the stimulus has counted as issued is the number of words among the answers of its source, and
it asks for no more of them than it may. -/
structure Accounts (source : σ) (cycles : Nat) (s : Stimulus σ) : Prop where
  asked : s.cycles = cycles
  drawn : ∃ n, s.source = drop source n ∧ s.issued = (take n source).countP (·.isSome)
  count : s.issued ≤ cycles
  more : s.phase = .awaitFetch ∨ s.phase = .present → s.issued < cycles

variable {s : Stimulus σ} {source : σ} {cycles : Nat}

theorem accounts_new (s : StimulusSettings) (source : σ) :
    (new s source).Accounts source s.cycles.toNat :=
  ⟨rfl, ⟨0, rfl, rfl⟩, Nat.zero_le _, by rintro (impossible | impossible) <;> cases impossible⟩

theorem accounts_nextCycle (asked : s.cycles = cycles)
    (drawn : ∃ n, s.source = drop source n ∧ s.issued = (take n source).countP (·.isSome))
    (count : s.issued ≤ cycles) : s.nextCycle.1.Accounts source cycles := by
  unfold nextCycle
  split
  · exact ⟨asked, drawn, count, by rintro (impossible | impossible) <;> cases impossible⟩
  · rename_i more
    exact ⟨asked, drawn, count, fun _ => asked ▸ Nat.lt_of_not_le more⟩

/-- A source that has run dry is asked in vain, and nothing is counted. -/
theorem Accounts.resume (accounts : s.Accounts source cycles) (now : Instant) (b : Bus) :
    (s.resume now b).stimulus.Accounts source cycles := by
  unfold Stimulus.resume
  cases phase : s.phase with
  | enable => exact accounts_nextCycle accounts.asked accounts.drawn accounts.count
  | present =>
    obtain ⟨n, left, counted⟩ := accounts.drawn
    have more := accounts.more (.inr phase)
    have answers := take_succ_eq source n
    dsimp only
    rw [left]
    rcases answer : next (drop source n) with ⟨_ | word, rest⟩
    · have following : rest = drop source (n + 1) := by rw [drop, answer]
      refine ⟨accounts.asked, ⟨n + 1, following, ?_⟩, accounts.count, fun _ => more⟩
      rw [answers, word?, answer, List.countP_append, ← counted]
      rfl
    · have following : rest = drop source (n + 1) := by rw [drop, answer]
      refine accounts_nextCycle accounts.asked ⟨n + 1, following, ?_⟩ more
      rw [answers, word?, answer, List.countP_append, ← counted]
      rfl
  | awaitFetch => exact ⟨accounts.asked, accounts.drawn, accounts.count, fun _ => accounts.more (.inl phase)⟩
  | done => exact accounts
  | _ =>
    refine ⟨accounts.asked, accounts.drawn, accounts.count, ?_⟩
    rintro (impossible | impossible) <;> cases impossible

theorem resume_of_error {now : Instant} {b : Bus} {f : Failure}
    (fails : (s.resume now b).wait = .error f) :
    (s.resume now b).bus = b ∧ (s.resume now b).stimulus.issued = s.issued := by
  unfold Stimulus.resume at fails ⊢
  cases phase : s.phase with
  | present =>
    rw [phase] at fails
    dsimp only at fails ⊢
    rcases answer : next s.source with ⟨_ | word, rest⟩
    · exact ⟨rfl, rfl⟩
    · rw [answer] at fails
      cases fails
  | _ =>
    rw [phase] at fails
    cases fails

end Stimulus

namespace Bench

variable {σ : Type} [WordSource σ]

/-- A property that each operation of a step keeps, successful or not. -/
structure Enduring (P : Bench σ → Prop) : Prop where
  replan : ∀ {b : Bench σ} (agenda : Agenda) (started : Bool), P b → P { b with agenda, started }
  toggle : ∀ {b : Bench σ}, P b → P b.toggleClock
  resume : ∀ {b : Bench σ}, P b → P b.resumeStimulus.state
  commit : ∀ {b : Bench σ}, P b → P b.commit
  respond : ∀ {b : Bench σ} (moved : LineSet), P b → P (b.respond moved).1
  rise : ∀ {b : Bench σ} (awaitingEdge : Bool), P b →
    P { b with tally.clockCycles := b.tally.clockCycles + 1, awaitingEdge }
  rest : ∀ {b : Bench σ} (round : Nat) (due : Bool), P b → P (b.rest round due).state
  finish : ∀ {b : Bench σ}, P b → P { b with tally.simTime := b.now }

namespace Enduring

variable {P : Bench σ → Prop} {b : Bench σ}

theorem telling (enduring : Enduring P) : Telling (fun _ => P) fun _ b _ => P b where
  replan := enduring.replan
  toggle := enduring.toggle
  resume kept := Turn.ends_of_state (enduring.resume kept)
  commit := enduring.commit
  respond := enduring.respond
  rise := enduring.rise
  rest := enduring.rest
  finish := enduring.finish
  breaks kept _ := kept

theorem step (enduring : Enduring P) (kept : P b) (arrives : b.Simulates → P b.start → P b.arrive) :
    P b.step.state := by
  have leaves : b.step.Leaves (fun _ => P) (fun _ b _ => P b) [] := enduring.telling.step kept arrives
  exact leaves.state

end Enduring

/-- What the parts have counted agrees with the tally, and time has kept to the limit. -/
structure Balanced (s : Settings) (source : σ) (b : Bench σ) : Prop where
  evaluations : b.tally.stageEvaluations = b.stage.evaluations
  issued : b.tally.wordsIssued = b.stimulus.issued
  accounts : b.stimulus.Accounts source s.timetable.cycles
  keep : b.observer.keep = s.general.keepObservations
  records : b.observer.keep = true → b.tally.observations = b.observer.records.size
  simTime : b.tally.simTime ≤ b.now
  limit : b.limit = s.general.maxTime.map (·.toNat)
  within : ∀ limit ∈ b.limit, b.now ≤ limit

variable {s : Settings} {source : σ}

theorem Balanced.resumeStimulus {b : Bench σ} (balanced : b.Balanced s source) :
    b.resumeStimulus.state.Balanced s source := by
  have accounts := balanced.accounts.resume b.now b.bus
  unfold Bench.resumeStimulus
  dsimp only
  split
  · rename_i fails
    exact {
      balanced with
      issued := balanced.issued.trans (Stimulus.resume_of_error fails).2.symm
      accounts }
  · rename_i wait _
    cases wait <;> exact { balanced with issued := rfl, accounts }

omit [WordSource σ] in
theorem observe_counts (b : Bench σ) :
    (b.observe.state.observer = b.observer ∧
        b.observe.state.tally.observations = b.tally.observations) ∨
      ∃ o, b.observe.state.observer = (if b.observer.keep
          then { b.observer with records := b.observer.records.push o } else b.observer) ∧
        b.observe.state.tally.observations = b.tally.observations + 1 := by
  cases seen : Observation.ofBus? b.now b.bus with
  | none =>
    refine .inl ?_
    unfold observe Observer.observe
    rw [seen]
    exact ⟨rfl, rfl⟩
  | some o =>
    refine .inr ⟨o, ?_⟩
    rw [observe_of_some seen]
    exact ⟨rfl, b.tally.observations_record o⟩

theorem Balanced.observe {b : Bench σ} (balanced : b.Balanced s source) :
    b.observe.state.Balanced s source := by
  have activity := activity_observe b
  have counts := observe_counts b
  rw [observe_state] at activity counts ⊢
  have keep : b.observe.state.observer.keep = b.observer.keep := by
    rcases counts with ⟨observer, _⟩ | ⟨o, observer, _⟩
    · exact congrArg Observer.keep observer
    · rw [show b.observe.state.observer = _ from observer]
      split <;> rfl
  exact {
    balanced with
    evaluations := (congrArg Tally.stageEvaluations activity).trans balanced.evaluations
    issued := (congrArg Tally.wordsIssued activity).trans balanced.issued
    simTime := by
      have simTime : b.observe.state.tally.simTime = b.tally.simTime :=
        (congrArg Tally.simTime activity :)
      exact Nat.le_trans (Nat.le_of_eq simTime) balanced.simTime
    keep := keep.trans balanced.keep
    records := fun keeps => by
      have keeps : b.observer.keep = true := keep.symm.trans keeps
      have records := balanced.records keeps
      rcases counts with ⟨observer, counted⟩ | ⟨o, observer, counted⟩
      · dsimp only at observer counted ⊢
        rw [observer, counted]
        exact records
      · dsimp only at observer counted ⊢
        rw [observer, if_pos keeps, counted, records]
        exact (Array.size_push _).symm }

theorem enduring_balanced (s : Settings) (source : σ) : Enduring (Balanced s source) where
  replan _ _ kept := { kept with }
  toggle kept := { kept with }
  resume kept := kept.resumeStimulus
  commit kept := { kept with }
  respond moved kept := by
    unfold Bench.respond
    split
    · exact { kept with evaluations := congrArg (· + 1) kept.evaluations }
    · exact kept
  rise _ kept := { kept with }
  rest round due kept := by
    cases due with
    | false => exact { kept with }
    | true => exact Balanced.observe { kept with }
  finish kept := { kept with simTime := Nat.le_refl _ }

theorem balanced_start (s : Settings) (source : σ) : (Bench.start (.new s source)).Balanced s source where
  evaluations := rfl
  issued := rfl
  accounts := Stimulus.accounts_new s.stimulus source
  keep := rfl
  records _ := rfl
  simTime := Nat.le_refl _
  limit := rfl
  within _ _ := Nat.zero_le _

/-- Time goes on from wake-up to wake-up, and no step goes beyond the limit. -/
theorem Balanced.arrive {b : Bench σ} {tick : Option Instant} {place : Whereabouts}
    (balanced : b.start.Balanced s source) (housed : b.Housed s tick place) (simulates : b.Simulates) :
    b.arrive.Balanced s source := by
  obtain ⟨_, first, next, within⟩ := simulates
  have later := housed.arrived.2
  have time : b.arrive.now = first.time := by
    rw [Bench.arrive, Option.mem_def.mp next]
    rfl
  rw [housed.start_eq] at balanced
  rw [Bench.arrive, housed.start_eq] at later time ⊢
  exact {
    balanced with
    simTime := Nat.le_trans balanced.simTime later
    within := fun limit given => time ▸ within limit given }

theorem balanced_after (s : Settings) (source : σ) (k : Nat) :
    ((Bench.start (.new s source)).after k).Balanced s source := by
  induction k with
  | zero => exact balanced_start s source
  | succ k ih =>
    obtain ⟨tick, place, housed, _⟩ := housed_after s source k
    exact (enduring_balanced s source).step ih fun simulates started => started.arrive housed simulates

theorem balanced_new_after (s : Settings) (source : σ) (k : Nat) :
    ((Bench.new s source).after k).Balanced s source := by
  rcases Nat.eq_zero_or_pos k with rfl | positive
  · exact (enduring_balanced s source).replan [] false (balanced_start s source)
  · rw [← after_start s source positive]
    exact balanced_after s source k

end Bench

end IdentifyBench

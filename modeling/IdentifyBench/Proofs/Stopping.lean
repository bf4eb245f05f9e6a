import IdentifyBench.Proofs.Rounds

/-! The stop. It is requested while the wake-ups of an instant go on, before that instant has settled. If
it does settle, nothing is half-applied when the step returns, and no later call changes that. If it does
not, the step fails, and every later one returns at once what the failure has left. -/
namespace IdentifyBench

namespace Bench

variable {σ : Type} [WordSource σ]

theorem halts_react (b : Bench σ) :
    b.react.Ends (fun _ _ _ => True)
      fun _ _ halt => ∃ issued expected, halt = .failure (.exhausted issued expected) := by
  rw [react, Turn.andThen_ends, Turn.ends_done]
  unfold passEdge
  split
  · dsimp only
    split
    · exact halts_resumeStimulus _
    · trivial
  · trivial

/-- A settling that fails has used up its budget, or the source has run dry at an edge. -/
theorem halts_settle (left round : Nat) (due : Bool) (b : Bench σ) :
    (settle left round due b).Ends (fun _ _ _ => True) fun d _ halt =>
      halt = .failure (.unsettled d.now d.maxRounds) ∨
        ∃ issued expected, halt = .failure (.exhausted issued expected) := by
  induction left generalizing round due b with
  | zero => exact .inl rfl
  | succ left ih =>
    rw [settle_succ]
    split
    · rw [Turn.ends_iff_of_ok (rest_result _ _ _)]
      trivial
    · rw [Turn.andThen_ends]
      refine b.halts_react.mono ?_ ?_
      · exact fun c _ _ _ => ih (round + 1) (due || b.moved.intersects Observation.triggers) c
      · exact fun _ _ _ dry => .inr dry

theorem step_of_ok {b : Bench σ} {outcome : Outcome} (going : b.stopped = false)
    (returns : b.step.result = .ok outcome) :
    ∃ d : Bench σ, b.step.state = { d with tally.simTime := d.now } ∧
      outcome = if d.stopped then .stopped d.now else .advanced d.now := by
  rcases stepWithin_cases going with ⟨_, step⟩ | ⟨_, _, _, _, _, _, step⟩ | simulates
  · rw [Bench.step, step] at returns
    cases returns
  · rw [Bench.step, step] at returns
    cases returns
  · rw [step, stepWithin_of_simulates simulates] at returns ⊢
    cases drains : (drain (maxWakeups + 1) b.arrive).result with
    | error halt =>
      rw [Turn.andThen_of_error drains] at returns
      cases returns
    | ok x =>
      rw [Turn.andThen_of_ok drains, conclude] at returns ⊢
      generalize (drain (maxWakeups + 1) b.arrive).state = d at returns ⊢
      cases settles : (settle d.maxRounds 0 false d).result with
      | error halt =>
        rw [Turn.andThen_of_error settles] at returns
        cases returns
      | ok y =>
        rw [Turn.andThen_of_ok settles] at returns ⊢
        cases returns
        exact ⟨(settle d.maxRounds 0 false d).state, rfl, rfl⟩

theorem now_of_stopped {b : Bench σ} {t : Instant} (returns : b.step.result = .ok (.stopped t)) :
    b.step.state.now = t := by
  cases going : b.stopped with
  | true =>
    rw [step, stepWithin_of_stopped going] at returns ⊢
    cases returns
    rfl
  | false =>
    obtain ⟨d, state, outcome⟩ := step_of_ok going returns
    rw [state]
    split at outcome
    · cases outcome
      rfl
    · cases outcome

theorem simTime_of_ok {b : Bench σ} {outcome : Outcome} (going : b.stopped = false)
    (returns : b.step.result = .ok outcome) : b.step.state.tally.simTime = b.step.state.now := by
  obtain ⟨d, state, _⟩ := step_of_ok going returns
  rw [state]

namespace Housed

variable {s : Settings} {tick : Option Instant} {place : Whereabouts} {b : Bench σ}

/-- A stimulus that has found its source dry does not ask for the stop. -/
theorem drain_stopped (housed : b.Housed s tick place) (left : Nat) :
    (Bench.drain left b).Ends (fun _ _ _ => True)
      fun d _ halt => halt = .endless ∨ d.stopped = false := by
  induction left generalizing tick place b with
  | zero =>
    unfold Bench.drain
    split
    · trivial
    · split
      · exact .inl rfl
      · trivial
  | succ left ih =>
    rcases housed.ahead_or_due with ahead | ⟨p, rest, next⟩
    · rw [drain_of_ahead ahead]
      trivial
    · rw [drain_of_due next, ← without_first next, Turn.andThen_ends]
      have inside : ⟨b.now, p⟩ ∈ b.agenda := by simp [next]
      cases p with
      | clock => exact ih (housed.taken_clock inside).2.toggled
      | stimulus =>
        refine (housed.taken_stimulus inside).2.resumed.mono ?_ ?_
        · rintro d _ _ ⟨wait, _, _, resumed⟩
          exact ih resumed
        · rintro d _ halt ⟨lost, _⟩
          exact .inr lost.stopped

theorem conclude_unsettled (housed : b.Housed s tick place) {halt : Halt}
    (halts : b.conclude.result = .error halt) :
    halt = .failure (.unsettled b.conclude.state.now s.general.maxDeltaRounds.toNat) := by
  obtain ⟨place', settled, _, _, unsettled⟩ := housed.settle b.maxRounds 0 false
  have ends := halts_settle b.maxRounds 0 false b
  unfold Bench.conclude at halts ⊢
  cases settles : (Bench.settle b.maxRounds 0 false b).result with
  | ok x =>
    rw [Turn.andThen_of_ok settles] at halts
    cases halts
  | error halt' =>
    rw [Turn.andThen_of_error settles] at halts ⊢
    obtain rfl := Except.error.inj halts
    rw [Turn.ends_iff_of_error settles] at ends
    rcases ends with same | ⟨issued, expected, dry⟩
    · rw [same, settled.rounds]
    · obtain ⟨_, _, same⟩ := unsettled _ settles
      rw [dry] at same
      cases same

/-- Where the stop is requested, the step returns, or the instant has not settled, or it never ends. -/
theorem step_stops (housed : b.Housed s tick place) (going : b.stopped = false)
    (stops : b.step.state.stopped = true) :
    (∃ outcome, b.step.result = .ok outcome) ∨ b.step.result = .error .endless ∨
      b.step.result =
        .error (.failure (.unsettled b.step.state.now s.general.maxDeltaRounds.toNat)) := by
  rcases stepWithin_cases going with
    ⟨_, step⟩ | ⟨_, _, _, _, _, _, step⟩ | simulates
  · rw [Bench.step, step, Turn.fail, housed.start_eq, going] at stops
    cases stops
  · rw [Bench.step, step, Turn.fail, housed.start_eq] at stops
    rw [going] at stops
    cases stops
  · rw [Bench.step, stepWithin_of_simulates simulates] at stops ⊢
    have arrived := housed.arrived.1
    have drained := (arrived.drain (maxWakeups + 1)).and (arrived.drain_stopped (maxWakeups + 1))
    cases drains : (Bench.drain (maxWakeups + 1) b.arrive).result with
    | error halt =>
      rw [Turn.andThen_of_error drains] at stops ⊢
      rw [Turn.ends_iff_of_error drains] at drained
      rcases drained.2 with rfl | unstopped
      · exact .inr (.inl rfl)
      · rw [unstopped] at stops
        cases stops
    | ok x =>
      rw [Turn.andThen_of_ok drains]
      rw [Turn.ends_iff_of_ok drains] at drained
      obtain ⟨⟨_, _, woken, _⟩, _⟩ := drained
      cases returned : (Bench.drain (maxWakeups + 1) b.arrive).state.conclude.result with
      | ok outcome => exact .inl ⟨outcome, rfl⟩
      | error halt => exact .inr (.inr (congrArg Except.error (woken.conclude_unsettled returned)))

end Housed

theorem exists_stopping {b : Bench σ} (going : b.stopped = false) {n : Nat}
    (stopped : (b.after n).stopped = true) :
    ∃ k < n, (b.after k).stopped = false ∧ (b.after (k + 1)).stopped = true := by
  induction n with
  | zero =>
    rw [after, going] at stopped
    cases stopped
  | succ n ih =>
    cases before : (b.after n).stopped with
    | false => exact ⟨n, Nat.lt_succ_self n, before, stopped⟩
    | true =>
      obtain ⟨k, below, found⟩ := ih before
      exact ⟨k, Nat.lt_succ_of_lt below, found⟩

/-- What a bench that has stopped shows was left by the step that the stop was requested in. -/
theorem stopped_cases (s : Settings) (source : σ) {n : Nat} {t : Instant}
    (returns : ((Bench.start (.new s source)).after n).step.result = .ok (.stopped t)) :
    let b := Bench.start (.new s source)
    (b.after (n + 1)).Settled ∧ (b.after (n + 1)).tally.simTime = t ∨
      ∃ k < n, (b.after k).stopped = false ∧ (b.after (k + 1)).stopped = true ∧
        ((b.after k).step.result = .error .endless ∨ (b.after k).step.result =
          .error (.failure (.unsettled t s.general.maxDeltaRounds.toNat))) := by
  intro b
  have now : (b.after (n + 1)).now = t := now_of_stopped returns
  have settled {k : Nat} {outcome : Outcome} (going : (b.after k).stopped = false)
      (returns : (b.after k).step.result = .ok outcome) :
      (b.after (k + 1)).Settled ∧ (b.after (k + 1)).tally.simTime = (b.after (k + 1)).now := by
    have answered := answered_after (answered_start (answered_new s source)) (k + 1)
    exact ⟨answered.settled (quiet_step going returns), simTime_of_ok going returns⟩
  cases stopped : (b.after n).stopped with
  | false =>
    have rests := settled stopped returns
    rw [now] at rests
    exact .inl rests
  | true =>
    obtain ⟨k, below, going, stops⟩ := exists_stopping (b := b) rfl stopped
    have frozen : b.after (n + 1) = b.after (k + 1) :=
      after_of_stopped stops (Nat.succ_le_succ (Nat.le_of_lt below))
    obtain ⟨_, _, housed, _⟩ := housed_after s source k
    rw [frozen] at now ⊢
    rcases housed.step_stops going stops with ⟨outcome, returns⟩ | endless | unsettled
    · have rests := settled going returns
      rw [now] at rests
      exact .inl rests
    · exact .inr ⟨k, below, going, stops, .inl endless⟩
    · rw [show (b.after k).step.state.now = t from now] at unsettled
      exact .inr ⟨k, below, going, stops, .inr unsettled⟩

end Bench

namespace Recording

variable {σ κ : Type} [WordSource σ] [Sink κ]

/-- Whenever a step tells that the bench has stopped, whatever has failed before, the stage has answered
the committed inputs, and nothing is half-applied: no write is pending, the outputs carry the answer, and
the statistics are up to date. The one exception is a stop that was requested in an instant that did not
settle within the budget of delta rounds, which needs a budget of less than three. -/
theorem stop_settled (s : Settings) (source : σ) (waveform : Option Waveform) (out : κ) (n : Nat)
    (t : Instant)
    (ends : ∀ k < n, ((fresh s source waveform out).after k).step.result ≠ .error .endless)
    (returns : ((fresh s source waveform out).after n).step.result = .ok (.stopped t)) :
    let r := fresh s source waveform out
    let b := (r.after n).step.state.bench
    b.now = t ∧ b.Answered ∧
      (b.Settled ∧ b.tally.simTime = t ∨
        ∃ k < n, (r.after k).bench.stopped = false ∧ (r.after (k + 1)).bench.stopped = true ∧
          (r.after k).step.result =
            .error (.failure (.unsettled t s.general.maxDeltaRounds.toNat))) ∧
      (3 ≤ s.general.maxDeltaRounds → b.Settled ∧ b.tally.simTime = t) := by
  intro r b
  have simulated := bench_result_of_step_ok returns
  rw [fresh_bench_step] at simulated
  have state : b = (Bench.start (.new s source)).after (n + 1) :=
    fresh_after_bench s source waveform out (Nat.succ_pos n)
  have stopped (k : Nat) :
      (r.after k).bench.stopped = ((Bench.start (.new s source)).after k).stopped := by
    rcases Nat.eq_zero_or_pos k with rfl | positive
    · rfl
    · rw [fresh_after_bench s source waveform out positive]
  have result {k : Nat} {halt : Halt}
      (halts : ((Bench.start (.new s source)).after k).step.result = .error halt) :
      (r.after k).step.result = .error halt :=
    step_of_bench_error (by rw [fresh_bench_step]; exact halts)
  have whole : b.Settled ∧ b.tally.simTime = t ∨
      ∃ k < n, (r.after k).bench.stopped = false ∧ (r.after (k + 1)).bench.stopped = true ∧
        (r.after k).step.result =
          .error (.failure (.unsettled t s.general.maxDeltaRounds.toNat)) := by
    rw [state]
    rcases Bench.stopped_cases s source simulated with
      settled | ⟨k, below, going, stops, endless | unsettled⟩
    · exact .inl settled
    · exact absurd (result endless) (ends k below)
    · exact .inr ⟨k, below, (stopped k).trans going, (stopped (k + 1)).trans stops, result unsettled⟩
  refine ⟨?_, ?_, whole, fun enough => ?_⟩
  · rw [state]
    exact Bench.now_of_stopped simulated
  · rw [state]
    exact Bench.answered_after (Bench.answered_start (Bench.answered_new s source)) (n + 1)
  · rcases whole with settled | ⟨k, _, _, _, unsettled⟩
    · exact settled
    · obtain ⟨_, _, housed, _⟩ := Bench.housed_after s source k
      have settles := housed.step_settles (UInt64.le_iff_toNat_le.mp enough)
      have halted := result_of_bench unsettled nofun
      rw [fresh_bench_step] at halted
      unfold Turn.Ends at settles
      rw [halted] at settles
      exact absurd rfl (settles.2 _ _)

/-- The word is presented in the fourth step, which settles, and the fifth one finds it so. -/
theorem settled_of_one_word :
    ∃ s : Settings, s = { Settings.immediate 1 with stimulus.fetchDelay := 3 } ∧
      ∃ r : Recording (List Word) Memory, r = fresh s [0x48000000] none (.empty none) ∧
        (∀ k < 4, (r.after k).step.result.isOk = true) ∧
        (r.after 4).step.result = .ok (.stopped 3) ∧ (r.after 4).step.state.bench.Settled ∧
        (r.after 4).step.state.bench.tally.simTime = 3 := by
  obtain ⟨s, same⟩ : ∃ s : Settings, s = { Settings.immediate 1 with stimulus.fetchDelay := 3 } :=
    ⟨_, rfl⟩
  obtain ⟨r, fresh⟩ : ∃ r : Recording (List Word) Memory,
      r = fresh s [0x48000000] none (.empty none) := ⟨_, rfl⟩
  have returned : ∀ k < 4, (r.after k).step.result.isOk = true := by
    rw [fresh, same]
    decide +kernel
  have returns : (r.after 4).step.result = .ok (.stopped 3) := by
    rw [fresh, same]
    exact Turn.result_of_toOption (by decide +kernel)
  have ends : ∀ k < 4, (r.after k).step.result ≠ .error .endless := by
    intro k below endless
    have ok := returned k below
    rw [endless] at ok
    cases ok
  have settled := stop_settled s ([0x48000000] : List Word) none (Memory.empty none) 4 3
  rw [← fresh] at settled
  obtain ⟨_, _, _, kept⟩ := settled ends returns
  exact ⟨s, same, r, fresh, returned, returns, kept (by rw [same]; decide)⟩

/-- One round is too few for the instant in which the stop is requested. The next step tells that the
bench has stopped, while the answer to the word is still pending, and the statistics lag behind. -/
theorem torn_of_overflow :
    ∃ s : Settings, s = { Settings.standard with
        general.maxDeltaRounds := 1
        clock.period := 10
        stimulus := {
          reset := 0, settle := 0, fetchDelay := 3, cycles := 1, arbiterFullEvery := 0,
          source := .fixed [0x48000000] } } ∧
      s.Valid ∧
      ∃ r : Recording (List Word) Memory, r = fresh s [0x48000000] none (.empty none) ∧
        (r.after 1).step.result.isOk = false ∧
        (r.after 2).step.result = .ok (.stopped 3) ∧
        let b := (r.after 2).step.state.bench
        ¬b.bus.Quiet ∧ ¬b.bus.Carries (b.stage.evaluate b.bus.inputs).2 ∧ b.tally.simTime = 0 := by
  obtain ⟨s, same⟩ : ∃ s : Settings, s = { Settings.standard with
        general.maxDeltaRounds := 1
        clock.period := 10
        stimulus := {
          reset := 0, settle := 0, fetchDelay := 3, cycles := 1, arbiterFullEvery := 0,
          source := .fixed [0x48000000] } } := ⟨_, rfl⟩
  obtain ⟨r, fresh⟩ : ∃ r : Recording (List Word) Memory,
      r = fresh s [0x48000000] none (.empty none) := ⟨_, rfl⟩
  have overflows : (r.after 1).step.result.isOk = false := by
    rw [fresh, same]
    decide +kernel
  have returns : (r.after 2).step.result = .ok (.stopped 3) := by
    rw [fresh, same]
    exact Turn.result_of_toOption (by decide +kernel)
  have pending : (r.after 2).step.state.bench.bus.branch.pending.isNone = false := by
    rw [fresh, same]
    decide +kernel
  have low : (r.after 2).step.state.bench.bus.flags.branch = false := by
    rw [fresh, same]
    decide +kernel
  have answer : ((r.after 2).step.state.bench.stage.evaluate
      (r.after 2).step.state.bench.bus.inputs).2.identified.flags.branch = true := by
    rw [fresh, same]
    decide +kernel
  have late : (r.after 2).step.state.bench.tally.simTime = 0 := by
    rw [fresh, same]
    decide +kernel
  refine ⟨s, same, by rw [same]; decide, r, fresh, overflows, returns, ?_, ?_, late⟩
  · intro quiet
    cases pending.symm.trans (congrArg Option.isNone (quiet .branch))
  · intro carries
    have high := carries .branch _ rfl
    cases low.symm.trans (high.trans answer)

end Recording

end IdentifyBench

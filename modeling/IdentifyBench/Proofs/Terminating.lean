import IdentifyBench.Proofs.Likeness
import IdentifyBench.Proofs.Taking

/-! Every step ends whose instant lies before the last one of the timeline, whatever has failed before,
and so does every run that does not get there. At the last instant the next toggle of the clock is due
at once, since no delay leads beyond it: no number of wake-ups is enough for such a step. -/
namespace IdentifyBench

namespace Bench

variable {σ : Type} [WordSource σ] {s : Settings} {tick : Option Instant} {place : Whereabouts}
  {b : Bench σ}

theorem stepWithin_eq_step {wakeups : Nat}
    (same : drain (wakeups + 1) b.arrive = drain (maxWakeups + 1) b.arrive) :
    b.stepWithin wakeups = b.step := by
  rw [step]
  cases going : b.stopped with
  | true => rw [stepWithin_of_stopped going, stepWithin_of_stopped going]
  | false =>
    rcases stepWithin_cases going with ⟨_, step⟩ | ⟨_, _, _, _, _, _, step⟩ | simulates
    · rw [step, step]
    · rw [step, step]
    · rw [stepWithin_of_simulates simulates, stepWithin_of_simulates simulates, same]

theorem simulates_of_endless (endless : b.step.result = .error .endless) : b.Simulates := by
  cases going : b.stopped with
  | true =>
    rw [step, stepWithin_of_stopped going] at endless
    cases endless
  | false =>
    rcases stepWithin_cases going with ⟨_, fails⟩ | ⟨_, _, _, _, _, _, fails⟩ | simulates
    · rw [step, fails] at endless
      cases endless
    · rw [step, fails] at endless
      cases endless
    · exact simulates

namespace Housed

variable (housed : b.Housed s tick place)

include housed

theorem arrive_order (wide : 2 ≤ s.timetable.period) (passing : b.arrive.Passing) :
    ∃ order, b.arrive.Drains order ∧
      Bench.drain (maxWakeups + 1) b.arrive = wakeAll order b.arrive ∧ order.length ≤ 4 ∧
      (order.map (·.process)).count .clock ≤ 1 := by
  have arrived := housed.arrived.1
  have enough : b.arrive.load ≤ maxWakeups + 1 := Nat.le_trans arrived.load_le (by decide)
  have ends := arrived.drain_ends wide passing enough
  obtain ⟨order, drains, same⟩ := arrived.drain_order ends
  obtain ⟨length, count⟩ := arrived.admits_le wide passing drains.admits
  exact ⟨order, drains, same, Nat.le_trans length arrived.load_le,
    Nat.le_trans count arrived.ticks_le⟩

theorem stepWithin_of_enough (wide : 2 ≤ s.timetable.period) (passing : b.arrive.Passing)
    {wakeups : Nat} (enough : 3 ≤ wakeups) : b.stepWithin wakeups = b.step := by
  have arrived := housed.arrived.1
  have ends := arrived.drain_ends wide passing arrived.load_le
  exact stepWithin_eq_step ((drain_mono ends (Nat.succ_le_succ enough)).trans
    (drain_mono ends (by decide)).symm)

theorem step_not_endless (wide : 2 ≤ s.timetable.period) (passing : b.arrive.Passing) :
    b.step.result ≠ .error .endless := by
  intro endless
  have arrived := housed.arrived.1
  have enough : b.arrive.load ≤ maxWakeups + 1 := Nat.le_trans arrived.load_le (by decide)
  have ends := arrived.drain_ends wide passing enough
  have drained := arrived.drain (maxWakeups + 1)
  rw [Bench.step, stepWithin_of_simulates (simulates_of_endless endless)] at endless
  cases returned : (Bench.drain (maxWakeups + 1) b.arrive).result with
  | error halt =>
    rw [Turn.andThen_of_error returned] at endless
    obtain rfl := Except.error.inj endless
    exact ends returned
  | ok x =>
    rw [Turn.andThen_of_ok returned] at endless
    rw [Turn.ends_iff_of_ok returned] at drained
    obtain ⟨_, _, drained, _⟩ := drained
    obtain ⟨_, _, _, _, unsettled⟩ := drained.conclude
    obtain ⟨_, _, impossible⟩ := unsettled _ endless
    cases impossible

omit [WordSource σ] in
theorem atEnd (standing : ¬b.Passing) : b.AtEnd := by
  have late : b.now = Instant.last :=
    Nat.le_antisymm housed.early (Nat.le_of_not_lt fun early => standing (.inl early))
  have last : ∀ w ∈ b.agenda, w.time = Instant.last := fun w inside =>
    Nat.le_antisymm (housed.within w inside).2 (late ▸ (housed.within w inside).1)
  refine ⟨late, last, ?_⟩
  cases tick with
  | none => exact absurd (.inr housed.clockDue) standing
  | some c =>
    have inside := housed.tick_mem rfl
    obtain rfl : c = Instant.last := last _ inside
    exact Agenda.mem_times.mpr inside

/-- Where time stands still for the clock, a step ends only with a source that runs dry. -/
theorem stepWithin_of_standing (simulates : b.Simulates) (standing : ¬b.arrive.Passing)
    (wakeups : Nat) :
    (b.stepWithin wakeups).result = .error .endless ∨
      ∃ issued expected,
        (b.stepWithin wakeups).result = .error (.failure (.exhausted issued expected)) := by
  rw [stepWithin_of_simulates simulates]
  have drained := (housed.arrived.1.atEnd standing).drain (wakeups + 1)
  cases returned : (Bench.drain (wakeups + 1) b.arrive).result with
  | error halt =>
    rw [Turn.ends_iff_of_error returned] at drained
    rw [Turn.andThen_of_error returned]
    rcases drained with rfl | ⟨issued, expected, rfl⟩
    · exact .inl rfl
    · exact .inr ⟨issued, expected, rfl⟩
  | ok x => exact ((Turn.ends_iff_of_ok returned).mp drained).elim

theorem now_of_endless (wide : 2 ≤ s.timetable.period) (endless : b.step.result = .error .endless) :
    b.step.state.now = Instant.last := by
  have standing : ¬b.arrive.Passing := fun passing =>
    housed.step_not_endless wide passing endless
  rw [housed.step_arrives (simulates_of_endless endless)]
  exact (housed.arrived.1.atEnd standing).now

end Housed

end Bench

namespace Recording

variable {σ κ : Type} [WordSource σ] [Sink κ]

/-- Every step ends, whatever has happened before it, unless the clock is due at the last instant of
the timeline: it wakes four processes at most, among them the clock once at most, and to allow for more
than that makes no difference. A step through an instant at which the clock is due without end does not
end, unless the source runs dry. A run ends that does not come to such an instant. -/
theorem step_terminates (s : Settings) (source : σ) (waveform : Option Waveform) (out : κ)
    (valid : s.Valid) :
    let r := fresh s source waveform out
    (∀ n, (r.after n).bench.arrive.Passing →
      (∃ order, (r.after n).bench.arrive.Drains order ∧
        Bench.drain (Bench.maxWakeups + 1) (r.after n).bench.arrive =
          Bench.wakeAll order (r.after n).bench.arrive ∧
        order.length ≤ 4 ∧ (order.map (·.process)).count .clock ≤ 1) ∧
      (∀ wakeups, 3 ≤ wakeups → (r.after n).bench.stepWithin wakeups = (r.after n).bench.step) ∧
      (r.after n).step.result ≠ .error .endless) ∧
    (∀ n, (r.after n).bench.Simulates → ¬(r.after n).bench.arrive.Passing → ∀ wakeups,
      ((r.after n).bench.stepWithin wakeups).result = .error .endless ∨
        ∃ issued expected, ((r.after n).bench.stepWithin wakeups).result =
          .error (.failure (.exhausted issued expected))) ∧
    (r.run.result = .error .endless → r.run.state.bench.now = Instant.last) := by
  intro r
  have wide := valid.wide
  have ends (n : Nat) (passing : (r.after n).bench.arrive.Passing) :
      (r.after n).bench.step.result ≠ .error .endless := by
    obtain ⟨tick, place, housed, _⟩ := Bench.housed_after s source n
    rw [fresh_after_arrive] at passing
    rw [fresh_bench_step]
    exact housed.step_not_endless wide passing
  refine ⟨fun n passing => ⟨?_, ?_, ?_⟩, ?_, ?_⟩
  · obtain ⟨tick, place, housed, _⟩ := Bench.housed_after s source n
    rw [fresh_after_arrive] at passing ⊢
    exact housed.arrive_order wide passing
  · intro wakeups enough
    obtain ⟨tick, place, housed, _⟩ := Bench.housed_after s source n
    rw [fresh_after_arrive] at passing
    rw [fresh_after_stepWithin, fresh_bench_step]
    exact housed.stepWithin_of_enough wide passing enough
  · exact fun endless => ends n passing (result_of_bench endless nofun)
  · intro n simulates standing wakeups
    obtain ⟨tick, place, housed, _⟩ := Bench.housed_after s source n
    rw [fresh_after_simulates] at simulates
    rw [fresh_after_arrive] at standing
    rw [fresh_after_stepWithin]
    exact housed.stepWithin_of_standing simulates standing wakeups
  · intro endless
    obtain ⟨k, below, going, ended⟩ := exists_last_step s source waveform out wide
    rw [run_result going ended below] at endless
    rw [run_state going ended below, after, step_bench, fresh_bench_step]
    obtain ⟨tick, place, housed, _⟩ := Bench.housed_after s source k
    refine housed.now_of_endless wide ?_
    rw [← fresh_bench_step s source waveform out]
    cases returned : (r.after k).step.result with
    | error halt =>
      rw [returned] at endless
      obtain rfl := Except.error.inj endless
      exact result_of_bench returned nofun
    | ok outcome =>
      rw [returned] at endless
      cases endless

theorem terminates_of_one_word :
    (Settings.immediate 1).Valid ∧
      ∃ r : Recording (List Word) Memory, r = fresh (.immediate 1) [5] none (.empty none) ∧
        (r.after 1).bench.arrive.now = 0 ∧
        ∀ wakeups, 3 ≤ wakeups → (r.after 1).bench.stepWithin wakeups = (r.after 1).bench.step := by
  have valid : (Settings.immediate 1).Valid := by decide
  have terminates := step_terminates (.immediate 1) ([5] : List Word) none (Memory.empty none) valid
  obtain ⟨r, same⟩ : ∃ r : Recording (List Word) Memory,
      r = fresh (.immediate 1) [5] none (.empty none) := ⟨_, rfl⟩
  dsimp only at terminates
  rw [← same] at terminates
  have now : (r.after 1).bench.arrive.now = 0 := by
    rw [same]
    decide +kernel
  have passing : (r.after 1).bench.arrive.Passing := .inl (by rw [now]; decide)
  exact ⟨valid, r, same, now, (terminates.1 1 passing).2.1⟩

/-- The longest period that settings can ask for brings the clock to the last instant of the timeline
with its third toggle, and no number of wake-ups ends the step there. -/
theorem endless_of_longest_period :
    ∃ s : Settings, s = { Settings.standard with
        clock.period := 18446744073709551615
        stimulus := {
          reset := 0, settle := 1, fetchDelay := 7000, cycles := 1, arbiterFullEvery := 0,
          source := .fixed [0] } } ∧
      s.Valid ∧
      ∃ r : Recording (List Word) Memory, r = fresh s [0] none (.empty none) ∧
        (∀ n < 3, (r.after n).step.result.isOk = true) ∧
        ∀ wakeups, ((r.after 3).bench.stepWithin wakeups).result = .error .endless := by
  obtain ⟨s, same⟩ : ∃ s : Settings, s = { Settings.standard with
        clock.period := 18446744073709551615
        stimulus := {
          reset := 0, settle := 1, fetchDelay := 7000, cycles := 1, arbiterFullEvery := 0,
          source := .fixed [0] } } := ⟨_, rfl⟩
  obtain ⟨r, fresh⟩ : ∃ r : Recording (List Word) Memory, r = fresh s [0] none (.empty none) :=
    ⟨_, rfl⟩
  refine ⟨s, same, by rw [same]; decide, r, fresh, ?_, fun wakeups => ?_⟩
  · rw [fresh, same]
    decide +kernel
  · have going : (r.after 3).bench.stopped = false := by
      rw [fresh, same]
      decide +kernel
    have alone : (r.after 3).bench.start.agenda = [⟨Instant.last, .clock⟩] := by
      rw [fresh, same]
      decide +kernel
    have unlimited : (r.after 3).bench.limit = none := by
      rw [fresh, same]
      decide +kernel
    have simulates : (r.after 3).bench.Simulates := by
      refine ⟨going, ⟨Instant.last, .clock⟩, ?_, ?_⟩
      · rw [Bench.next?, alone]
        rfl
      · rw [unlimited]
        intro last limited
        cases limited
    have drained := Bench.drain_of_clock (b := (r.after 3).bench.arrive)
      (by rw [Bench.arrive_of_next alone]) (by rw [Bench.arrive_of_next alone]; exact alone)
      (wakeups + 1)
    rw [Bench.stepWithin_of_simulates simulates, Turn.andThen_of_error drained]

end Recording

end IdentifyBench

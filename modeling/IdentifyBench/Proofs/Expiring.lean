import IdentifyBench.Proofs.Straying
import IdentifyBench.Proofs.Watching

/-! The limit, and what is left once a step has been refused on its account. All wake-ups on the agenda
lie beyond the limit then, so that every step takes one of them and does nothing with it. The clock has
one and the stimulus has one at most, and behind them there is nothing. -/
namespace IdentifyBench

namespace Bench

variable {σ : Type} [WordSource σ] {s : Settings} {tick : Option Instant} {place : Whereabouts} {b : Bench σ}
  {limit : Instant}

theorem Barred.step_eq (barred : b.Barred) (going : b.stopped = false) (limited : b.limit = some limit) :
    b.step = .fail { b with agenda := b.agenda.tail }
      (if b.agenda = [] then .starved b.now else .timeLimit limit) := by
  rcases stepWithin_cases going with ⟨empty, step⟩ | ⟨first, rest, l, given, _, next, step⟩ | simulates
  · rw [start_of_started barred.started] at empty step
    have same : { b with agenda := b.agenda.tail } = b := by rw [empty, List.tail_nil, ← empty]
    rw [Bench.step, step, if_pos empty, same]
  · rw [start_of_started barred.started] at next step
    obtain rfl : l = limit := Option.some.inj ((Option.mem_def.mp given).symm.trans limited)
    rw [Bench.step, step, next, if_neg (List.cons_ne_nil _ _), List.tail_cons]
  · exact absurd simulates barred.not_simulates

/-- A refused step tells that all wake-ups lie beyond the limit, the one that it has taken included. -/
theorem Housed.barred_of_timeLimit (housed : b.Housed s tick place)
    (refused : b.step.result = .error (.failure (.timeLimit limit))) :
    b.Barred ∧ b.stopped = false ∧ b.limit = some limit := by
  have going : b.stopped = false := by
    rw [Bool.eq_false_iff]
    intro stopped
    rw [Bench.step, stepWithin_of_stopped stopped] at refused
    cases refused
  rcases stepWithin_cases going with ⟨_, step⟩ | ⟨first, rest, l, given, beyond, next, step⟩ | simulates
  · rw [Bench.step, step] at refused
    cases refused
  · rw [Bench.step, step] at refused
    cases refused
    rw [housed.start_eq] at next
    exact ⟨barred_of_first housed.started housed.ordered next given beyond, going, given⟩
  -- An instant that is gone through may fail too, but not for the limit.
  · exfalso
    have ends : b.step.Ends (fun _ _ _ => True) fun _ _ halt => halt ≠ .failure (.timeLimit limit) := by
      rw [Bench.step, stepWithin_of_simulates simulates, Turn.andThen_ends]
      refine (housed.arrived.1.drain _).mono ?_ ?_
      · rintro d _ _ ⟨_, _, drained, _⟩
        obtain ⟨_, _, _, _, unsettled⟩ := drained.conclude
        unfold Turn.Ends
        split
        · trivial
        · rename_i halts
          rintro rfl
          obtain ⟨_, _, impossible⟩ := unsettled _ halts
          cases impossible
      · rintro _ _ _ ⟨_, _, _, _, halts⟩ rfl
        rcases halts with impossible | ⟨_, _, impossible⟩ <;> cases impossible
    rw [Turn.ends_iff_of_error refused] at ends
    exact ends rfl

theorem new_unrefused (s : Settings) (source : σ) (limit : Instant) :
    (Bench.new s source).step.result ≠ .error (.failure (.timeLimit limit)) := by
  intro refused
  rw [← step_start] at refused
  have expired := (housed_start s source).barred_of_timeLimit refused
  obtain ⟨l, _, before⟩ := expired.1.beyond ⟨0, .clock⟩ (by simp [start, new, Agenda.add])
  exact Nat.not_lt_zero l before

/-- The first step that is refused still finds the clock on the agenda. -/
theorem barred_after (source : σ) {n : Nat}
    (refused : ((Bench.new s source).after n).step.result = .error (.failure (.timeLimit limit)))
    (first : ∀ k < n, ∀ l,
      ((Bench.new s source).after k).step.result ≠ .error (.failure (.timeLimit l))) :
    let b := (Bench.new s source).after n
    b.Barred ∧ b.stopped = false ∧ b.limit = some limit ∧ b.limit = s.general.maxTime.map (·.toNat) ∧
      (∃ c, b.agenda.times .clock = [c]) ∧ (b.agenda.times .stimulus).length ≤ 1 := by
  have positive : 0 < n := by
    refine Nat.pos_of_ne_zero ?_
    rintro rfl
    exact new_unrefused s source limit refused
  obtain ⟨tick, place, housed, ticks⟩ := housed_after s source n
  have balanced := balanced_after s source n
  rw [after_start s source positive] at housed balanced
  obtain ⟨barred, going, limited⟩ := housed.barred_of_timeLimit refused
  obtain ⟨c, due⟩ := Option.isSome_iff_exists.mp
    (ticks fun k below l => step_after_start s source k ▸ first k below l)
  refine ⟨barred, going, limited, balanced.limit, ⟨c, ?_⟩, ?_⟩
  · rw [housed.clockDue, due, Option.toList_some]
  · rw [housed.stimulusDue]
    cases place <;> simp [Whereabouts.times]

end Bench

namespace Recording

variable {σ κ : Type} [WordSource σ] [Sink κ] {r : Recording σ κ} {limit : Instant}

theorem step_of_fail {b : Bench σ} {f : Failure} (fails : r.bench.step = .fail b f) :
    r.step = .fail { r with bench := b } f := by
  unfold step
  dsimp only
  rw [fails, if_pos (by simp [Turn.fail, Except.isOk, Except.toBool])]
  rfl

section Barred

variable (barred : r.bench.Barred) (going : r.bench.stopped = false) (limited : r.bench.limit = some limit)

include barred going limited

theorem after_of_barred (m : Nat) :
    r.after m = { r with bench := { r.bench with agenda := r.bench.agenda.drop m } } := by
  induction m with
  | zero => rfl
  | succ m ih =>
    have step := (barred.drop m).step_eq going limited
    rw [after, ih, step_of_fail (r := { r with bench := _ }) step]
    simp only [Turn.fail, List.tail_drop]

theorem step_of_barred (m : Nat) :
    (r.after m).step = .fail (r.after (m + 1))
      (if r.bench.agenda.length ≤ m then .starved r.bench.now else .timeLimit limit) := by
  have step := (barred.drop m).step_eq going limited
  rw [after, after_of_barred barred going limited m, step_of_fail (r := { r with bench := _ }) step]
  simp only [Turn.fail, List.drop_eq_nil_iff]

end Barred

/-- Once a step has been refused on account of the limit, there is nothing more to come. That step takes
a wake-up off the agenda, and changes nothing else. Then the clock or the stimulus has another one to be
refused if both had one, and from then on the bench starves at the time at which it was refused. -/
theorem refused_for_good (s : Settings) (source : σ) (r : Nat → Recording σ κ) (series : Series s source r)
    (n : Nat) (limit : Instant) (refused : (r n).step.result = .error (.failure (.timeLimit limit)))
    (first : ∀ k < n, ∀ l, (r k).step.result ≠ .error (.failure (.timeLimit l))) :
    let q := r n
    let agenda := q.bench.agenda
    s.general.maxTime.map (·.toNat) = some limit ∧
    (∃ c, agenda.times .clock = [c]) ∧ (agenda.times .stimulus).length ≤ 1 ∧
    (∀ w ∈ agenda, limit < w.time) ∧
    (∀ m, q.after m = { q with bench := { q.bench with agenda := agenda.drop m } } ∧
      (q.after m).step.events = []) ∧
    (q.after 1).step.result = .error (.failure (if agenda.times .stimulus = []
      then .starved q.bench.now else .timeLimit limit)) ∧
    ∀ m, 2 ≤ m → (q.after m).step.result = .error (.failure (.starved q.bench.now)) := by
  intro q agenda
  have bench : q.bench = (Bench.new s source).after n := series.bench_eq n
  have refused := result_of_bench refused nofun
  rw [show (r n).bench = _ from bench] at refused
  obtain ⟨barred, going, limited, given, ⟨c, ticks⟩, few⟩ := Bench.barred_after source refused
    fun k below l halts => first k below l (step_of_bench_error (series.bench_eq k ▸ halts))
  rw [← bench] at barred going limited given ticks few
  have step (m : Nat) : (q.after m).step = .fail (q.after (m + 1))
      (if agenda.length ≤ m then .starved q.bench.now else .timeLimit limit) :=
    step_of_barred barred going limited m
  have few : (agenda.times .stimulus).length ≤ 1 := few
  have count : agenda.length = 1 + (agenda.times .stimulus).length := by
    rw [Agenda.length_eq_times, ticks, List.length_singleton]
  refine ⟨given.symm.trans limited, ⟨c, ticks⟩, few, fun w inside => ?_, fun m => ⟨?_, ?_⟩, ?_,
    fun m enough => ?_⟩
  · obtain ⟨l, given, beyond⟩ := barred.beyond w inside
    obtain rfl : l = limit := Option.some.inj ((Option.mem_def.mp given).symm.trans limited)
    exact beyond
  · exact after_of_barred barred going limited m
  · rw [step m]
    rfl
  · rw [step 1]
    have alone : agenda.length ≤ 1 ↔ agenda.times .stimulus = [] := by
      rw [count, ← List.length_eq_zero_iff]
      omega
    simp only [Turn.fail, alone]
  · rw [step m, if_pos (by omega)]
    rfl

/-- The waveform cannot be written, and the first step fails for that. Then the clock is refused, and
after it the stimulus, which has to wait for the end of the reset pulse. -/
theorem refused_of_long_reset :
    ∃ (s : Settings) (r : Recording (List Word) Memory),
      s = { Settings.immediate 1 with general.maxTime := some 0, stimulus.reset := 5 } ∧
      r = fresh s [5] (some .blank) (.empty (some 0)) ∧ r.step.result.isOk = false ∧
      (r.after 1).step.result = .error (.failure (.timeLimit 0)) ∧
      (r.after 2).step.result = .error (.failure (.timeLimit 0)) ∧
      ∀ m, 3 ≤ m → (r.after m).step.result = .error (.failure (.starved 0)) := by
  obtain ⟨s, settings⟩ : ∃ s : Settings,
      s = { Settings.immediate 1 with general.maxTime := some 0, stimulus.reset := 5 } := ⟨_, rfl⟩
  obtain ⟨r, same⟩ : ∃ r : Recording (List Word) Memory,
      r = fresh s [5] (some .blank) (.empty (some 0)) := ⟨_, rfl⟩
  have fails : r.step.result.isOk = false := by
    rw [same, settings]
    decide +kernel
  have agenda : (r.after 1).bench.agenda = [⟨1, .clock⟩, ⟨5, .stimulus⟩] := by
    rw [same, settings]
    decide +kernel
  have now : (r.after 1).bench.now = 0 := by
    rw [same, settings]
    decide +kernel
  have limited : (r.after 1).bench.limit = some 0 := by
    rw [same, settings]
    decide +kernel
  have going : (r.after 1).bench.stopped = false := by
    rw [same, settings]
    decide +kernel
  have barred : (r.after 1).bench.Barred := by
    refine ⟨by rw [same, settings]; decide +kernel, ?_⟩
    rw [agenda, limited]
    decide
  have refused : (r.after 1).step.result = .error (.failure (.timeLimit 0)) := by
    have step := step_of_barred barred going limited 0
    rw [agenda] at step
    exact congrArg Turn.result step
  have unrefused : ∀ k < 1, ∀ l, (r.after k).step.result ≠ .error (.failure (.timeLimit l)) := by
    intro k below l refused
    obtain rfl := Nat.lt_one_iff.mp below
    rw [same] at refused
    exact Bench.new_unrefused s [5] l (result_of_bench refused nofun)
  obtain ⟨_, _, _, _, _, again, starves⟩ := refused_for_good s ([5] : List Word) r.after
    (same ▸ series_after ..) 1 0 refused unrefused
  rw [agenda] at again
  rw [now] at starves
  refine ⟨s, r, settings, same, fails, refused, again, fun m enough => ?_⟩
  obtain ⟨m, rfl⟩ := Nat.exists_eq_add_of_le' (Nat.le_of_succ_le enough)
  rw [show m + 2 = m + 1 + 1 from rfl, after_succ]
  exact starves (m + 1) (by omega)

end Recording

end IdentifyBench

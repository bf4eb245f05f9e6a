import IdentifyBench.Proofs.Stepping

/-! A whole run on its course. Every step gets on, in time or in the number of words, so that some
step is the last one, and the run never uses up its steps. -/
namespace IdentifyBench

open WordSource

namespace Settings

theorem Valid.wide {s : Settings} (valid : s.Valid) : 2 ≤ s.timetable.period := by
  unfold Valid problem? at valid
  by_contra narrow
  have short : s.clock.period < 2 := by
    rw [UInt64.lt_iff_toNat_lt]
    exact Nat.lt_of_not_le narrow
  rw [if_pos short] at valid
  cases valid

theorem cycles_lt (s : Settings) : s.timetable.cycles < UInt64.size := s.stimulus.cycles.toNat_lt

end Settings

namespace Bench

variable {σ : Type} [WordSource σ]

theorem onCourse_start (s : Settings) (source : σ) (wide : 2 ≤ s.timetable.period) :
    OnCourse s source 0 .reset 0 (Bench.start (.new s source)) where
  standing := ⟨rfl, nofun, rfl, rfl, rfl, rfl⟩
  stands := ⟨rfl, rfl⟩
  due := rfl
  ordered := Agenda.ordered_add (a := Agenda.add [] ⟨0, .clock⟩)
    (Agenda.ordered_add List.Pairwise.nil _) ⟨0, .stimulus⟩
  rhythm := ⟨false, 0, ⟨rfl, rfl⟩, .start (Nat.lt_of_lt_of_le Nat.two_pos wide)⟩
  clock := rfl
  settled := (answered_start (answered_new s source)).settled fun l => by
    cases l <;> rfl
  idle := fun _ => rfl
  built := ⟨rfl, rfl, rfl, fun _ _ => Nat.zero_le _⟩
  now := rfl

theorem step_start (s : Settings) (source : σ) :
    (Bench.start (.new s source)).step = (Bench.new s source).step := rfl

theorem step_after_start (s : Settings) (source : σ) (k : Nat) :
    ((Bench.start (.new s source)).after k).step = ((Bench.new s source).after k).step := by
  cases k with
  | zero => rfl
  | succ k => rw [after_succ, after_succ, step_start]

theorem after_start (s : Settings) (source : σ) {k : Nat} (positive : 0 < k) :
    (Bench.start (.new s source)).after k = (Bench.new s source).after k := by
  obtain ⟨k, rfl⟩ := Nat.exists_eq_add_of_lt positive
  rw [after_succ, after_succ, step_start]

theorem told_start (s : Settings) (source : σ) (k : Nat) :
    (Bench.start (.new s source)).told k = (Bench.new s source).told k := by
  induction k with
  | zero => rfl
  | succ k ih => rw [told, told, ih, step_after_start]

variable {s : Settings} {source : σ}

variable (source) in
/-- As long as the steps lead on, the bench is on its course, and it has made no more steps than there
are instants and words behind it. -/
theorem course (wide : 2 ≤ s.timetable.period) (enough : 3 ≤ s.general.maxDeltaRounds.toNat) {k : Nat}
    (going : ∀ j < k, ∃ t, ((Bench.start (.new s source)).after j).step.result = .ok (.advanced t)) :
    ∃ since phase n,
      OnCourse s source since phase n ((Bench.start (.new s source)).after k) ∧ phase ≠ .done ∧
      since ≤ Instant.last ∧ k ≤ since + n ∧
      (0 < k → since = ((Bench.start (.new s source)).after k).now + 1) ∧
      ((Bench.start (.new s source)).told k).filter Event.isPresented = s.presentations source n := by
  induction k with
  | zero =>
    exact ⟨0, .reset, 0, onCourse_start s source wide, nofun, Nat.zero_le _, Nat.zero_le _, nofun, rfl⟩
  | succ k ih =>
    obtain ⟨since, phase, n, on, unfinished, early, bound, _, told⟩ :=
      ih fun j below => going j (Nat.lt_succ_of_lt below)
    obtain ⟨t, returned⟩ := going k (Nat.lt_succ_self k)
    have ends := on.step_ends wide enough unfinished
    rw [Turn.ends_iff_of_ok returned] at ends
    obtain ⟨phase', n', advances⟩ := ends
    refine ⟨_, phase', n', advances.on, ?_, advances.early, ?_, fun _ => rfl, ?_⟩
    · rintro rfl
      cases advances.outcome
    · exact Nat.le_trans (Nat.succ_le_succ bound) advances.grows
    · rw [Bench.told, List.filter_append, told]
      exact advances.told

end Bench

namespace Recording

variable {σ κ : Type} [WordSource σ] [Sink κ] {s : Settings} {source : σ}

theorem bench_goesOn {waveform : Option Waveform} {out : κ} {j : Nat}
    (going : (fresh s source waveform out).GoesOn j) :
    ∃ t, ((Bench.start (.new s source)).after j).step.result = .ok (.advanced t) := by
  obtain ⟨t, returned⟩ := going
  have simulated := bench_result_of_step_ok returned
  rw [after_bench] at simulated
  refine ⟨t, ?_⟩
  rw [Bench.step_after_start]
  exact simulated

/-- Some step of a run is the last one, and the run does make it. -/
theorem exists_last (source : σ) (wide : 2 ≤ s.timetable.period) (enough : 3 ≤ s.general.maxDeltaRounds.toNat)
    (waveform : Option Waveform) (out : κ) :
    ∃ k < maxSteps, (∀ j < k, (fresh s source waveform out).GoesOn j) ∧
      ¬(fresh s source waveform out).GoesOn k := by
  classical
  have bounded (k : Nat) (going : ∀ j < k, (fresh s source waveform out).GoesOn j) : k < maxSteps := by
    -- Each step has added an instant or a word, and there is an end to both.
    obtain ⟨since, phase, n, on, _, early, bound, _, _⟩ := Bench.course source wide enough
      fun j below => bench_goesOn (going j below)
    have words := on.stands.count_le
    have most := s.cycles_lt
    have early : since ≤ UInt64.size - 1 := early
    rw [maxSteps]
    omega
  have ends : ∃ k, ¬(fresh s source waveform out).GoesOn k := by
    by_contra endless
    have always : ∀ k, (fresh s source waveform out).GoesOn k := fun k =>
      Classical.not_not.mp fun ended => endless ⟨k, ended⟩
    exact Nat.lt_irrefl _ (bounded maxSteps fun j _ => always j)
  have going : ∀ j < Nat.find ends, (fresh s source waveform out).GoesOn j := fun j below =>
    Classical.not_not.mp (Nat.find_min ends below)
  exact ⟨Nat.find ends, bounded _ going, going, Nat.find_spec ends⟩

/-- The waveform makes no step fail: each has the result that the step of the bench has. -/
def Unbroken (r : Recording σ κ) : Prop :=
  ∀ k, (r.after k).step.result = (r.after k).bench.step.result

theorem step_of_none {r : Recording σ κ} (unrecorded : r.waveform = none) :
    r.step = ⟨{ r with bench := r.bench.step.state }, r.bench.step.events, r.bench.step.result⟩ := by
  unfold step sample finish
  dsimp only
  rw [unrecorded]
  split <;> rfl

theorem unbroken_of_none {r : Recording σ κ} (unrecorded : r.waveform = none) : r.Unbroken := by
  intro k
  have kept : (r.after k).waveform = none := by
    induction k with
    | zero => exact unrecorded
    | succ k ih =>
      rw [after, step_of_none ih]
      exact ih
  rw [step_of_none kept]

theorem unbroken_of_returns {r : Recording σ κ} {tally : Tally} (returns : r.run.result = .ok tally) :
    ∀ k < maxSteps, (∀ j < k, r.GoesOn j) → ¬r.GoesOn k →
      (r.after k).step.result = (r.after k).bench.step.result := by
  intro k below going ended
  have result := run_result going ended below
  rw [returns] at result
  cases returned : (r.after k).step.result with
  | error halt =>
    rw [returned] at result
    cases result
  | ok outcome => exact (bench_result_of_step_ok returned).symm

theorem run_presented {r : Recording σ κ} {k : Nat} (going : ∀ j < k, r.GoesOn j)
    (ended : ¬r.GoesOn k) (below : k < maxSteps) :
    r.run.events.filter Event.isPresented = (r.bench.told (k + 1)).filter Event.isPresented := by
  have report (holes : List Hole) (t : Instant) :
      (holes.map Event.uncovered ++ [Event.stopped t]).filter Event.isPresented = [] := by
    simp [Event.isPresented]
  rw [run, steps_eq going ended below]
  unfold Turn.andThen
  cases (r.after k).step.result with
  | error halt => rfl
  | ok outcome =>
    dsimp only [Except.map]
    rw [List.filter_append, report, List.append_nil]
    rfl

/-- The last step of a run, and what the run makes of it, unless it is the waveform that ends it. -/
theorem run_ends (source : σ) (wide : 2 ≤ s.timetable.period) (enough : 3 ≤ s.general.maxDeltaRounds.toNat)
    (waveform : Option Waveform) (out : κ)
    (unbroken : ∀ k < maxSteps, (∀ j < k, (fresh s source waveform out).GoesOn j) →
      ¬(fresh s source waveform out).GoesOn k →
        ((fresh s source waveform out).after k).step.result =
          ((fresh s source waveform out).after k).bench.step.result) :
    ∃ k since phase n,
      Bench.OnCourse s source since phase n ((Bench.start (.new s source)).after k) ∧
      phase ≠ .done ∧ (∀ j < k, (fresh s source waveform out).GoesOn j) ∧
      (fresh s source waveform out).run.state = (fresh s source waveform out).after (k + 1) ∧
      (fresh s source waveform out).run.Ends
        (fun d events tally => tally = d.bench.tally ∧
          events.filter Event.isPresented = s.presentations source s.timetable.cycles ∧
          ∃ more outcome,
            ((Bench.start (.new s source)).after k).step.result = .ok outcome ∧
            Bench.Advances s source since phase n .done s.timetable.cycles d.bench more outcome)
        fun d events halt => ∃ more,
          Bench.Halted s source since phase n ((Bench.start (.new s source)).after k) d.bench more halt ∧
          events.filter Event.isPresented =
            s.presentations source n ++ more.filter Event.isPresented := by
  obtain ⟨k, below, going, ended⟩ := exists_last source wide enough waveform out
  obtain ⟨since, phase, n, on, unfinished, _, _, _, told⟩ :=
    Bench.course source wide enough fun j below => bench_goesOn (going j below)
  have ends := on.step_ends wide enough unfinished
  have stepped : ((fresh s source waveform out).after k).bench.step =
      ((Bench.start (.new s source)).after k).step := by
    rw [after_bench, Bench.step_after_start]
    rfl
  have state : ((fresh s source waveform out).after (k + 1)).bench =
      ((Bench.start (.new s source)).after k).step.state := by
    rw [after, step_bench, stepped]
  have presented : (fresh s source waveform out).run.events.filter Event.isPresented =
      s.presentations source n ++
        ((Bench.start (.new s source)).after k).step.events.filter Event.isPresented := by
    have all : (fresh s source waveform out).bench.told (k + 1) =
        (Bench.start (.new s source)).told (k + 1) := (Bench.told_start s source (k + 1)).symm
    rw [run_presented going ended below, all, Bench.told, List.filter_append, told]
  have result := run_result going ended below
  rw [unbroken k below going ended, stepped] at result
  refine ⟨k, since, phase, n, on, unfinished, going, run_state going ended below, ?_⟩
  unfold Turn.Ends at ends ⊢
  rw [result]
  cases returned : ((Bench.start (.new s source)).after k).step.result with
  | error halt =>
    rw [returned] at ends
    dsimp only [Except.map]
    rw [run_state going ended below, presented, state]
    exact ⟨_, ends, rfl⟩
  | ok outcome =>
    rw [returned] at ends
    obtain ⟨phase', n', advances⟩ := ends
    -- A step that merely advances would not be the last one.
    obtain rfl : phase' = .done := by
      by_contra more
      have advanced := advances.outcome
      rw [if_neg more] at advanced
      rw [advanced] at returned
      exact ended ⟨_, (unbroken k below going ended).trans ((congrArg Turn.result stepped).trans returned)⟩
    obtain rfl : n' = s.timetable.cycles := advances.on.stands.1
    dsimp only [Except.map]
    rw [run_state going ended below, presented, state]
    exact ⟨rfl, advances.told, _, outcome, rfl, advances⟩

end Recording

end IdentifyBench

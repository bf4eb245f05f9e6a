import IdentifyBench.Proofs.Rounds
import IdentifyBench.Proofs.Schedule

/-! The clock's line as a function of time. The clock has no counter: what it does next, it reads off
its own line. Still no edge is skipped or made twice, whatever the stimulus does between the edges and
on them, since each step goes as far as the next edge at most, and toggles the line exactly if it gets
there. -/
namespace IdentifyBench

open WordSource

namespace Timetable

variable (p : Timetable)

def Toggles (t : Nat) : Prop := t % p.period = 0 ∨ t % p.period = p.period / 2

/-- How many times the clock's line rises before a time. -/
def risesBefore (t : Nat) : Nat := t ⌈/⌉ p.period

variable {p} {level : Bool} {since c t : Nat}

theorem toggles_iff (wide : 2 ≤ p.period) :
    p.Toggles t ↔ ∃ k, t = k * p.period ∨ t = k * p.period + p.period / 2 := by
  have split := Nat.div_add_mod' t p.period
  constructor
  · rintro (rises | falls)
    · exact ⟨t / p.period, .inl (by omega)⟩
    · exact ⟨t / p.period, .inr (by omega)⟩
  · rintro ⟨k, rfl | rfl⟩
    · exact .inl (Nat.mul_mod_left k p.period)
    · refine .inr ?_
      rw [Nat.mul_comm, Nat.mul_add_mod, Nat.mod_eq_of_lt (by omega)]

theorem risesBefore_eq {k : Nat} (positive : 0 < p.period) (above : k * p.period < t + p.period)
    (below : t ≤ k * p.period) : p.risesBefore t = k := by
  have next : (k + 1) * p.period = k * p.period + p.period := Nat.succ_mul k p.period
  rw [risesBefore, Nat.ceilDiv_eq_add_pred_div]
  exact Nat.div_eq_of_lt_le (by omega) (by omega)

theorem risesBefore_succ (positive : 0 < p.period) (t : Nat) :
    p.risesBefore (t + 1) = t / p.period + 1 := by
  rw [risesBefore, Nat.ceilDiv_eq_add_pred_div, Nat.add_assoc, Nat.add_comm 1, ← Nat.add_assoc,
    Nat.add_sub_cancel, Nat.add_div_right t positive]

theorem le_of_mul_lt {j k x : Nat} (below : j * p.period < k * p.period + x) (short : x ≤ p.period) :
    j ≤ k := by
  have whole : j * p.period < (k + 1) * p.period := by
    rw [Nat.succ_mul]
    omega
  exact Nat.le_of_lt_succ (Nat.lt_of_mul_lt_mul_right whole)

namespace Wave

theorem le_fall (positive : 0 < p.period) (wave : p.Wave level since c) {k : Nat}
    (le : since ≤ k * p.period + p.period / 2) : c ≤ k * p.period + p.period / 2 := by
  cases level with
  | true =>
    obtain ⟨j, rfl, begun, _⟩ := wave
    have order : j ≤ k := le_of_mul_lt (p := p) (x := p.period / 2) (by omega) (by omega)
    have scaled := Nat.mul_le_mul_right p.period order
    omega
  | false =>
    obtain ⟨j, rfl, begun, _⟩ := wave
    have order : j ≤ k := le_of_mul_lt (p := p) (x := p.period) (by omega) (Nat.le_refl _)
    have scaled := Nat.mul_le_mul_right p.period order
    omega

theorem toggles (wide : 2 ≤ p.period) (wave : p.Wave level since c) : p.Toggles c := by
  rw [toggles_iff wide]
  cases level with
  | true =>
    obtain ⟨k, due, _⟩ := wave
    exact ⟨k, .inr due⟩
  | false =>
    obtain ⟨k, due, _⟩ := wave
    exact ⟨k, .inl due⟩

theorem le_toggles (wide : 2 ≤ p.period) (wave : p.Wave level since c) (le : since ≤ t)
    (edge : p.Toggles t) : c ≤ t := by
  have positive : 0 < p.period := by omega
  obtain ⟨k, rfl | rfl⟩ := (toggles_iff wide).mp edge
  · exact wave.le_edge positive (Dvd.intro_left k rfl) le
  · exact wave.le_fall positive le

theorem level_eq (wave : p.Wave level (t + 1) c) :
    level = decide (t % p.period < p.period / 2) := by
  cases level with
  | true =>
    obtain ⟨k, rfl, begun, ahead⟩ := wave
    obtain ⟨r, rfl⟩ := Nat.exists_eq_add_of_le (Nat.le_of_lt_succ begun)
    rw [Nat.mul_comm k, Nat.mul_add_mod, Nat.mod_eq_of_lt (by omega)]
    exact (decide_eq_true (by omega)).symm
  | false =>
    obtain ⟨k, rfl, begun, ahead⟩ := wave
    -- The rise that is due is not the first one.
    obtain ⟨k, rfl⟩ : ∃ j, k = j + 1 := Nat.exists_eq_succ_of_ne_zero fun zero => by
      rw [zero, Nat.zero_mul] at ahead
      omega
    rw [Nat.succ_mul] at begun ahead
    obtain ⟨r, rfl⟩ : ∃ r, t = k * p.period + r := Nat.exists_eq_add_of_le (by omega)
    rw [Nat.mul_comm k, Nat.mul_add_mod, Nat.mod_eq_of_lt (by omega)]
    exact (decide_eq_false (by omega)).symm

/-- On the way to the next toggle there is one more rise exactly if that is a rise, and reached. -/
theorem risesBefore (positive : 0 < p.period) (wave : p.Wave level since c) (recent : since ≤ t + 1)
    (sooner : t ≤ c) :
    p.risesBefore (t + 1) = p.risesBefore since + (decide (level = false ∧ c = t)).toNat := by
  cases level with
  | true =>
    obtain ⟨k, rfl, begun, ahead⟩ := wave
    have next : (k + 1) * p.period = k * p.period + p.period := Nat.succ_mul k p.period
    rw [risesBefore_eq (k := k + 1) positive (by omega) (by omega),
      risesBefore_eq (k := k + 1) positive (by omega) (by omega), decide_eq_false nofun]
    rfl
  | false =>
    obtain ⟨k, rfl, begun, ahead⟩ := wave
    have next : (k + 1) * p.period = k * p.period + p.period := Nat.succ_mul k p.period
    rw [risesBefore_eq (t := since) positive (by omega) ahead]
    by_cases rises : k * p.period = t
    · rw [risesBefore_eq (k := k + 1) positive (by omega) (by omega), decide_eq_true ⟨rfl, rises⟩]
      rfl
    · rw [risesBefore_eq (k := k) positive (by omega) (by omega),
        decide_eq_false fun both => rises both.2]
      rfl

end Wave

end Timetable

/-- The part of a tally that does not come from what was observed. -/
def Tally.activity (t : Tally) : Tally :=
  { Tally.empty with
    simTime := t.simTime, clockCycles := t.clockCycles, wordsIssued := t.wordsIssued
    stageEvaluations := t.stageEvaluations }

theorem Tally.activity_record (t : Tally) (o : Observation) : (t.record o).activity = t.activity := by
  unfold record
  rw [classify_eq]
  rfl

namespace Bench

variable {σ : Type}

theorem activity_observe (b : Bench σ) : b.observe.state.tally.activity = b.tally.activity := by
  unfold observe
  split
  · rfl
  · exact Tally.activity_record _ _

theorem activity_rest (b : Bench σ) (round : Nat) (due : Bool) :
    (b.rest round due).state.tally.activity = b.tally.activity := by
  unfold rest
  cases due with
  | false => rfl
  | true => exact activity_observe _

theorem clockCycles_edge (b : Bench σ) (moved : LineSet) :
    (b.edge moved).tally.clockCycles =
      b.tally.clockCycles + (moved.contains .clock && b.bus.clock.level).toNat := by
  unfold edge
  cases moved.contains .clock && b.bus.clock.level with
  | true =>
    dsimp only
    rw [if_pos rfl]
    split <;> rfl
  | false => rfl

theorem clockCycles_concluded (d : Bench σ) :
    d.concluded.tally.clockCycles =
      d.tally.clockCycles + (d.moved.contains .clock && d.bus.next .clock).toNat := by
  have rested := activity_rest d.reacted.commit d.rounds d.watched
  have counted := clockCycles_edge (d.commit.respond d.moved).1 d.moved
  have responded : (d.commit.respond d.moved).1.tally.clockCycles = d.tally.clockCycles := by
    rw [respond_state]
    rfl
  rw [respond_clock, responded] at counted
  exact (congrArg Tally.clockCycles rested).trans counted

/-- The first instant that the first so many steps have not simulated. -/
def since (b : Bench σ) [WordSource σ] : Nat → Nat
  | 0 => 0
  | k + 1 => (b.after (k + 1)).now + 1

structure Beats (p : Timetable) (since : Nat) (b e : Bench σ) : Prop where
  recent : since ≤ e.now + 1
  sooner : ∀ t, since ≤ t → p.Toggles t → e.now ≤ t
  moves : e.bus.level .clock ≠ b.bus.level .clock ↔ since ≤ e.now ∧ p.Toggles e.now
  counts : b.tally.clockCycles = p.risesBefore since →
    e.tally.clockCycles = p.risesBefore (e.now + 1)

theorem Beats.congr {p : Timetable} {since : Nat} {b b' e e' : Bench σ} (beats : Beats p since b e)
    (bus : b'.bus = b.bus) (tally : b'.tally = b.tally) (now' : e'.now = e.now) (bus' : e'.bus = e.bus)
    (tally' : e'.tally = e.tally) : Beats p since b' e' := by
  obtain ⟨recent, sooner, moves, counts⟩ := beats
  rw [← now'] at recent sooner moves counts
  rw [← bus, ← bus'] at moves
  rw [← tally, ← tally'] at counts
  exact ⟨recent, sooner, moves, counts⟩

theorem beats_of_same (p : Timetable) (b : Bench σ) : Beats p (b.now + 1) b b where
  recent := Nat.le_refl _
  sooner t later _ := Nat.le_of_succ_le later
  moves := by simp
  counts counted := counted

variable [WordSource σ] {s : Settings} {source : σ} {since n n' c : Nat} {phase phase' phase'' : Phase}
  {b d : Bench σ} {level toggled : Bool}

theorem Underway.clock_levels (under : Underway s source since level c toggled phase n d)
    (clockOver : c = d.now → toggled = true) :
    d.bus.level .clock = level ∧ d.bus.next .clock = if c = d.now then !level else level := by
  have ticks := under.ticks
  cases toggled with
  | false =>
    rw [if_neg fun due => nomatch clockOver due]
    exact ⟨congrArg Wire.level ticks.1, congrArg Wire.next ticks.1⟩
  | true =>
    rw [if_pos ticks.1]
    exact ⟨congrArg Wire.level ticks.2.1, congrArg Wire.next ticks.2.1⟩

/-- An instant goes as far as the next toggle at most, and the line toggles exactly if it is reached. -/
theorem Passage.beats (passage : Passage s source since n b d level c toggled phase' phase'' n') :
    Beats s.timetable since b b.step.state := by
  have under := passage.under
  have wide := under.wide
  have positive : 0 < s.timetable.period := Nat.lt_of_lt_of_le Nat.two_pos wide
  obtain ⟨before, after⟩ := under.clock_levels passage.clockOver
  have levelBefore : b.bus.level .clock = level := (passage.frame.bus.levels .clock).symm.trans before
  have levelAfter : d.concluded.bus.level .clock = d.bus.next .clock := by
    rw [level_concluded, Bus.next, Wire.next_of_pending_none (d.reacted_inputsQuiet .clock (by decide))]
    exact level_reacted d .clock
  rw [passage.state]
  constructor
  · rw [concluded_now]
    exact under.recent
  · rw [concluded_now]
    exact fun t later edge => Nat.le_trans under.sooner (under.wave.le_toggles wide later edge)
  · rw [concluded_now, levelAfter, after, levelBefore]
    constructor
    · intro moves
      have due : c = d.now := by
        by_contra early
        rw [if_neg early] at moves
        exact moves rfl
      exact due ▸ ⟨under.wave.since_le, under.wave.toggles wide⟩
    · rintro ⟨later, edge⟩
      have due := Nat.le_antisymm (under.wave.le_toggles wide later edge) under.sooner
      rw [if_pos due]
      exact Bool.not_ne_self level
  · intro counted
    have tally : d.tally.clockCycles = b.tally.clockCycles := by
      rw [passage.frame.tally]
    have rises : (d.moved.contains .clock && d.bus.next .clock) = decide (level = false ∧ c = d.now) := by
      rw [Bool.eq_iff_iff, decide_eq_true_iff]
      exact Bool.and_eq_true_iff.trans (under.rises_iff passage.clockOver)
    rw [concluded_now, clockCycles_concluded, tally, counted, rises,
      under.wave.risesBefore positive under.recent under.sooner]

theorem OnCourse.stopped_of_done (on : OnCourse s source since .done n b) : b.stopped = true :=
  on.standing.stopped

variable (source) in
/-- As long as the steps return, the bench is on its course, after the stop too. -/
theorem course_of_ok (wide : 2 ≤ s.timetable.period) (enough : 3 ≤ s.general.maxDeltaRounds.toNat)
    {k : Nat}
    (returned : ∀ j < k, ∃ outcome,
      ((Bench.start (.new s source)).after j).step.result = .ok outcome) :
    ∃ phase n, OnCourse s source ((Bench.start (.new s source)).since k) phase n
      ((Bench.start (.new s source)).after k) := by
  induction k with
  | zero => exact ⟨.reset, 0, onCourse_start s source wide⟩
  | succ k ih =>
    obtain ⟨phase, n, on⟩ := ih fun j below => returned j (Nat.lt_succ_of_lt below)
    obtain ⟨outcome, returns⟩ := returned k (Nat.lt_succ_self k)
    by_cases done : phase = .done
    · subst done
      have same := after_of_stopped on.stopped_of_done (Nat.le_succ k)
      cases k with
      | zero => cases on.stopped_of_done
      | succ k =>
        refine ⟨.done, n, ?_⟩
        rw [Bench.since, same]
        exact on
    · obtain ⟨d, _, _, _, _, phase'', n', passage⟩ := on.passage wide enough done returns
      refine ⟨phase'', n', ?_⟩
      have on' := passage.on
      rw [← d.concluded_now, ← passage.state] at on'
      exact on'

theorem beats_of_ok (wide : 2 ≤ s.timetable.period) (enough : 3 ≤ s.general.maxDeltaRounds.toNat)
    {k : Nat}
    (returned : ∀ j ≤ k, ∃ outcome,
      ((Bench.start (.new s source)).after j).step.result = .ok outcome) :
    Beats s.timetable ((Bench.start (.new s source)).since k) ((Bench.start (.new s source)).after k)
      ((Bench.start (.new s source)).after (k + 1)) := by
  obtain ⟨phase, n, on⟩ := course_of_ok source wide enough fun j below => returned j (Nat.le_of_lt below)
  obtain ⟨outcome, returns⟩ := returned k (Nat.le_refl k)
  by_cases done : phase = .done
  · subst done
    rw [after_of_stopped on.stopped_of_done (Nat.le_succ k)]
    cases k with
    | zero => cases on.stopped_of_done
    | succ k => exact beats_of_same _ _
  · obtain ⟨_, _, _, _, _, _, _, passage⟩ := on.passage wide enough done returns
    exact passage.beats

theorem OnCourse.clock_level (on : OnCourse s source (b.now + 1) phase n b) :
    b.bus.level .clock = decide (b.now % s.timetable.period < s.timetable.period / 2) := by
  obtain ⟨level, c, ticks, wave⟩ := on.rhythm
  exact (congrArg Wire.level ticks.1).trans wave.level_eq

section

variable {p : Timetable} {m : Nat}
  (beats : ∀ k ≤ m, Beats p (b.since k) (b.after k) (b.after (k + 1)))

include beats

theorem since_mono {j k : Nat} (le : j ≤ k) (within : k ≤ m + 1) : b.since j ≤ b.since k := by
  induction le with
  | refl => exact Nat.le_refl _
  | step le ih =>
    rename_i k
    exact Nat.le_trans (ih (Nat.le_of_succ_le within)) (beats k (Nat.le_of_succ_le_succ within)).recent

/-- Every edge that is not ahead has been made by one of the steps, and by no other. -/
theorem toggled_once {t : Nat} (reached : t ≤ (b.after (m + 1)).now) (edge : p.Toggles t) :
    ∃! k, k ≤ m ∧ (b.after (k + 1)).now = t ∧
      (b.after (k + 1)).bus.level .clock ≠ (b.after k).bus.level .clock := by
  obtain ⟨k, below, begun, passed⟩ : ∃ k < m + 1, b.since k ≤ t ∧ t < b.since (k + 1) :=
    exists_crossing (Nat.zero_le t) (Nat.lt_succ_of_le reached)
  have within := Nat.le_of_lt_succ below
  have now : (b.after (k + 1)).now = t :=
    Nat.le_antisymm ((beats k within).sooner t begun edge) (Nat.le_of_lt_succ passed)
  refine ⟨k, ⟨within, now, (beats k within).moves.mpr ?_⟩, ?_⟩
  · rw [now]
    exact ⟨begun, edge⟩
  · rintro j ⟨within', now', moves⟩
    have begun' : b.since j ≤ t := now' ▸ ((beats j within').moves.mp moves).1
    -- Once a step has reached the edge, the time that is left lies after it.
    have passed' : t < b.since (j + 1) := Nat.lt_succ_of_le (Nat.le_of_eq now'.symm)
    rcases Nat.lt_trichotomy j k with before | same | later
    · have order := since_mono beats (Nat.succ_le_of_lt before) (Nat.le_succ_of_le within)
      exact absurd (Nat.lt_of_lt_of_le passed' (Nat.le_trans order begun)) (Nat.lt_irrefl t)
    · exact same
    · have order := since_mono beats (Nat.succ_le_of_lt later) (Nat.le_succ_of_le within')
      exact absurd (Nat.lt_of_lt_of_le passed (Nat.le_trans order begun')) (Nat.lt_irrefl t)

theorem counted_rises (start : b.tally.clockCycles = 0) {k : Nat} (within : k ≤ m + 1) :
    (b.after k).tally.clockCycles = p.risesBefore (b.since k) := by
  induction k with
  | zero =>
    rw [Timetable.risesBefore, Bench.since, zero_ceilDiv]
    exact start
  | succ k ih =>
    exact (beats k (Nat.le_of_succ_le_succ within)).counts (ih (Nat.le_of_succ_le within))

end

theorem after_start_same (s : Settings) (source : σ) (k : Nat) :
    ((Bench.start (.new s source)).after k).now = ((Bench.new s source).after k).now ∧
      ((Bench.start (.new s source)).after k).bus = ((Bench.new s source).after k).bus ∧
      ((Bench.start (.new s source)).after k).tally = ((Bench.new s source).after k).tally := by
  rcases Nat.eq_zero_or_pos k with rfl | positive
  · exact ⟨rfl, rfl, rfl⟩
  · rw [after_start s source positive]
    exact ⟨rfl, rfl, rfl⟩

end Bench

def Settings.patient (s : Settings) : Settings := s.allowing 18446744073709551615

theorem Settings.patient_rounds (s : Settings) : 3 ≤ s.patient.general.maxDeltaRounds.toNat :=
  show 3 ≤ (18446744073709551615 : UInt64).toNat by decide

namespace Recording

variable {σ κ : Type} [WordSource σ] [Sink κ]

section

variable {s : Settings} {source : σ} {waveform : Option Waveform} {out : κ} {n : Nat}
  (returned : ∀ k < n, ∃ outcome, ((fresh s source waveform out).after k).step.result = .ok outcome)

include returned

/-- The budget decides only whether the steps return: with the largest one they return as well. -/
theorem patient_returned :
    ∀ k < n, ∃ outcome, ((Bench.start (.new s.patient source)).after k).step.result = .ok outcome := by
  have widest : s.general.maxDeltaRounds ≤ 18446744073709551615 :=
    UInt64.le_iff_toNat_le.mpr (Nat.le_of_lt_succ s.general.maxDeltaRounds.toNat_lt)
  have returned' (k : Nat) (below : k < n) : ∃ outcome,
      ((fresh s.patient source waveform out).after k).step.result = .ok outcome := by
    obtain ⟨outcome, returns⟩ := returned k below
    have like := (like_allowing s source waveform out widest).after fun i before =>
      returned i (Nat.lt_trans before below)
    exact ⟨outcome, (like.step (bench_result_of_step_ok returns)).result.trans returns⟩
  exact bench_returned returned'

theorem patient_same {k : Nat} (within : k ≤ n) :
    ((Bench.start (.new s.patient source)).after k).now = ((Bench.new s source).after k).now ∧
      ((Bench.start (.new s.patient source)).after k).bus = ((Bench.new s source).after k).bus ∧
      ((Bench.start (.new s.patient source)).after k).tally = ((Bench.new s source).after k).tally := by
  have widest : s.general.maxDeltaRounds ≤ 18446744073709551615 :=
    UInt64.le_iff_toNat_le.mpr (Nat.le_of_lt_succ s.general.maxDeltaRounds.toNat_lt)
  obtain ⟨now, bus, tally⟩ := Bench.after_start_same s.patient source k
  obtain ⟨d, like, same⟩ := (like_allowing s source waveform out widest).after fun i below =>
    returned i (Nat.lt_of_lt_of_le below within)
  have bench : (Bench.new s.patient source).after k = d :=
    (after_bench (fresh s.patient source waveform out) k).symm.trans (congrArg Recording.bench same)
  rw [after_bench] at like
  rw [now, bus, tally, bench]
  exact ⟨like.now, like.bus, like.tally⟩

theorem patient_since {k : Nat} (within : k ≤ n) :
    (Bench.start (.new s.patient source)).since k = (Bench.new s source).since k := by
  cases k with
  | zero => rfl
  | succ k => exact congrArg (· + 1) (patient_same returned within).1

theorem beats_of_returned (wide : 2 ≤ s.timetable.period) {k : Nat} (below : k < n) :
    Bench.Beats s.timetable ((Bench.new s source).since k) ((Bench.new s source).after k)
      ((Bench.new s source).after (k + 1)) := by
  have returns := patient_returned returned
  have beats := Bench.beats_of_ok (s := s.patient) wide s.patient_rounds
    fun j before => returns j (Nat.lt_of_le_of_lt before below)
  obtain ⟨_, bus, tally⟩ := patient_same returned (Nat.le_of_lt below)
  obtain ⟨now', bus', tally'⟩ := patient_same returned (Nat.succ_le_of_lt below)
  rw [patient_since returned (Nat.le_of_lt below)] at beats
  exact beats.congr bus.symm tally.symm now'.symm bus'.symm tally'.symm

theorem clock_level (wide : 2 ≤ s.timetable.period) (positive : 0 < n) :
    ((Bench.new s source).after n).bus.level .clock =
      decide (((Bench.new s source).after n).now % s.timetable.period < s.timetable.period / 2) := by
  obtain ⟨n, rfl⟩ := Nat.exists_eq_succ_of_ne_zero (Nat.ne_of_gt positive)
  obtain ⟨phase, words, on⟩ := Bench.course_of_ok (s := s.patient) source wide s.patient_rounds
    (patient_returned returned)
  obtain ⟨now, bus, _⟩ := patient_same returned (Nat.le_refl _)
  rw [← now, ← bus]
  exact Bench.OnCourse.clock_level (s := s.patient) on

end

/-- The clock's law. After every step of a run whose steps return, the clock's line is high exactly in
the first half of its period, and the tally has counted every rise up to then. Each multiple of the
period, and each instant half a period after one, has been reached by a step that toggled the line there,
unless it lies ahead, and by no other step. The line has not been toggled anywhere else. -/
theorem clock_law (s : Settings) (source : σ) (waveform : Option Waveform) (out : κ) (valid : s.Valid)
    (n : Nat)
    (returned : ∀ k ≤ n, ∃ outcome,
      ((fresh s source waveform out).after k).step.result = .ok outcome) :
    let b k := ((fresh s source waveform out).after k).bench
    let period := s.clock.period.toNat
    (b (n + 1)).bus.level .clock = decide ((b (n + 1)).now % period < period / 2) ∧
    (b (n + 1)).tally.clockCycles = (b (n + 1)).now / period + 1 ∧
    (∀ t ≤ (b (n + 1)).now, t % period = 0 ∨ t % period = period / 2 →
      ∃! k, k ≤ n ∧ (b (k + 1)).now = t ∧
        (b (k + 1)).bus.level .clock ≠ (b k).bus.level .clock) ∧
    ∀ k ≤ n, (b (k + 1)).bus.level .clock ≠ (b k).bus.level .clock →
      (b (k + 1)).now % period = 0 ∨ (b (k + 1)).now % period = period / 2 := by
  intro b period
  have wide : 2 ≤ s.timetable.period := valid.wide
  have bench : b = (Bench.new s source).after := funext fun k => after_bench _ k
  have returned : ∀ k < n + 1, ∃ outcome,
      ((fresh s source waveform out).after k).step.result = .ok outcome :=
    fun k below => returned k (Nat.le_of_lt_succ below)
  have beats : ∀ k ≤ n, Bench.Beats s.timetable _ _ _ := fun k within =>
    beats_of_returned returned wide (Nat.lt_succ_of_le within)
  have counted := Bench.counted_rises beats rfl (Nat.le_refl _)
  rw [Bench.since, Timetable.risesBefore_succ (Nat.lt_of_lt_of_le Nat.two_pos wide)] at counted
  rw [bench]
  exact ⟨clock_level returned wide (Nat.succ_pos n), counted,
    fun t reached edge => Bench.toggled_once beats reached edge,
    fun k within moves => ((beats k within).moves.mp moves).2⟩

/-- An odd period, of which the low phase takes the spare picosecond. -/
theorem clock_law_of_odd_period :
    ∃ r : Recording (List Word) Memory,
      r = fresh { Settings.immediate 2 with clock := { period := 3 } } [5, 7] none (.empty none) ∧
      (∀ k ≤ 3, (r.after k).step.result.isOk = true) ∧ (r.after 4).bench.now = 3 ∧
      (r.after 4).bench.bus.level .clock = true ∧ (r.after 4).bench.tally.clockCycles = 2 ∧
      ∃! k, k ≤ 3 ∧ (r.after (k + 1)).bench.now = 1 ∧
        (r.after (k + 1)).bench.bus.level .clock ≠ (r.after k).bench.bus.level .clock := by
  obtain ⟨s, odd⟩ : ∃ s : Settings, s = { Settings.immediate 2 with clock := { period := 3 } } := ⟨_, rfl⟩
  obtain ⟨r, same⟩ : ∃ r : Recording (List Word) Memory, r = fresh s [5, 7] none (.empty none) := ⟨_, rfl⟩
  have valid : s.Valid := by
    rw [odd]
    decide
  have period : s.clock.period.toNat = 3 := by rw [odd]; rfl
  have returned : ∀ k ≤ 3, (r.after k).step.result.isOk = true := by
    rw [same, odd]
    decide +kernel
  have now : (r.after 4).bench.now = 3 := by
    rw [same, odd]
    decide +kernel
  have law := clock_law s ([5, 7] : List Word) none (Memory.empty none) valid 3
  rw [← same] at law
  obtain ⟨level, counted, visited, _⟩ := law fun k within => Turn.exists_of_isOk (returned k within)
  rw [now, period] at level counted visited
  exact ⟨r, same.trans (by rw [odd]), returned, now, level, counted, visited 1 (by decide) (.inr rfl)⟩

end Recording

end IdentifyBench

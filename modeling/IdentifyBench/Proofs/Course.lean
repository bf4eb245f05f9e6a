import IdentifyBench.Proofs.Timetable

/-! Where clock and stimulus may stand in the course of a run, as predicates on times. `since` is the
first instant that has not been simulated yet. The transitions say how one instant leads from one
place to the next. -/
namespace IdentifyBench.Timetable

variable (p : Timetable)

/-- The clock line is at a level and toggles next at `c`: an edge was before `since` and the line
falls half a period after it, or the line has fallen and the next edge is due. -/
def Wave : Bool → Nat → Nat → Prop
  | true, since, c => ∃ k, c = k * p.period + p.period / 2 ∧ k * p.period < since ∧ since ≤ c
  | false, since, c => ∃ k, c = k * p.period ∧ c + p.period / 2 < since + p.period ∧ since ≤ c

/-- The time that the stimulus will be woken at, in a phase and after so many words. -/
def wake? : Phase → Nat → Option Nat
  | .reset, _ => some 0
  | .release, _ => some p.reset
  | .enable, _ => some p.enable
  | .awaitFetch, _ => none
  | .present, n => some (p.word (n + 1))
  | .done, _ => none

/-- Where the stimulus may stand once the instants before `since` have been simulated. A word that is
presented without delay is still due at the instant simulated last. -/
def Stands (since : Nat) : Phase → Nat → Prop
  | .reset, n => n = 0 ∧ since = 0
  | .release, n => n = 0 ∧ since ≤ p.reset
  | .enable, n => n = 0 ∧ p.reset < since ∧ since ≤ p.enable
  | .awaitFetch, n =>
    n < p.cycles ∧ p.word n < since ∧ since ≤ p.edge n ∧ p.edge n < since + p.period
  | .present, n => n < p.cycles ∧ p.edge n < since ∧ since ≤ p.edge n + max 1 p.fetch
  | .done, n => n = p.cycles ∧ p.word n < since

/-- Where the stimulus may stand while the instant `now` goes on, on which the clock rises or not. -/
def Passes (since now : Nat) (rises : Prop) : Phase → Nat → Prop
  | .reset, n => n = 0 ∧ since ≤ now ∧ now = 0
  | .release, n => n = 0 ∧ since ≤ now ∧ now ≤ p.reset
  | .enable, n => n = 0 ∧ since ≤ now ∧ p.reset ≤ now ∧ now ≤ p.enable
  | .awaitFetch, n =>
    n < p.cycles ∧ p.word n ≤ now ∧ (rises → now = p.edge n) ∧
      (¬rises → now < p.edge n ∧ p.edge n ≤ now + p.period)
  | .present, n =>
    n < p.cycles ∧ now ≤ p.word (n + 1) ∧ p.edge n < since ∧ since ≤ p.edge n + max 1 p.fetch
  | .done, n => n = p.cycles ∧ p.word n ≤ now

variable {p} {level : Bool} {since now c : Nat}

theorem eq_of_dvd_of_lt {s t : Nat} (first : p.period ∣ s) (second : p.period ∣ t) (le : s ≤ t)
    (lt : t < s + p.period) : s = t := by
  obtain ⟨j, rfl⟩ := first
  obtain ⟨k, rfl⟩ := second
  have positive : 0 < p.period := by omega
  rw [← Nat.mul_succ] at lt
  have upper : k < j + 1 := Nat.lt_of_mul_lt_mul_left lt
  have lower : j ≤ k := Nat.le_of_mul_le_mul_left le positive
  rw [show j = k by omega]

namespace Wave

theorem since_le (wave : p.Wave level since c) : since ≤ c := by
  cases level with
  | true =>
    obtain ⟨_, _, _, bound⟩ := wave
    exact bound
  | false =>
    obtain ⟨_, _, _, bound⟩ := wave
    exact bound

theorem later (wave : p.Wave level since c) {t : Nat} (le : since ≤ t) (sooner : t ≤ c) :
    p.Wave level t c := by
  cases level with
  | true =>
    obtain ⟨k, toggles, begun, _⟩ := wave
    exact ⟨k, toggles, by omega, sooner⟩
  | false =>
    obtain ⟨k, toggles, begun, _⟩ := wave
    exact ⟨k, toggles, by omega, sooner⟩

theorem dvd_of_low (wave : p.Wave false since c) : p.period ∣ c := by
  obtain ⟨k, rfl, _⟩ := wave
  exact Dvd.intro_left k rfl

theorem le_edge (positive : 0 < p.period) (wave : p.Wave level since c) {e : Nat}
    (rising : p.period ∣ e) (le : since ≤ e) : c ≤ e := by
  obtain ⟨m, rfl⟩ := rising
  cases level with
  | true =>
    obtain ⟨k, rfl, begun, _⟩ := wave
    have before : p.period * k < p.period * m := by
      rw [Nat.mul_comm p.period k]
      omega
    have whole := Nat.mul_le_mul_left p.period (Nat.lt_of_mul_lt_mul_left before)
    rw [Nat.mul_succ, Nat.mul_comm p.period k] at whole
    omega
  | false =>
    obtain ⟨k, rfl, begun, _⟩ := wave
    have before : p.period * k < p.period * (m + 1) := by
      rw [Nat.mul_succ, Nat.mul_comm p.period k]
      omega
    have whole := Nat.mul_le_mul_left p.period (Nat.le_of_lt_succ (Nat.lt_of_mul_lt_mul_left before))
    rw [Nat.mul_comm p.period k] at whole
    exact whole

theorem rises_of_dvd (positive : 0 < p.period) (wave : p.Wave level since c) (rising : p.period ∣ now)
    (le : since ≤ now) (sooner : now ≤ c) : level = false ∧ c = now := by
  have bound := wave.le_edge positive rising le
  refine ⟨?_, by omega⟩
  cases level with
  | false => rfl
  | true =>
    obtain ⟨k, rfl, begun, _⟩ := wave
    have same : k * p.period = now :=
      eq_of_dvd_of_lt (Dvd.intro_left k rfl) rising (by omega) (by omega)
    omega

theorem start (positive : 0 < p.period) : p.Wave false 0 0 := ⟨0, by omega⟩

theorem toggle (wide : 2 ≤ p.period) (wave : p.Wave level since c) :
    p.Wave (!level) (c + 1) (c + ((Clock.ofPeriod p.period).toggle level).2) := by
  cases level with
  | true =>
    obtain ⟨k, rfl, _, _⟩ := wave
    have low : ((Clock.ofPeriod p.period).toggle true).2 = p.period - p.period / 2 := rfl
    have next : (k + 1) * p.period = k * p.period + p.period := Nat.succ_mul _ _
    rw [low]
    exact ⟨k + 1, by omega, by omega, by omega⟩
  | false =>
    obtain ⟨k, rfl, _, _⟩ := wave
    have high : ((Clock.ofPeriod p.period).toggle false).2 = p.period / 2 := rfl
    rw [high]
    exact ⟨k, rfl, by omega, by omega⟩

end Wave

def Rises (level : Bool) (c now : Nat) : Prop := level = false ∧ c = now

theorem Stands.passes (positive : 0 < p.period) {phase : Phase} {n : Nat}
    (stands : p.Stands since phase n) (wave : p.Wave level since c) (going : phase ≠ .done)
    (next : now = (p.wake? phase n).elim c (min c)) :
    p.Passes since now (Rises level c now) phase n := by
  have bound := wave.since_le
  cases phase with
  | reset =>
    obtain ⟨first, start⟩ := stands
    simp only [wake?, Option.elim] at next
    exact ⟨first, by omega, by omega⟩
  | release =>
    obtain ⟨first, reset⟩ := stands
    simp only [wake?, Option.elim] at next
    exact ⟨first, by omega, by omega⟩
  | enable =>
    obtain ⟨first, released, settling⟩ := stands
    simp only [wake?, Option.elim] at next
    exact ⟨first, by omega, by omega, by omega⟩
  | awaitFetch =>
    obtain ⟨more, presented, ahead, close⟩ := stands
    simp only [wake?, Option.elim] at next
    subst next
    have sooner := wave.le_edge positive (dvd_edge n) ahead
    refine ⟨more, by omega, ?_, ?_⟩
    · rintro ⟨low, _⟩
      subst low
      exact eq_of_dvd_of_lt wave.dvd_of_low (dvd_edge n) sooner (by omega)
    · intro still
      have different : now ≠ p.edge n := by
        intro same
        exact still (wave.rises_of_dvd positive (same ▸ dvd_edge n) bound (Nat.le_refl _))
      omega
  | present =>
    obtain ⟨more, fetched, presenting⟩ := stands
    simp only [wake?, Option.elim] at next
    exact ⟨more, by omega, fetched, presenting⟩
  | done => exact absurd rfl going

theorem Stands.le_wake_succ {phase : Phase} {n u : Nat} (stands : p.Stands since phase n)
    (due : p.wake? phase n = some u) : since ≤ u + 1 := by
  cases phase with
  | reset =>
    obtain ⟨_, start⟩ := stands
    omega
  | release =>
    cases due
    exact Nat.le_succ_of_le stands.2
  | enable =>
    cases due
    exact Nat.le_succ_of_le stands.2.2
  | awaitFetch => cases due
  | present =>
    cases due
    have bound := stands.2.2
    rw [word]
    omega
  | done => cases due

theorem Stands.count_le {phase : Phase} {n : Nat} (stands : p.Stands since phase n) : n ≤ p.cycles := by
  cases phase with
  | reset => exact Nat.le_trans (Nat.le_of_eq stands.1) (Nat.zero_le _)
  | release => exact Nat.le_trans (Nat.le_of_eq stands.1) (Nat.zero_le _)
  | enable => exact Nat.le_trans (Nat.le_of_eq stands.1) (Nat.zero_le _)
  | awaitFetch => exact Nat.le_of_lt stands.1
  | present => exact Nat.le_of_lt stands.1
  | done => exact Nat.le_of_eq stands.1

/-- Only a word without delay brings a second step at one instant. -/
theorem Stands.overdue {phase : Phase} {n : Nat} (stands : p.Stands since phase n)
    (wave : p.Wave level since c) (next : now = (p.wake? phase n).elim c (min c))
    (again : now < since) : n < p.cycles ∧ now = p.word (n + 1) := by
  have bound := wave.since_le
  cases phase with
  | reset =>
    obtain ⟨_, start⟩ := stands
    omega
  | release =>
    obtain ⟨_, ahead⟩ := stands
    simp only [wake?, Option.elim] at next
    omega
  | enable =>
    obtain ⟨_, _, ahead⟩ := stands
    simp only [wake?, Option.elim] at next
    omega
  | awaitFetch =>
    simp only [wake?, Option.elim] at next
    omega
  | present =>
    simp only [wake?, Option.elim] at next
    exact ⟨stands.1, by omega⟩
  | done =>
    simp only [wake?, Option.elim] at next
    omega

theorem Stands.word_lt (positive : 0 < p.period) {n : Nat} {phase : Phase}
    (stands : p.Stands since phase n) (issued : 0 < n) : p.word n < since := by
  have fetched := word_le_edge positive n
  cases phase with
  | reset => exact absurd stands.1 (Nat.ne_of_gt issued)
  | release => exact absurd stands.1 (Nat.ne_of_gt issued)
  | enable => exact absurd stands.1 (Nat.ne_of_gt issued)
  | awaitFetch => exact stands.2.1
  | present => exact Nat.lt_of_le_of_lt fetched stands.2.1
  | done => exact stands.2

namespace Passes

variable {n : Nat}

/-- From here on the stimulus waits for the edge that is due at this instant or is the next one. -/
theorem awaits (positive : 0 < p.period) (wave : p.Wave level since c) (le : since ≤ now)
    (sooner : now ≤ c) (more : n < p.cycles) (presented : p.word n ≤ now) (ahead : now ≤ p.edge n)
    (close : p.edge n < now + p.period) : p.Passes since now (Rises level c now) .awaitFetch n := by
  refine ⟨more, presented, ?_, ?_⟩
  · rintro ⟨low, due⟩
    subst low due
    exact eq_of_dvd_of_lt wave.dvd_of_low (dvd_edge n) ahead close
  · intro still
    have different : now ≠ p.edge n := fun same =>
      still (wave.rises_of_dvd positive (same ▸ dvd_edge n) le sooner)
    omega

theorem le_wake {rises : Prop} {phase : Phase} {u : Nat} (passes : p.Passes since now rises phase n)
    (due : p.wake? phase n = some u) : now ≤ u := by
  cases phase with
  | reset =>
    obtain ⟨_, _, start⟩ := passes
    omega
  | release =>
    cases due
    exact passes.2.2
  | enable =>
    cases due
    exact passes.2.2.2
  | awaitFetch => cases due
  | present =>
    cases due
    exact passes.2.1
  | done => cases due

theorem released (passes : p.Passes since now (Rises level c now) .reset n) :
    p.Passes since now (Rises level c now) .release n := by
  obtain ⟨first, le, start⟩ := passes
  exact ⟨first, le, by omega⟩

theorem settling (passes : p.Passes since now (Rises level c now) .release n)
    (due : now = p.reset) : p.Passes since now (Rises level c now) .enable n := by
  obtain ⟨first, le, _⟩ := passes
  have bound := p.reset_le_enable
  exact ⟨first, le, by omega, by omega⟩

theorem enabled (positive : 0 < p.period) (wave : p.Wave level since c) (sooner : now ≤ c)
    (passes : p.Passes since now (Rises level c now) .enable n) (due : now = p.enable)
    (more : n < p.cycles) : p.Passes since now (Rises level c now) .awaitFetch n := by
  obtain ⟨rfl, le, _, _⟩ := passes
  have ahead := p.enable_le_edge_zero positive
  have close := p.edge_zero_lt positive
  exact awaits positive wave le sooner more (Nat.le_of_eq due.symm) (by omega) (by omega)

/-- After a word without delay, the edge that fetched it lies before this step already. -/
theorem presented (positive : 0 < p.period) (wave : p.Wave level since c) (sooner : now ≤ c)
    (passes : p.Passes since now (Rises level c now) .present n) (due : now = p.word (n + 1))
    (more : n + 1 < p.cycles) : p.Passes since now (Rises level c now) .awaitFetch (n + 1) := by
  obtain ⟨_, _, fetched, presenting⟩ := passes
  have bound := wave.since_le
  have next := p.edge_succ n
  rw [word] at due
  rcases Nat.eq_zero_or_pos p.fetch with immediate | delayed
  · -- The clock has risen in the step before, and the next edge is a whole period ahead.
    have apart := p.stride_of_fetch_zero immediate
    refine ⟨more, Nat.le_of_eq due.symm, ?_, ?_⟩
    · rintro ⟨_, same⟩
      omega
    · intro _
      omega
  · have long := p.fetch_le_stride positive
    have close := p.stride_lt positive delayed
    exact awaits positive wave (by omega) sooner more (Nat.le_of_eq due.symm) (by omega) (by omega)

theorem ne_word_succ {phase : Phase} (passes : p.Passes since now (Rises level c now) phase n)
    (wave : p.Wave level since c) (again : now < since) (ended : ∀ u ∈ p.wake? phase n, now < u)
    (more : n < p.cycles) : now ≠ p.word (n + 1) := by
  have bound := wave.since_le
  rintro due
  cases phase with
  | reset =>
    obtain ⟨_, le, _⟩ := passes
    omega
  | release =>
    obtain ⟨_, le, _⟩ := passes
    omega
  | enable =>
    obtain ⟨_, le, _⟩ := passes
    omega
  | awaitFetch =>
    obtain ⟨_, _, _, waiting⟩ := passes
    -- The clock was toggled in the first step at this instant.
    have still : ¬Rises level c now := fun ⟨_, same⟩ => by omega
    have ahead := (waiting still).1
    rw [word] at due
    omega
  | present =>
    have later := ended _ rfl
    omega
  | done =>
    obtain ⟨all, _⟩ := passes
    omega

/-- No instant of a run that goes on lies beyond the next word, or the stop. -/
theorem le_word (positive : 0 < p.period) {rises : Prop} {phase : Phase}
    (passes : p.Passes since now rises phase n) (going : phase ≠ .done) :
    now ≤ p.word (min p.cycles (n + 1)) := by
  have start := p.reset_le_enable
  have enabled := enable_le_word positive (min p.cycles (n + 1))
  cases phase with
  | reset =>
    obtain ⟨_, _, zero⟩ := passes
    omega
  | release =>
    obtain ⟨_, _, ahead⟩ := passes
    omega
  | enable =>
    obtain ⟨_, _, _, ahead⟩ := passes
    omega
  | awaitFetch =>
    obtain ⟨more, _, edge, waiting⟩ := passes
    rw [Nat.min_eq_right more, word]
    by_cases rising : rises
    · have same := edge rising
      omega
    · have ahead := (waiting rising).1
      omega
  | present =>
    obtain ⟨more, ahead, _⟩ := passes
    rw [Nat.min_eq_right more]
    exact ahead
  | done => exact absurd rfl going

theorem word_le (positive : 0 < p.period) {rises : Prop} {phase : Phase}
    (passes : p.Passes since now rises phase n) (recent : since ≤ now + 1) (issued : 0 < n) :
    p.word n ≤ now := by
  have fetched := word_le_edge positive n
  cases phase with
  | reset => exact absurd passes.1 (Nat.ne_of_gt issued)
  | release => exact absurd passes.1 (Nat.ne_of_gt issued)
  | enable => exact absurd passes.1 (Nat.ne_of_gt issued)
  | awaitFetch => exact passes.2.1
  | present =>
    have before := passes.2.2.1
    omega
  | done => exact passes.2

theorem count_cases (positive : 0 < p.period) {rises rises' : Prop} {phase phase' : Phase} {n' : Nat}
    (before : p.Passes since now rises phase n) (after : p.Passes since now rises' phase' n')
    (going : phase ≠ .done) (recent : since ≤ now + 1) (kept : n ≤ n') :
    n' = n ∨ n' = n + 1 ∧ now = p.word (n + 1) := by
  rcases Nat.eq_or_lt_of_le kept with same | more
  · exact .inl same.symm
  · have early := before.le_word positive going
    have capped := word_mono positive (Nat.min_le_right p.cycles (n + 1))
    have late := after.word_le positive recent (by omega)
    have sooner : p.word (n + 1) ≤ p.word n' := word_mono positive more
    -- A second word would be due a period after the first one.
    have single : n' = n + 1 := by
      by_contra another
      have apart := word_succ_lt positive n
      have later : p.word (n + 2) ≤ p.word n' := word_mono positive (by omega)
      omega
    exact .inr ⟨single, by omega⟩

theorem stands {phase : Phase} {rises : Prop} (passes : p.Passes since now rises phase n)
    (recent : since ≤ now + 1) (ended : ∀ u ∈ p.wake? phase n, now < u)
    (still : phase = .awaitFetch → ¬rises) : p.Stands (now + 1) phase n := by
  cases phase with
  | reset =>
    obtain ⟨_, _, start⟩ := passes
    have := ended 0 rfl
    omega
  | release =>
    have later := ended p.reset rfl
    exact ⟨passes.1, later⟩
  | enable =>
    obtain ⟨first, _, released, _⟩ := passes
    have later := ended p.enable rfl
    exact ⟨first, by omega, later⟩
  | awaitFetch =>
    obtain ⟨more, presented, _, waiting⟩ := passes
    obtain ⟨ahead, close⟩ := waiting (still rfl)
    exact ⟨more, by omega, ahead, by omega⟩
  | present =>
    obtain ⟨more, _, fetched, _⟩ := passes
    have later := ended (p.word (n + 1)) rfl
    rw [word] at later
    exact ⟨more, by omega, by omega⟩
  | done =>
    obtain ⟨all, presented⟩ := passes
    exact ⟨all, by omega⟩

theorem fetched {rises : Prop} (passes : p.Passes since now rises .awaitFetch n) (edge : rises) :
    p.Stands (now + 1) .present n := by
  obtain ⟨more, _, due, _⟩ := passes
  have same := due edge
  exact ⟨more, by omega, by omega⟩

end Passes

end IdentifyBench.Timetable

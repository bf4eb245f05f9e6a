import IdentifyBench.Proofs.Running

/-! The schedule of a run in closed form. The levels at an instant are those of the last step that is
not later. Read this way, the lines of reset, enable and the words change exactly when the timetable
says, and a run that is neither cut short nor starved of words stops at the end of the timetable. -/
namespace IdentifyBench

open WordSource

theorem exists_crossing {f : Nat → Nat} {t m : Nat} (start : f 0 ≤ t) (finish : t < f m) :
    ∃ j < m, f j ≤ t ∧ t < f (j + 1) := by
  induction m with
  | zero => omega
  | succ m ih =>
    rcases Nat.lt_or_ge t (f m) with before | reached
    · obtain ⟨j, below, crossing⟩ := ih before
      exact ⟨j, Nat.lt_succ_of_lt below, crossing⟩
    · exact ⟨m, Nat.lt_succ_self m, reached, finish⟩

namespace Timetable

variable {p : Timetable}

/-- What the phase and the number of words say about the levels at an instant. -/
structure Shows (p : Timetable) (t : Nat) (phase : Phase) (n : Nat) : Prop where
  reset : (phase == .release) = decide (t < p.reset)
  enable : phase.enabled = decide (p.enable ≤ t)
  most : n ≤ p.cycles
  presented : 0 < n → p.word n ≤ t
  pending : n < p.cycles → t < p.word (n + 1)

theorem shows_of_passes (positive : 0 < p.period) {now t next n : Nat} {phase : Phase} {rises : Prop}
    (stands : p.Stands (now + 1) phase n) (passes : p.Passes (now + 1) next rises phase n)
    (going : phase ≠ .done) (reached : now ≤ t) (before : t < next) : p.Shows t phase n := by
  have order := p.reset_le_enable
  have first := enable_le_word positive (n + 1)
  cases phase with
  | reset => exact absurd stands.2 (Nat.succ_ne_zero _)
  | release =>
    obtain ⟨rfl, _, ahead⟩ := passes
    exact {
      reset := (decide_eq_true (by omega)).symm
      enable := (decide_eq_false (by omega)).symm
      most := Nat.zero_le _
      presented := nofun
      pending := fun _ => by omega }
  | enable =>
    obtain ⟨rfl, _, _, ahead⟩ := passes
    obtain ⟨_, released, _⟩ := stands
    exact {
      reset := (decide_eq_false (by omega)).symm
      enable := (decide_eq_false (by omega)).symm
      most := Nat.zero_le _
      presented := nofun
      pending := fun _ => by omega }
  | awaitFetch =>
    obtain ⟨more, presented, _, _⟩ := stands
    obtain ⟨_, _, edge, waiting⟩ := passes
    have enabled := enable_le_word positive n
    have ahead : next ≤ p.edge n := by
      by_cases rising : rises
      · exact Nat.le_of_eq (edge rising)
      · exact Nat.le_of_lt (waiting rising).1
    exact {
      reset := (decide_eq_false (by omega)).symm
      enable := (decide_eq_true (by omega)).symm
      most := Nat.le_of_lt more
      presented := fun _ => by omega
      pending := fun _ => by
        rw [word]
        omega }
  | present =>
    obtain ⟨more, fetched, _⟩ := stands
    obtain ⟨_, ahead, _⟩ := passes
    have enabled := enable_le_word positive n
    have before := word_le_edge positive n
    exact {
      reset := (decide_eq_false (by omega)).symm
      enable := (decide_eq_true (by omega)).symm
      most := Nat.le_of_lt more
      presented := fun _ => by omega
      pending := fun _ => by omega }
  | done => exact absurd rfl going

theorem Stands.punctual (positive : 0 < p.period) {now n : Nat} {phase : Phase}
    (stands : p.Stands (now + 1) phase n) :
    (phase == .release) = decide (now < p.reset) ∧ phase.enabled = decide (p.enable ≤ now) ∧
      (n < p.cycles → now ≤ p.word (n + 1)) := by
  have order := p.reset_le_enable
  have enabled := enable_le_word positive n
  have fetched := word_le_edge positive n
  have first := enable_le_word positive (n + 1)
  cases phase with
  | reset => exact absurd stands.2 (Nat.succ_ne_zero _)
  | release =>
    obtain ⟨rfl, ahead⟩ := stands
    exact ⟨(decide_eq_true ahead).symm, (decide_eq_false (by omega)).symm, fun _ => by omega⟩
  | enable =>
    obtain ⟨rfl, released, ahead⟩ := stands
    exact ⟨(decide_eq_false (by omega)).symm, (decide_eq_false (by omega)).symm, fun _ => by omega⟩
  | awaitFetch =>
    obtain ⟨_, presented, ahead, _⟩ := stands
    refine ⟨(decide_eq_false (by omega)).symm, (decide_eq_true (by omega)).symm, fun _ => ?_⟩
    rw [word]
    omega
  | present =>
    obtain ⟨_, edge, ahead⟩ := stands
    refine ⟨(decide_eq_false (by omega)).symm, (decide_eq_true (by omega)).symm, fun _ => ?_⟩
    rw [word]
    omega
  | done =>
    obtain ⟨all, presented⟩ := stands
    exact ⟨(decide_eq_false (by omega)).symm, (decide_eq_true (by omega)).symm,
      fun more => absurd all (Nat.ne_of_lt more)⟩

theorem shows_of_stop (positive : 0 < p.period) : p.Shows p.stop .done p.cycles := by
  have order := p.reset_le_enable
  have enabled := enable_le_word positive p.cycles
  rw [stop]
  exact {
    reset := (decide_eq_false (by omega)).symm
    enable := (decide_eq_true enabled).symm
    most := Nat.le_refl _
    presented := fun _ => Nat.le_refl _
    pending := fun more => absurd more (Nat.lt_irrefl _) }

theorem Shows.unique (positive : 0 < p.period) {t n : Nat} {phase : Phase} (shown : p.Shows t phase n)
    {i : Nat} (issued : 0 < i) (most : i ≤ p.cycles) (presented : p.word i ≤ t)
    (pending : i < p.cycles → t < p.word (i + 1)) : n = i := by
  rcases Nat.lt_trichotomy n i with fewer | same | more
  · have later := word_mono positive (Nat.succ_le_of_lt fewer)
    have ahead := shown.pending (Nat.lt_of_lt_of_le fewer most)
    exact absurd (Nat.lt_of_lt_of_le ahead (Nat.le_trans later presented)) (Nat.lt_irrefl t)
  · exact same
  · have later := word_mono positive (Nat.succ_le_of_lt more)
    have bound := shown.presented (Nat.lt_trans issued more)
    have ahead := pending (Nat.lt_of_lt_of_le more shown.most)
    exact absurd (Nat.lt_of_lt_of_le ahead (Nat.le_trans later bound)) (Nat.lt_irrefl t)

end Timetable

namespace Bench

variable {σ : Type} [WordSource σ] {s : Settings} {source : σ}

/-- After so many steps the bench is as it stays until an instant: no later step is due by then. -/
def InForce (b : Bench σ) (t k : Nat) : Prop :=
  (b.after k).now ≤ t ∧ (t < (b.after (k + 1)).now ∨ (b.after k).stopped = true)

/-- The lines are as the timetable has them at an instant. -/
structure OnTime (s : Settings) (words : List Word) (t : Nat) (b : Bench σ) : Prop where
  reset : b.bus.level .reset = decide (t < s.timetable.reset)
  enable : b.bus.level .enable = decide (s.timetable.enable ≤ t)
  idle : s.timetable.cycles = 0 ∨ t < s.timetable.word 1 →
    b.bus.level .word = (0 : Word) ∧ b.bus.level .arbiterFull = false
  word : ∀ (i : Nat) (word : Word), words[i]? = some word → s.timetable.word (i + 1) ≤ t →
    (i + 1 < s.timetable.cycles → t < s.timetable.word (i + 2)) →
    b.bus.level .word = word ∧ b.bus.level .arbiterFull = s.stimulus.fullOn (i + 1)

/-- The lines after a step: reset and enable as the timetable has them at its time, and a word that
is due neither later than that nor so early that the next one is overdue. -/
structure Punctual (s : Settings) (words : List Word) (b : Bench σ) : Prop where
  reset : b.bus.level .reset = decide (b.now < s.timetable.reset)
  enable : b.bus.level .enable = decide (s.timetable.enable ≤ b.now)
  word : ∃ n ≤ s.timetable.cycles,
    b.bus.level .word = drawn words n ∧ b.bus.level .arbiterFull = s.stimulus.fullOn n ∧
      (0 < n → s.timetable.word n ≤ b.now) ∧
      (n < s.timetable.cycles → b.now ≤ s.timetable.word (n + 1))

theorem OnCourse.punctual {phase : Phase} {n : Nat} {b : Bench σ} {words : List Word}
    (on : OnCourse s source (b.now + 1) phase n b) (positive : 0 < s.timetable.period)
    (supplied : take s.timetable.cycles source = words.map some) : b.Punctual s words := by
  have lines := on.inputs
  obtain ⟨reset, enable, pending⟩ := on.stands.punctual positive
  have most := on.stands.count_le
  have presented : 0 < n → s.timetable.word n ≤ b.now := fun issued =>
    Nat.le_of_lt_succ (on.stands.word_lt positive issued)
  have word : b.bus.level .word = drawn source n := congrArg StageInputs.word lines
  exact {
    reset := (congrArg (·.control.reset) lines).trans reset
    enable := (congrArg (·.control.enable) lines).trans enable
    word := ⟨n, most, word.trans (drawn_of_take supplied most).symm,
      congrArg (·.control.arbiterFull) lines, presented, pending⟩ }

theorem OnCourse.onTime {since : Nat} {phase : Phase} {n t : Nat} {b : Bench σ} {words : List Word}
    (on : OnCourse s source since phase n b) (positive : 0 < s.timetable.period)
    (supplied : take s.timetable.cycles source = words.map some)
    (shown : s.timetable.Shows t phase n) : b.OnTime s words t := by
  have lines := on.inputs
  have word : b.bus.level .word = drawn source n := congrArg StageInputs.word lines
  have full : b.bus.level .arbiterFull = s.stimulus.fullOn n :=
    congrArg (·.control.arbiterFull) lines
  have reset : b.bus.level .reset = (phase == .release) := congrArg (·.control.reset) lines
  have enable : b.bus.level .enable = phase.enabled := congrArg (·.control.enable) lines
  refine ⟨reset.trans shown.reset, enable.trans shown.enable, ?_, ?_⟩
  · intro before
    have unissued : n = 0 := by
      by_contra issued
      have first := Timetable.word_mono positive (Nat.pos_of_ne_zero issued)
      have presented := shown.presented (Nat.pos_of_ne_zero issued)
      have most := shown.most
      rcases before with no | early
      · omega
      · exact absurd (Nat.lt_of_lt_of_le early (Nat.le_trans first presented)) (Nat.lt_irrefl t)
    rw [word, full, unissued]
    exact ⟨rfl, rfl⟩
  · intro i w present presented pending
    have most : i < s.timetable.cycles := by
      rw [← length_of_take supplied]
      exact (List.getElem?_eq_some_iff.mp present).1
    obtain rfl := shown.unique positive (Nat.succ_pos i) most presented pending
    obtain ⟨w', same, drawn⟩ := word?_of_take supplied most
    rw [present] at same
    obtain rfl := Option.some.inj same
    exact ⟨word.trans (drawn_of_word? drawn), full⟩

def Leads (s : Settings) (source : σ) (k : Nat) : Prop :=
  ∃ since phase n, OnCourse s source since phase n ((Bench.start (.new s source)).after k) ∧
    phase ≠ .done ∧ (0 < k → since = ((Bench.start (.new s source)).after k).now + 1) ∧
    ∃ phase' n' more outcome, Advances s source since phase n phase' n'
      ((Bench.start (.new s source)).after (k + 1)) more outcome

theorem leads_of_ok (wide : 2 ≤ s.timetable.period) (enough : 3 ≤ s.general.maxDeltaRounds.toNat)
    {k : Nat} {outcome : Outcome}
    (going : ∀ j < k, ∃ t, ((Bench.start (.new s source)).after j).step.result = .ok (.advanced t))
    (returned : ((Bench.start (.new s source)).after k).step.result = .ok outcome) :
    Leads s source k := by
  obtain ⟨since, phase, n, on, unfinished, _, _, recent, _⟩ := course source wide enough going
  have ends := on.step_ends wide enough unfinished
  rw [Turn.ends_iff_of_ok returned] at ends
  obtain ⟨phase', n', advances⟩ := ends
  exact ⟨since, phase, n, on, unfinished, recent, phase', n', _, _, advances⟩

theorem Leads.now_le {k : Nat} (leads : Leads s source k) :
    ((Bench.new s source).after k).now ≤ ((Bench.new s source).after (k + 1)).now := by
  obtain ⟨since, phase, n, on, _, recent, phase', n', more, outcome, advances⟩ := leads
  cases k with
  | zero => exact Nat.zero_le _
  | succ k =>
    have bound := advances.recent
    rw [recent (Nat.succ_pos k), after_start s source (Nat.succ_pos k),
      after_start s source (Nat.succ_pos (k + 1))] at bound
    exact Nat.le_of_succ_le_succ bound

theorem Leads.punctual {k : Nat} {words : List Word} (leads : Leads s source k)
    (positive : 0 < s.timetable.period)
    (supplied : take s.timetable.cycles source = words.map some) :
    ((Bench.new s source).after (k + 1)).Punctual s words := by
  obtain ⟨_, _, _, _, _, _, _, _, _, _, advances⟩ := leads
  have on := advances.on
  rw [after_start s source (Nat.succ_pos k)] at on
  exact on.punctual positive supplied

theorem Leads.onTime {k t : Nat} {words : List Word} (leads : Leads s source k)
    (positive : 0 < s.timetable.period)
    (supplied : take s.timetable.cycles source = words.map some)
    (inForce : (Bench.new s source).InForce t k) : ((Bench.new s source).after k).OnTime s words t := by
  obtain ⟨since, phase, n, on, unfinished, recent, phase', n', more, outcome, advances⟩ := leads
  obtain ⟨reached, later⟩ := inForce
  obtain ⟨rises, passes⟩ := advances.passes
  cases k with
  | zero =>
    -- The first step is made at the start already, so that what comes before it is never in force.
    obtain rfl : phase = .reset := (congrArg Stimulus.phase on.standing.stimulus).symm
    obtain ⟨_, _, start⟩ := passes
    rw [after_start s source (Nat.succ_pos 0)] at start
    rcases later with before | stopped
    · rw [start] at before
      exact absurd before (Nat.not_lt_zero t)
    · cases stopped
  | succ k =>
    rw [after_start s source (Nat.succ_pos k)] at on recent
    rw [after_start s source (Nat.succ_pos (k + 1))] at passes
    obtain rfl := recent (Nat.succ_pos k)
    have before : t < ((Bench.new s source).after (k + 1 + 1)).now := by
      rcases later with before | stopped
      · exact before
      · rw [on.standing.stopped] at stopped
        exact absurd (eq_of_beq stopped) unfinished
    exact on.onTime positive supplied
      (Timetable.shows_of_passes positive on.stands passes unfinished reached before)

end Bench

namespace Recording

variable {σ κ : Type} [WordSource σ] [Sink κ]

theorem result_of_supplied {s : Settings} {source : σ} {words : List Word}
    {waveform : Option Waveform} {out : κ} (wide : 2 ≤ s.timetable.period)
    (enough : 3 ≤ s.general.maxDeltaRounds.toNat)
    (unbroken : (fresh s source waveform out).Unbroken)
    (supplied : take s.timetable.cycles source = words.map some)
    (uncut : ∀ limit ∈ s.general.maxTime, s.timetable.stop ≤ limit.toNat)
    (early : s.timetable.stop < Instant.last) :
    ∃ k, (∀ j ≤ k, Bench.Leads s source j) ∧
      (fresh s source waveform out).run.state.bench = (Bench.new s source).after (k + 1) ∧
      (fresh s source waveform out).run.result =
        .ok (fresh s source waveform out).run.state.bench.tally ∧
      ∃ since phase n more outcome, phase ≠ .done ∧
        Bench.Advances s source since phase n .done s.timetable.cycles
          (fresh s source waveform out).run.state.bench more outcome := by
  have positive : 0 < s.timetable.period := Nat.lt_of_lt_of_le Nat.two_pos wide
  obtain ⟨k, since, phase, n, on, unfinished, going, state, ends⟩ :=
    run_ends source wide enough waveform out fun k _ _ _ => unbroken k
  have stop : s.timetable.word (min s.timetable.cycles (n + 1)) ≤ s.timetable.stop :=
    Timetable.word_mono positive (Nat.min_le_left _ _)
  have steps {j : Nat} (below : j < k) := bench_goesOn (going j below)
  unfold Turn.Ends at ends
  cases returned : (fresh s source waveform out).run.result with
  | ok tally =>
    rw [returned] at ends
    obtain ⟨rfl, _, more, outcome, last, advances⟩ := ends
    refine ⟨k, ?_, ?_, rfl, since, phase, n, more, outcome, unfinished, advances⟩
    · intro j below
      rcases Nat.eq_or_lt_of_le below with rfl | before
      · exact Bench.leads_of_ok wide enough (fun i below => steps below) last
      · obtain ⟨t, advanced⟩ := steps before
        exact Bench.leads_of_ok wide enough (fun i below => steps (Nat.lt_trans below before)) advanced
    · rw [state, after_bench]
      rfl
  | error halt =>
    rw [returned] at ends
    obtain ⟨more, halted, _⟩ := ends
    -- No instant of the run lies beyond the stop, so that none is refused or the last one.
    cases halted with
    | limited present passes beyond early halts now issued silent =>
      obtain ⟨limit, given, rfl⟩ := on.built.mem_limit.mp present
      have reached := Nat.le_trans (passes.le_word positive unfinished) stop
      have cut := Nat.lt_of_lt_of_le beyond (Nat.le_trans reached (uncut limit given))
      exact absurd cut (Nat.lt_irrefl _)
    | dry ran within early =>
      obtain ⟨n', dry, _⟩ := ran
      obtain ⟨word, _, supplies⟩ := word?_of_take supplied dry.more
      rw [dry.dry] at supplies
      cases supplies
    | endless passes late within halts =>
      have reached := Nat.le_trans (passes.le_word positive unfinished) stop
      exact absurd (Nat.le_trans late reached) (Nat.not_le_of_lt early)

/-- A run that is neither cut short by the limit nor by its source or its waveform, and whose stop
lies before the last instant of the timeline, returns what it has counted, and it stops at the end of
its timetable. No step commits levels that the timetable does not have at its time. At every instant
up to the stop the lines are as the timetable has them: reset is high before the end of the reset
pulse, enable from the end of the time to settle, and every word is shown with its arbiter line from
its own time until that of the next one. -/
theorem run_schedule (s : Settings) (source : σ) (words : List Word) (waveform : Option Waveform)
    (out : κ) (valid : s.Valid) (enough : 3 ≤ s.general.maxDeltaRounds)
    (unbroken : (fresh s source waveform out).Unbroken)
    (supplied : take s.timetable.cycles source = words.map some)
    (uncut : ∀ limit ∈ s.general.maxTime, s.timetable.stop ≤ limit.toNat)
    (early : s.timetable.stop < Instant.last) :
    let bench := Bench.new s source
    let turn := (fresh s source waveform out).run
    turn.result = .ok turn.state.bench.tally ∧
    turn.state.bench.stopped = true ∧
    turn.state.bench.now = s.timetable.stop ∧
    turn.state.bench.tally.simTime = s.timetable.stop ∧
    turn.state.bench.tally.wordsIssued = s.timetable.cycles ∧
    (∃ k, turn.state.bench = bench.after k) ∧
    (∀ k, (bench.after k).now ≤ (bench.after (k + 1)).now) ∧
    (∀ k, (bench.after (k + 1)).Punctual s words) ∧
    ∀ t ≤ s.timetable.stop,
      (∃ k, bench.InForce t k) ∧ ∀ k, bench.InForce t k → (bench.after k).OnTime s words t := by
  intro bench turn
  have wide := valid.wide
  have positive : 0 < s.timetable.period := Nat.lt_of_lt_of_le Nat.two_pos wide
  obtain ⟨k, leads, state, result, since, phase, n, more, outcome, unfinished, advances⟩ :=
    result_of_supplied wide (UInt64.le_iff_toNat_le.mp enough) unbroken supplied uncut early
  have now : turn.state.bench.now = s.timetable.stop := advances.now_of_done positive unfinished
  have stopped : turn.state.bench.stopped = true := by
    have standing := advances.on.standing.stopped
    exact standing
  have final {j : Nat} (ended : k + 1 ≤ j) : bench.after j = turn.state.bench :=
    (Bench.after_of_stopped (by rw [← state]; exact stopped) ended).trans state.symm
  refine ⟨result, stopped, now, advances.simTime.trans now, advances.on.standing.issued,
    ⟨k + 1, state⟩, ?_, ?_, ?_⟩
  · intro j
    rcases Nat.lt_or_ge k j with ended | below
    · rw [final ended, final (Nat.le_succ_of_le ended)]
    · exact (leads j below).now_le
  · intro j
    rcases Nat.lt_or_ge k j with ended | below
    · rw [final (Nat.le_succ_of_le ended)]
      exact advances.on.punctual positive supplied
    · exact (leads j below).punctual positive supplied
  · intro t within
    refine ⟨?_, ?_⟩
    · rcases Nat.lt_or_ge t s.timetable.stop with before | reached
      · obtain ⟨j, _, reached, later⟩ :=
          exists_crossing (f := fun j => (bench.after j).now) (m := k + 1) (Nat.zero_le t)
            (by rw [final (Nat.le_refl _), now]; exact before)
        exact ⟨j, reached, .inl later⟩
      · refine ⟨k + 1, ?_, .inr ?_⟩
        · rw [final (Nat.le_refl _), now]
          exact reached
        · rw [final (Nat.le_refl _)]
          exact stopped
    · intro j inForce
      rcases Nat.lt_or_ge k j with ended | below
      · have reached := inForce.1
        rw [final ended, now] at reached
        rw [final ended, Nat.le_antisymm within reached]
        exact advances.on.onTime positive supplied (Timetable.shows_of_stop positive)
      · exact (leads j below).onTime positive supplied inForce

theorem schedule_of_two_words :
    let turn := (fresh (.immediate 2) ([5, 7] : List Word) none (Memory.empty none)).run
    (Settings.immediate 2).Valid ∧ (fresh (.immediate 2) ([5, 7] : List Word) none
      (Memory.empty none)).Unbroken ∧ turn.state.bench.now = 2 := by
  have valid : (Settings.immediate 2).Valid := by decide
  have unbroken : (fresh (.immediate 2) ([5, 7] : List Word) none (Memory.empty none)).Unbroken :=
    unbroken_of_none rfl
  have stop : (Settings.immediate 2).timetable.stop = 2 := by decide +kernel
  have schedule := run_schedule (.immediate 2) ([5, 7] : List Word) [5, 7] none (Memory.empty none)
    valid (by decide) unbroken rfl nofun (by rw [stop]; decide)
  exact ⟨valid, unbroken, schedule.2.2.1.trans stop⟩

end Recording

end IdentifyBench

import IdentifyBench.Proofs.Commits
import IdentifyBench.Proofs.Pulse

/-! No glitches. The commits of a run are joined: whether or not a step fails, no level changes between
one and the next. A step commits inputs first and outputs second, each line once at most, and a line that
changes in one of its commits has changed when the step is over. Several steps may share a time. The
levels of clock, reset and enable depend on the time alone, so that they change in the first of these
steps at most; those of all other lines depend on the number of words alone, and no two words share a
time. -/
namespace IdentifyBench

open WordSource

/-- The lines that follow the time, whatever the words are. -/
def Line.timed : LineSet := .ofList [.clock, .reset, .enable]

namespace Bench

variable {σ : Type}

def Changes (c : Bench σ) (l : Line) : Prop := c.commit.bus.level l ≠ c.bus.level l

theorem changes_iff (c : Bench σ) (l : Line) : c.Changes l ↔ l ∈ c.moved := by
  rw [Changes, commit, Bus.level_commit, moved, Bus.mem_moved]

/-- Commits that lead from one bench to another: each starts from the levels that the one before it has
left, and the levels that the last one leaves are those at the end. -/
def Joined : Bench σ → List (Bench σ) → Bench σ → Prop
  | b, [], d => ∀ l, d.bus.level l = b.bus.level l
  | b, c :: rest, d => (∀ l, c.bus.level l = b.bus.level l) ∧ c.commit.Joined rest d

namespace Joined

variable {b c d : Bench σ} {left right : List (Bench σ)}

theorem of_levels (same : ∀ l, c.bus.level l = b.bus.level l) (joined : c.Joined right d) :
    b.Joined right d := by
  cases right with
  | nil => exact fun l => (joined l).trans (same l)
  | cons e rest => exact ⟨fun l => (joined.1 l).trans (same l), joined.2⟩

theorem append (first : b.Joined left c) (second : c.Joined right d) : b.Joined (left ++ right) d := by
  induction left generalizing b with
  | nil => exact second.of_levels first
  | cons e rest ih => exact ⟨first.1, ih first.2⟩

variable [WordSource σ]

theorem settle (b : Bench σ) (left round : Nat) (due : Bool) :
    b.Joined (committing left b) (Bench.settle left round due b).state := by
  induction left generalizing round due b with
  | zero => exact fun _ => rfl
  | succ left ih =>
    rw [settle_succ, committing]
    refine ⟨fun _ => rfl, ?_⟩
    split
    · rw [rest_state]
      exact fun _ => rfl
    · have reacts (l : Line) : b.react.state.bus.level l = b.commit.bus.level l := by
        rw [react_state, (passEdge_same _ _).2.1.levels, level_respond]
      cases returned : b.react.result with
      | error halt =>
        rw [Turn.andThen_of_error returned]
        exact reacts
      | ok x =>
        rw [Turn.andThen_of_ok returned]
        exact (ih b.react.state _ _).of_levels reacts

theorem conclude (b : Bench σ) : b.Joined (committing b.maxRounds b) b.conclude.state := by
  rw [← List.append_nil (committing _ _)]
  refine (settle b b.maxRounds 0 false).append fun l => ?_
  rw [b.conclude_same.2.1]

theorem step (b : Bench σ) : b.Joined b.commits b.step.state := by
  by_cases simulates : b.Simulates
  · have step : b.step = b.drained.andThen fun d _ => d.conclude := stepWithin_of_simulates simulates _
    have drained : ∀ l, b.drained.state.bus.level l = b.bus.level l := b.drained_same.2.1.levels
    cases drains : b.drained.result with
    | error halt =>
      rw [commits_of_halted drains, step, Turn.andThen_of_error drains]
      exact drained
    | ok x =>
      rw [commits_of_drained simulates drains, step, Turn.andThen_of_ok drains]
      exact (conclude b.drained.state).of_levels drained
  · rw [commits_of_idle simulates]
    intro l
    rw [(step_of_idle simulates).2.1]

/-- The commits of a run are all there is: whether or not a step has failed, no level has changed
without one of them. -/
theorem history (b : Bench σ) (n : Nat) : b.Joined (b.history n) (b.after n) := by
  induction n with
  | zero => exact fun _ => rfl
  | succ n ih => exact ih.append (step (b.after n))

end Joined

section

variable [WordSource σ] {s : Settings} {source : σ} {since since' n n' : Nat} {phase phase' : Phase}
  {b e : Bench σ}

/-- At one time, clock, reset and enable have one level each. -/
theorem OnCourse.level_of_time (positive : 0 < s.timetable.period)
    (on : OnCourse s source (b.now + 1) phase n b) (on' : OnCourse s source (e.now + 1) phase' n' e)
    (same : e.now = b.now) {l : Line} (timed : l ∈ Line.timed) : e.bus.level l = b.bus.level l := by
  have lines := on.inputs
  have lines' := on'.inputs
  obtain ⟨reset, enable, _⟩ := on.stands.punctual positive
  obtain ⟨reset', enable', _⟩ := on'.stands.punctual positive
  rw [same] at reset' enable'
  rw [Line.timed, LineSet.mem_ofList] at timed
  simp only [List.mem_cons, List.not_mem_nil, or_false] at timed
  rcases timed with rfl | rfl | rfl
  · exact on'.clock_level.trans (same ▸ on.clock_level.symm)
  · exact (congrArg (·.control.reset) lines').trans
      ((reset'.trans reset.symm).trans (congrArg (·.control.reset) lines).symm)
  · exact (congrArg (·.control.enable) lines').trans
      ((enable'.trans enable.symm).trans (congrArg (·.control.enable) lines).symm)

theorem OnCourse.level_of_count (on : OnCourse s source since phase n b)
    (on' : OnCourse s source since' phase' n e) {l : Line} (untimed : l ∉ Line.timed) :
    e.bus.level l = b.bus.level l := by
  cases driven : StageOutputs.on ⟨identify (drawn source n), s.stimulus.fullOn n⟩ l with
  | some value => rw [on.carries_drawn l value driven, on'.carries_drawn l value driven]
  | none =>
    have input := (StageOutputs.on_eq_none_iff _ l).mp driven
    have lines : e.bus.inputs.word = b.bus.inputs.word ∧
        e.bus.inputs.control.arbiterFull = b.bus.inputs.control.arbiterFull := by
      rw [on.inputs, on'.inputs]
      exact ⟨rfl, rfl⟩
    rw [Line.timed, LineSet.mem_ofList] at untimed
    rw [stageInputs, LineSet.mem_ofList] at input
    simp only [List.mem_cons, List.not_mem_nil, or_false, not_or] at untimed input
    rcases input with rfl | rfl | rfl | rfl | rfl
    · exact absurd rfl untimed.1
    · exact absurd rfl untimed.2.1
    · exact absurd rfl untimed.2.2
    · exact lines.1
    · exact lines.2

theorem OnCourse.word_levels (on : OnCourse s source since phase n b) :
    b.bus.level .word = drawn source n ∧ b.bus.level .wordOut = drawn source n :=
  ⟨congrArg StageInputs.word on.inputs, (on.carries_drawn .wordOut _ rfl).trans (identify_word _)⟩

end

section

variable [WordSource σ]

theorem committing_succ {b c : Bench σ} {events : List Event} (reacts : b.react = .done c events)
    (left : Nat) : committing (left + 1) b = b :: if b.moved.isEmpty then [] else committing left c := by
  rw [committing, reacts]
  rfl

/-- The commits of an instant: one for the inputs, one for the outputs that follow, and a last one that
finds nothing to move. -/
theorem committing_of_calm {d : Bench σ} (calm : d.Calm) {left : Nat} (enough : 3 ≤ left) :
    committing left d =
      d :: if d.moved.isEmpty then []
        else d.reacted :: if d.reacted.moved.isEmpty then [] else [d.reacted.commit] := by
  obtain ⟨left, rfl⟩ := Nat.exists_eq_add_of_le' enough
  have settled : d.reacted.commit.moved.isEmpty = true := moved_of_quiet d.reacted.bus.commit_quiet
  rw [committing_succ (react_of_calm calm), committing_succ (react_of_inputsQuiet d.reacted_inputsQuiet),
    committing, if_pos settled]

variable {s : Settings} {source : σ} {since n n' c : Nat} {phase phase' phase'' : Phase}
  {b d : Bench σ} {level toggled : Bool}

theorem commits_of_stopped (stopped : b.stopped = true) : b.commits = [] :=
  commits_of_idle fun simulates => nomatch stopped.symm.trans simulates.1

namespace Passage

variable (passage : Passage s source since n b d level c toggled phase' phase'' n')

include passage

theorem commits_eq (enough : 3 ≤ s.general.maxDeltaRounds.toNat) :
    b.commits = d :: if d.moved.isEmpty then []
      else d.reacted :: if d.reacted.moved.isEmpty then [] else [d.reacted.commit] := by
  have rounds : 3 ≤ d.maxRounds := passage.built.rounds.symm ▸ enough
  have state : b.drained.state = d := passage.reached
  rw [commits_of_drained passage.simulates passage.drained, state,
    committing_of_calm passage.under.standing.calm rounds]

/-- The first commit moves inputs, and where they have got to, they are at the end. -/
theorem input_of_moved (quiet : b.bus.Quiet) {l : Line} (moves : l ∈ d.moved) :
    l ∈ stageInputs ∧ d.concluded.bus.level l ≠ b.bus.level l := by
  by_cases input : l ∈ stageInputs
  · have final : d.concluded.bus.level l = d.bus.next l := by
      rw [level_concluded, Bus.next, Wire.next_of_pending_none (d.reacted_inputsQuiet l input)]
      exact level_reacted d l
    have before : d.bus.level l = b.bus.level l := passage.frame.bus.levels l
    rw [moved, Bus.mem_moved, before, ← final] at moves
    exact ⟨input, moves⟩
  · exact absurd moves (moves_iff_of_output quiet passage.frame input).1

theorem output_of_moved (quiet : b.bus.Quiet) {l : Line} (moves : l ∈ d.reacted.moved) :
    l ∉ stageInputs ∧ d.concluded.bus.level l ≠ b.bus.level l := by
  have output : l ∉ stageInputs := fun input =>
    not_mem_moved_of_inputsQuiet d.reacted_inputsQuiet input moves
  exact ⟨output, (moves_iff_of_output quiet passage.frame output).2.mp moves⟩

section

variable (enough : 3 ≤ s.general.maxDeltaRounds.toNat)

include enough

theorem mem_commits {e : Bench σ} (inside : e ∈ b.commits) :
    e = d ∨ e = d.reacted ∨ e = d.reacted.commit := by
  rw [passage.commits_eq enough, List.mem_cons] at inside
  refine inside.imp_right fun later => ?_
  split at later
  · cases later
  · rw [List.mem_cons] at later
    refine later.imp_right fun last => ?_
    split at last
    · cases last
    · exact List.mem_singleton.mp last

theorem reacted_mem_commits {l : Line} (moves : l ∈ d.moved) : d.reacted ∈ b.commits := by
  rw [passage.commits_eq enough, if_neg fun still => (LineSet.isEmpty_iff _).mp still l moves]
  simp

/-- Each commit of an instant comes at its time, and what moves in it has moved at the end. -/
theorem commit_moves (quiet : b.bus.Quiet) {e : Bench σ} (inside : e ∈ b.commits) :
    e.now = d.now ∧ ∀ l ∈ e.moved, d.concluded.bus.level l ≠ b.bus.level l := by
  rcases passage.mem_commits enough inside with rfl | rfl | rfl
  · exact ⟨rfl, fun l moves => (passage.input_of_moved quiet moves).2⟩
  · exact ⟨d.reacted_same.1, fun l moves => (passage.output_of_moved quiet moves).2⟩
  · exact ⟨d.reacted_same.1, fun l moves => absurd moves (d.reacted.bus.commit_quiet.not_mem_moved l)⟩

theorem commits_apart (quiet : b.bus.Quiet) :
    b.commits.Pairwise fun e f => ∀ l ∈ e.moved, l ∉ f.moved := by
  have third : ∀ l, l ∉ d.reacted.commit.moved := d.reacted.bus.commit_quiet.not_mem_moved
  have apart : ∀ l ∈ d.moved, l ∉ d.reacted.moved := fun l moves moves' =>
    (passage.output_of_moved quiet moves').1 (passage.input_of_moved quiet moves).1
  rw [passage.commits_eq enough]
  split
  · exact List.pairwise_singleton _ _
  · split
    · simpa using apart
    · simpa [third] using apart

/-- A word that arrives on its line is passed on in the next commit. -/
theorem echoed {phase : Phase} (on : OnCourse s source since phase n b) {e : Bench σ}
    (inside : e ∈ b.commits) (moves : Line.word ∈ e.moved) :
    ∃ f ∈ b.commits, f.now = d.now ∧ Line.wordOut ∈ f.moved ∧
      f.bus.next .wordOut = e.bus.next .word := by
  have quiet := on.settled.quiet
  obtain ⟨word, wordOut⟩ := on.word_levels
  obtain ⟨word', wordOut'⟩ := passage.on.word_levels
  have changes := (passage.commit_moves enough quiet inside).2 .word moves
  rcases passage.mem_commits enough inside with rfl | rfl | rfl
  · refine ⟨e.reacted, passage.reacted_mem_commits enough moves, e.reacted_same.1, ?_, ?_⟩
    · refine (moves_iff_of_output quiet passage.frame (by decide)).2.mpr ?_
      rw [wordOut', wordOut, ← word', ← word]
      exact changes
    · rw [← level_concluded, wordOut']
      exact (congrArg StageInputs.word passage.under.standing.lines).symm
  · exact absurd (by decide) (passage.output_of_moved quiet moves).1
  · exact absurd moves (d.reacted.bus.commit_quiet.not_mem_moved _)

end

end Passage

/-- The commits of a run up to some time and some number of words. -/
structure Traced (s : Settings) (since n : Nat) (past : List (Bench σ)) : Prop where
  before : ∀ e ∈ past, e.now < since
  worded : ∀ e ∈ past, ∀ l ∈ e.moved, l ∉ Line.timed → ∃ i < n, e.now = s.timetable.word (i + 1)
  apart : past.Pairwise fun e f => f.now = e.now → ∀ l ∈ e.moved, l ∉ f.moved
  echoed : ∀ e ∈ past, Line.word ∈ e.moved →
    ∃ f ∈ past, f.now = e.now ∧ Line.wordOut ∈ f.moved ∧ f.bus.next .wordOut = e.bus.next .word

namespace Passage

variable (passage : Passage s source since n b d level c toggled phase' phase'' n')
  (on : OnCourse s source since phase n b) (enough : 3 ≤ s.general.maxDeltaRounds.toNat)

include passage on enough

theorem presents_of_untimed {e : Bench σ} (inside : e ∈ b.commits) {l : Line} (moves : l ∈ e.moved)
    (untimed : l ∉ Line.timed) : n' = n + 1 ∧ d.now = s.timetable.word (n + 1) := by
  have changes := (passage.commit_moves enough on.settled.quiet inside).2 l moves
  refine passage.count.resolve_left fun same => changes ?_
  subst same
  exact on.level_of_count passage.on untimed

theorem later_of_timed (wide : 2 ≤ s.timetable.period) {e : Bench σ} (inside : e ∈ b.commits) {l : Line}
    (moves : l ∈ e.moved) (timed : l ∈ Line.timed) : since ≤ d.now := by
  have positive : 0 < s.timetable.period := Nat.lt_of_lt_of_le Nat.two_pos wide
  have changes := (passage.commit_moves enough on.settled.quiet inside).2 l moves
  by_contra again
  have before := Nat.lt_of_not_le again
  have whole : since = b.now + 1 := by
    rw [on.now, Nat.sub_add_cancel (Nat.lt_of_le_of_lt (Nat.zero_le _) before)]
  subst whole
  have on' := passage.on
  have same := Nat.le_antisymm (Nat.le_of_lt_succ before) (Nat.le_of_succ_le_succ passage.under.recent)
  rw [← d.concluded_now] at on' same
  exact changes (on.level_of_time positive on' same timed)

theorem traced (wide : 2 ≤ s.timetable.period) {past : List (Bench σ)} (traced : Traced s since n past) :
    Traced s (d.now + 1) n' (past ++ b.commits) := by
  have positive : 0 < s.timetable.period := Nat.lt_of_lt_of_le Nat.two_pos wide
  have quiet := on.settled.quiet
  have kept : n ≤ n' := by
    rcases passage.count with same | ⟨more, _⟩ <;> omega
  constructor
  · intro e inside
    rcases List.mem_append.mp inside with old | new
    · exact Nat.lt_of_lt_of_le (traced.before e old) passage.under.recent
    · rw [(passage.commit_moves enough quiet new).1]
      exact Nat.lt_succ_self _
  · intro e inside l moves untimed
    rcases List.mem_append.mp inside with old | new
    · obtain ⟨i, below, time⟩ := traced.worded e old l moves untimed
      exact ⟨i, Nat.lt_of_lt_of_le below kept, time⟩
    · obtain ⟨more, time⟩ := passage.presents_of_untimed on enough new moves untimed
      exact ⟨n, by omega, (passage.commit_moves enough quiet new).1.trans time⟩
  · refine List.pairwise_append.mpr ⟨traced.apart, ?_, ?_⟩
    · refine (passage.commits_apart enough quiet).imp ?_
      exact fun apart _ => apart
    · intro e old f new same l moves moves'
      have time := (passage.commit_moves enough quiet new).1
      by_cases timed : l ∈ Line.timed
      · have later := passage.later_of_timed on enough wide new moves' timed
        rw [← time, same] at later
        exact absurd (Nat.lt_of_lt_of_le (traced.before e old) later) (Nat.lt_irrefl _)
      · -- An earlier word has been presented at an earlier time.
        obtain ⟨i, below, word⟩ := traced.worded e old l moves timed
        have present := (passage.presents_of_untimed on enough new moves' timed).2
        have sooner := Timetable.word_succ_lt (p := s.timetable) positive i
        have order := Timetable.word_mono (p := s.timetable) positive (Nat.succ_le_succ below)
        rw [← present, ← time, same, word] at order
        exact absurd (Nat.lt_of_lt_of_le sooner order) (Nat.lt_irrefl _)
  · intro e inside word
    rcases List.mem_append.mp inside with old | new
    · obtain ⟨f, before, rest⟩ := traced.echoed e old word
      exact ⟨f, List.mem_append_left _ before, rest⟩
    · obtain ⟨f, now, time, rest⟩ := passage.echoed enough on new word
      exact ⟨f, List.mem_append_right _ now,
        time.trans (passage.commit_moves enough quiet new).1.symm, rest⟩

end Passage

omit [WordSource σ] in
theorem simulates_start (b : Bench σ) : b.start.Simulates ↔ b.Simulates := by
  unfold Simulates next? start
  split <;> simp_all

theorem commits_start (b : Bench σ) : b.start.commits = b.commits := by
  unfold commits drained
  rw [arrive_start]
  simp only [simulates_start]

omit [WordSource σ] in
theorem traced_nil (s : Settings) (since n : Nat) : Traced s since n ([] : List (Bench σ)) where
  before _ inside := absurd inside List.not_mem_nil
  worded _ inside := absurd inside List.not_mem_nil
  apart := .nil
  echoed _ inside := absurd inside List.not_mem_nil

variable (source) in
theorem traced_after (wide : 2 ≤ s.timetable.period) (enough : 3 ≤ s.general.maxDeltaRounds.toNat)
    {k : Nat}
    (returned : ∀ j < k, ∃ outcome,
      ((Bench.start (.new s source)).after j).step.result = .ok outcome) :
    ∃ phase n, OnCourse s source ((Bench.start (.new s source)).since k) phase n
        ((Bench.start (.new s source)).after k) ∧
      Traced s ((Bench.start (.new s source)).since k) n ((Bench.start (.new s source)).history k) := by
  induction k with
  | zero =>
    exact ⟨.reset, 0, onCourse_start s source wide, traced_nil s 0 0⟩
  | succ k ih =>
    obtain ⟨phase, n, on, traced⟩ := ih fun j below => returned j (Nat.lt_succ_of_lt below)
    obtain ⟨outcome, returns⟩ := returned k (Nat.lt_succ_self k)
    by_cases done : phase = .done
    · subst done
      have same := after_of_stopped on.stopped_of_done (Nat.le_succ k)
      have silent := commits_of_stopped on.stopped_of_done
      cases k with
      | zero => cases on.stopped_of_done
      | succ k =>
        refine ⟨.done, n, ?_⟩
        rw [Bench.since, history, same, silent, List.append_nil]
        exact ⟨on, traced⟩
    · obtain ⟨d, _, _, _, _, phase'', n', passage⟩ := on.passage wide enough done returns
      have on' := passage.on
      have traced' := passage.traced on enough wide traced
      rw [← d.concluded_now, ← passage.state] at on' traced'
      exact ⟨phase'', n', on', traced'⟩

theorem history_start (s : Settings) (source : σ) (k : Nat) :
    (Bench.start (.new s source)).history k = (Bench.new s source).history k := by
  induction k with
  | zero => rfl
  | succ k ih =>
    rw [history, history, ih]
    rcases Nat.eq_zero_or_pos k with rfl | positive
    · exact congrArg _ (commits_start _)
    · rw [after_start s source positive]

end

instance (c : Bench σ) (l : Line) : Decidable (c.Changes l) :=
  decidable_of_iff _ (c.changes_iff l).symm

end Bench

theorem countP_le_one {α : Type} {p : α → Bool} {l : List α}
    (single : l.Pairwise fun a b => p a = true → ¬p b = true) : l.countP p ≤ 1 := by
  induction single with
  | nil => exact Nat.zero_le 1
  | @cons a l others _ ih =>
    rw [List.countP_cons]
    split
    · rename_i here
      rw [List.countP_eq_zero.mpr fun b inside => others b inside here]
    · exact ih

namespace Recording

variable {σ κ : Type} [WordSource σ] [Sink κ]

/-- No glitches. If the budget is large enough for every instant, each line changes at most once at each
time, over all commits of all steps that share the time, and whenever a word arrives on its line, the
same word is passed on at the same time. The lines change in these commits only. -/
theorem glitch_free (s : Settings) (source : σ) (waveform : Option Waveform) (out : κ) (valid : s.Valid)
    (enough : 3 ≤ s.general.maxDeltaRounds) (n : Nat)
    (returned : ∀ k < n, ∃ outcome,
      ((fresh s source waveform out).after k).step.result = .ok outcome) :
    let r := fresh s source waveform out
    let commits := r.bench.history n
    (∀ t l, (commits.countP fun c => c.now = t ∧ c.Changes l) ≤ 1) ∧
    (∀ c ∈ commits, c.Changes .word → ∃ d ∈ commits, d.now = c.now ∧ d.Changes .wordOut ∧
      d.commit.bus.level .wordOut = c.commit.bus.level .word) ∧
    r.bench.Joined commits (r.after n).bench := by
  intro r commits
  obtain ⟨_, _, _, traced⟩ := Bench.traced_after source valid.wide (UInt64.le_iff_toNat_le.mp enough)
    (bench_returned returned)
  rw [Bench.history_start] at traced
  refine ⟨?_, ?_, (after_bench r n).symm ▸ Bench.Joined.history r.bench n⟩
  · intro t l
    refine countP_le_one (traced.apart.imp fun {c d} apart => ?_)
    simp only [decide_eq_true_eq, Bench.changes_iff]
    rintro ⟨now, moves⟩ ⟨now', moves'⟩
    exact apart (now'.trans now.symm) l moves moves'
  · intro c inside changes
    obtain ⟨d, later, now, moves, same⟩ := traced.echoed c inside ((c.changes_iff .word).mp changes)
    refine ⟨d, later, now, (d.changes_iff .wordOut).mpr moves, ?_⟩
    exact (Bus.level_commit _ _).trans (same.trans (Bus.level_commit _ _).symm)

/-- A word without delay: the two steps at the start make five commits there. -/
theorem glitch_free_of_two_steps :
    ∃ r : Recording (List Word) Memory,
      r = fresh (.immediate 1) [0x48000000] none (.empty none) ∧
      (∀ k < 2, (r.after k).step.result.isOk = true) ∧
      (r.bench.history 2).map (·.now) = [0, 0, 0, 0, 0] ∧
      (∀ t l, ((r.bench.history 2).countP fun c => c.now = t ∧ c.Changes l) ≤ 1) ∧
      ∃ c ∈ r.bench.history 2, c.Changes .word ∧ ∃ d ∈ r.bench.history 2, d.now = c.now ∧
        d.Changes .wordOut ∧ d.commit.bus.level .wordOut = c.commit.bus.level .word := by
  obtain ⟨r, same⟩ : ∃ r : Recording (List Word) Memory,
      r = fresh (.immediate 1) [0x48000000] none (.empty none) := ⟨_, rfl⟩
  have returned : ∀ k < 2, (r.after k).step.result.isOk = true := by
    rw [same]
    decide +kernel
  have shared : (r.bench.history 2).map (·.now) = [0, 0, 0, 0, 0] := by
    rw [same]
    decide +kernel
  have arrives : ∃ c ∈ r.bench.history 2, c.Changes .word := by
    have moved : (r.bench.history 2).any (fun c => c.Changes .word) = true := by
      rw [same]
      decide +kernel
    simpa using moved
  have free := glitch_free (.immediate 1) ([0x48000000] : List Word) none (Memory.empty none)
    (by decide) (by decide) 2
  rw [← same] at free
  obtain ⟨single, passed, _⟩ := free fun k below => Turn.exists_of_isOk (returned k below)
  obtain ⟨c, inside, changes⟩ := arrives
  exact ⟨r, same, returned, shared, single, c, inside, changes, passed c inside changes⟩

end Recording

end IdentifyBench

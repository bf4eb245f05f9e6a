import IdentifyBench.Proofs.Reading
import IdentifyBench.Proofs.Running

/-! What the observer has recorded in the end, as a plain function of the words. A view is due exactly
if the word line moves: the outputs that the observer minds too are settled by the word, and they
move only where it does. -/
namespace IdentifyBench

open WordSource

variable {σ : Type} [WordSource σ]

def Settings.observation (s : Settings) (source : σ) (n : Nat) : Observation where
  time := s.timetable.word n
  word := drawn source n
  control := ⟨false, true, s.stimulus.fullOn n⟩
  identified := identify (drawn source n)
  stall := s.stimulus.fullOn n

/-- One view for every word that differs from the one before it. -/
def Settings.observations (s : Settings) (source : σ) (n : Nat) : List Observation :=
  ((List.range n).filter fun k => drawn source (k + 1) ≠ drawn source k).map fun k =>
    s.observation source (k + 1)

theorem Settings.observations_succ (s : Settings) (source : σ) (n : Nat) :
    s.observations source (n + 1) = s.observations source n ++
      if drawn source (n + 1) = drawn source n then [] else [s.observation source (n + 1)] := by
  unfold observations
  rw [List.range_succ, List.filter_append, List.map_append]
  congr 1
  by_cases same : drawn source (n + 1) = drawn source n
  · simp [same]
  · simp [same]

theorem Settings.observations_of_take (s : Settings) {n : Nat} {source : σ} {words : List Word}
    (supplied : take n source = words.map some) :
    s.observations source n = s.observations words n := by
  have same {k : Nat} (within : k ≤ n) : drawn words k = drawn source k :=
    drawn_of_take supplied within
  unfold observations
  have changes : ∀ k ∈ List.range n, decide (drawn source (k + 1) ≠ drawn source k) =
      decide (drawn words (k + 1) ≠ drawn words k) := by
    intro k inside
    have below := List.mem_range.mp inside
    rw [same below, same (Nat.le_of_lt below)]
  rw [List.filter_congr changes]
  refine List.map_congr_left fun k inside => ?_
  have below := List.mem_range.mp (List.mem_filter.mp inside).1
  rw [observation, observation, same below]

theorem Settings.presentations_of_take (s : Settings) {n : Nat} {source : σ} {words : List Word}
    (supplied : take n source = words.map some) :
    s.presentations source n = s.presentations words n := by
  unfold presentations
  refine List.map_congr_left fun k inside => ?_
  rw [drawn_of_take supplied (List.mem_range.mp inside)]

theorem Settings.observations_increasing (s : Settings) (positive : 0 < s.timetable.period)
    (source : σ) (n : Nat) : (s.observations source n).Pairwise (·.time < ·.time) := by
  unfold observations
  rw [List.pairwise_map]
  refine List.Pairwise.filter _ (List.pairwise_lt_range.imp ?_)
  intro i j below
  have later := Timetable.word_mono positive (Nat.succ_le_succ below)
  exact Nat.lt_of_lt_of_le (Timetable.word_succ_lt positive i) later

/-- The part of a tally that observations make up. -/
def Tally.observed (t : Tally) : Tally :=
  { t with simTime := 0, clockCycles := 0, wordsIssued := 0, stageEvaluations := 0, deltaRounds := 0 }

theorem Tally.observed_classify (t : Tally) (d : Identification) :
    (t.classify d).observed = t.observed.classify d := by
  obtain ⟨_, form, target, condition, _⟩ := d
  rcases form with _ | _ | _
  · cases condition <;> rfl
  · rfl
  · cases target <;> rfl

theorem Tally.observed_record (t : Tally) (o : Observation) :
    (t.record o).observed = t.observed.record o := by
  unfold record
  rw [← observed_classify]
  rfl

namespace Bench

section

omit [WordSource σ]

theorem level_reacted (d : Bench σ) (l : Line) : d.reacted.bus.level l = d.bus.next l := by
  rw [reacted, edge_bus, level_respond]
  exact Bus.level_commit _ _

theorem level_concluded (d : Bench σ) (l : Line) :
    d.concluded.bus.level l = d.reacted.bus.next l := by
  unfold concluded
  dsimp only
  rw [rest_state]
  exact Bus.level_commit _ _

theorem mem_triggers {l : Line} :
    l ∈ Observation.triggers ↔ l = .word ∨ l = .branch ∨ l = .condition := by
  rw [Observation.triggers, LineSet.mem_ofList]
  simp

theorem observe_of_some {b : Bench σ} {o : Observation}
    (seen : Observation.ofBus? b.now b.bus = some o) :
    b.observe.state =
      { b with
        observer :=
          if b.observer.keep then { b.observer with records := b.observer.records.push o }
          else b.observer
        tally := b.tally.record o } := by
  unfold observe Observer.observe
  rw [seen]
  rfl

theorem rest_of_some {b : Bench σ} {o : Observation}
    (seen : Observation.ofBus? b.now b.bus = some o) (round : Nat) :
    (b.rest round true).state.observer =
        (if b.observer.keep then { b.observer with records := b.observer.records.push o }
          else b.observer) ∧
      (b.rest round true).state.tally.observed = b.tally.observed.record o := by
  have observed := observe_of_some
    (b := { b with tally.deltaRounds := max b.tally.deltaRounds round }) seen
  constructor
  · exact congrArg Bench.observer observed
  · exact (congrArg (·.tally.observed) observed).trans (Tally.observed_record _ o)

theorem reacted_observed (d : Bench σ) :
    d.reacted.observer = d.observer ∧ d.reacted.tally.observed = d.tally.observed := by
  unfold reacted edge respond
  split <;> split
  · dsimp only
    split <;> exact ⟨rfl, rfl⟩
  · exact ⟨rfl, rfl⟩
  · dsimp only
    split <;> exact ⟨rfl, rfl⟩
  · exact ⟨rfl, rfl⟩

theorem concluded_of_unwatched {d : Bench σ} (unwatched : d.watched = false) :
    d.concluded.observer = d.observer ∧ d.concluded.tally.observed = d.tally.observed := by
  obtain ⟨observer, tally⟩ := d.reacted_observed
  unfold concluded rest
  rw [unwatched]
  exact ⟨observer, tally⟩

theorem concluded_of_watched {d : Bench σ} (watched : d.watched = true) {o : Observation}
    (seen : Observation.ofBus? d.now d.concluded.bus = some o) :
    d.concluded.observer =
        (if d.observer.keep then { d.observer with records := d.observer.records.push o }
          else d.observer) ∧
      d.concluded.tally.observed = d.tally.observed.record o := by
  obtain ⟨observer, tally⟩ := d.reacted_observed
  have bus : d.concluded.bus = d.reacted.commit.bus := by
    unfold concluded
    dsimp only
    rw [rest_state]
  have now : d.reacted.commit.now = d.now := by
    rw [← d.concluded_now]
    unfold concluded
    dsimp only
    rw [rest_state]
  rw [bus, ← now] at seen
  obtain ⟨pushed, recorded⟩ := rest_of_some seen d.rounds
  rw [show d.reacted.commit.observer = d.observer from observer] at pushed
  rw [show d.reacted.commit.tally.observed = d.tally.observed from tally] at recorded
  unfold concluded
  rw [watched]
  exact ⟨pushed, recorded⟩

end

variable {s : Settings} {source : σ} {since : Nat} {phase : Phase} {n : Nat} {b : Bench σ}

theorem OnCourse.carries (on : OnCourse s source since phase n b) :
    b.bus.Carries ⟨if phase.enabled then identify (drawn source n) else .neutral,
      s.stimulus.fullOn n⟩ := by
  have held := on.settled.held
  have outputs := on.settled.outputs
  have stands := on.stands
  rw [on.inputs] at outputs
  cases phase with
  | reset =>
    rw [Stage.outputs_of_disabled rfl rfl, on.idle rfl] at outputs
    exact outputs
  | release =>
    obtain ⟨rfl, _⟩ := stands
    exact outputs
  | enable =>
    rw [Stage.outputs_of_disabled rfl rfl, on.idle rfl] at outputs
    exact outputs
  | awaitFetch => exact outputs
  | present => exact outputs
  | done => exact outputs

theorem OnCourse.count_of_disabled (on : OnCourse s source since phase n b)
    (disabled : phase.enabled = false) : n = 0 := by
  have stands := on.stands
  cases phase with
  | reset => exact stands.1
  | release => exact stands.1
  | enable => exact stands.1
  | awaitFetch => cases disabled
  | present => cases disabled
  | done => cases disabled

/-- The outputs tell about the word on the lines, enabled or not: the lines start with the word zero,
about which there is nothing to tell. -/
theorem OnCourse.carries_drawn (on : OnCourse s source since phase n b) :
    b.bus.Carries ⟨identify (drawn source n), s.stimulus.fullOn n⟩ := by
  have carries := on.carries
  cases enabled : phase.enabled with
  | true =>
    rw [enabled] at carries
    exact carries
  | false =>
    have zero : identify 0 = .neutral := by decide
    rw [enabled] at carries
    rw [on.count_of_disabled enabled, drawn, zero] at *
    exact carries

omit [WordSource σ] in
theorem moves_iff_of_output {t : Nat} {d : Bench σ} (quiet : b.bus.Quiet)
    (frame : Frame { b with now := t } d) {l : Line} (output : l ∉ stageInputs) :
    l ∉ d.moved ∧ (l ∈ d.reacted.moved ↔ d.concluded.bus.level l ≠ b.bus.level l) := by
  have kept : d.bus.get l = b.bus.get l := frame.bus.outputs l output
  have still : d.bus.next l = b.bus.level l := by
    rw [Bus.next, kept]
    exact quiet.next_eq l
  rw [moved, moved, Bus.mem_moved, Bus.mem_moved, level_concluded, level_reacted, still,
    frame.bus.levels l]
  exact ⟨fun moves => moves rfl, Iff.rfl⟩

/-- A view is due exactly if the word on the lines changes. -/
theorem watched_iff {t since' : Nat} {d : Bench σ} {phase' phase'' : Phase} {n' : Nat}
    (on : OnCourse s source since phase n b) (frame : Frame { b with now := t } d)
    (standing : d.At s source phase' n') (on' : OnCourse s source since' phase'' n' d.concluded) :
    d.watched = true ↔ drawn source n' ≠ drawn source n := by
  have next : d.bus.next .word = drawn source n' := congrArg StageInputs.word standing.lines
  have level : d.bus.level .word = drawn source n :=
    (frame.bus.levels .word).trans (congrArg StageInputs.word on.inputs)
  obtain ⟨branchStill, branch⟩ :=
    moves_iff_of_output (l := .branch) on.settled.quiet frame (by decide)
  obtain ⟨conditionStill, condition⟩ :=
    moves_iff_of_output (l := .condition) on.settled.quiet frame (by decide)
  rw [on'.carries_drawn .branch _ rfl, on.carries_drawn .branch _ rfl] at branch
  rw [on'.carries_drawn .condition _ rfl, on.carries_drawn .condition _ rfl] at condition
  rw [watched, Bool.or_eq_true, LineSet.intersects_iff, LineSet.intersects_iff]
  -- Inputs move in the first round and outputs in the second one, where they follow the word.
  constructor
  · rintro (⟨l, moves, minds⟩ | ⟨l, moves, minds⟩) same
    · rcases mem_triggers.mp minds with rfl | rfl | rfl
      · rw [moved, Bus.mem_moved, next, level] at moves
        exact moves same
      · exact branchStill moves
      · exact conditionStill moves
    · rw [same] at branch condition
      rcases mem_triggers.mp minds with rfl | rfl | rfl
      · exact not_mem_moved_of_inputsQuiet d.reacted_inputsQuiet (by decide) moves
      · exact branch.mp moves rfl
      · exact condition.mp moves rfl
  · intro changes
    refine .inl ⟨.word, ?_, mem_triggers.mpr (.inl rfl)⟩
    rw [moved, Bus.mem_moved, next, level]
    exact changes

theorem OnCourse.seen (on : OnCourse s source since phase n b) (issued : 0 < n) (time : Instant) :
    Observation.ofBus? time b.bus =
      .some { s.observation source n with time := time } := by
  have carries := on.carries_drawn
  have enabled : phase.enabled = true := by
    by_contra disabled
    exact absurd (on.count_of_disabled (Bool.not_eq_true _ ▸ disabled)) (Nat.ne_of_gt issued)
  have released : (phase == .release) = false := by
    cases phase <;> first | rfl | cases enabled
  have stall : b.bus.stall.level = s.stimulus.fullOn n := carries .stall _ rfl
  unfold Observation.ofBus?
  rw [Bus.identification?_of_carries carries (identify_consistent _), on.inputs, stall,
    Stimulus.lines, enabled, released]
  rfl

/-- The observer has kept one view for every word that differs from the one before it, and the tally
has counted just these. -/
structure Recorded (s : Settings) (source : σ) (b : Bench σ) : Prop where
  keep : b.observer.keep = true
  records : b.observer.records.toList = s.observations source b.tally.wordsIssued
  tally : b.tally.observed =
    (s.observations source b.tally.wordsIssued).foldl Tally.record .empty

theorem recorded_concluded {t : Nat} {d : Bench σ} {phase' phase'' : Phase} {n' since' : Nat}
    (on : OnCourse s source since phase n b) (recorded : b.Recorded s source)
    (frame : Frame { b with now := t } d) (standing : d.At s source phase' n')
    (on' : OnCourse s source since' phase'' n' d.concluded)
    (count : n' = n ∨ n' = n + 1 ∧ d.now = s.timetable.word (n + 1)) :
    d.concluded.Recorded s source := by
  have observer : d.observer = b.observer := frame.observer
  have tally : d.tally.observed = b.tally.observed := by
    rw [frame.tally]
    rfl
  have issued := on.standing.issued
  have issued' := on'.standing.issued
  obtain ⟨keep, records, counted⟩ := recorded
  rw [issued] at records counted
  have watched := watched_iff on frame standing on'
  by_cases same : drawn source n' = drawn source n
  · have unwatched : d.watched = false := by
      rw [Bool.eq_false_iff]
      exact fun due => watched.mp due same
    obtain ⟨unchanged, uncounted⟩ := concluded_of_unwatched unwatched
    have views : s.observations source n' = s.observations source n := by
      rcases count with rfl | ⟨rfl, _⟩
      · rfl
      · rw [s.observations_succ, if_pos same, List.append_nil]
    refine ⟨?_, ?_, ?_⟩
    · rw [unchanged, observer]
      exact keep
    · rw [unchanged, observer, issued', views]
      exact records
    · rw [uncounted, tally, issued', views]
      exact counted
  · obtain ⟨rfl, time⟩ := count.resolve_left fun still => same (congrArg (drawn source) still)
    have seen := on'.seen (Nat.succ_pos n) d.now
    have view : { s.observation source (n + 1) with time := d.now } = s.observation source (n + 1) := by
      rw [time]
      rfl
    rw [view] at seen
    obtain ⟨pushed, added⟩ := concluded_of_watched (watched.mpr same) seen
    rw [observer, if_pos keep] at pushed
    have views : s.observations source (n + 1) =
        s.observations source n ++ [s.observation source (n + 1)] := by
      rw [s.observations_succ, if_neg same]
    refine ⟨?_, ?_, ?_⟩
    · rw [pushed]
      exact keep
    · rw [pushed, issued', views, ← records]
      exact Array.toList_push
    · rw [added, tally, counted, issued', views, List.foldl_append]
      rfl

theorem recorded_step {outcome : Outcome} (on : OnCourse s source since phase n b)
    (wide : 2 ≤ s.timetable.period) (enough : 3 ≤ s.general.maxDeltaRounds.toNat)
    (going : phase ≠ .done) (recorded : b.Recorded s source) (returned : b.step.result = .ok outcome) :
    b.step.state.Recorded s source := by
  have positive : 0 < s.timetable.period := Nat.lt_of_lt_of_le Nat.two_pos wide
  obtain ⟨t, level, c, passes, _, cases⟩ := on.step_cases wide going
  rcases cases with ⟨limit, _, _, _, step⟩ | ⟨_, _, step⟩ | ⟨_, within, under, step⟩
  · rw [step] at returned
    cases returned
  · exact ((Turn.ends_iff_of_ok returned).mp step).elim
  · have built := on.built.arrive within
    have answered := on.settled.answered.arrive t
    have ends := under.instant_ends built enough
    rw [← step, Turn.ends_iff_of_ok returned] at ends
    obtain ⟨d, told, frame, ⟨toggled, phase', n', under', clockOver, stimulusOver, events⟩, state, _⟩ :=
      ends
    obtain ⟨phase'', on', _⟩ := under'.concludes clockOver stimulusOver (frame.answered answered)
      (built.frame frame)
    have now : d.now = t := frame.now
    have kept := count_le_of_told events
    have passes' := under'.passes
    have recent := under'.recent
    rw [now] at passes' recent
    have count := Timetable.Passes.count_cases positive passes passes' going recent kept
    rw [← now] at count
    rw [state]
    exact recorded_concluded on recorded frame under'.standing on' count

end Bench

namespace Recording

variable {κ : Type} [Sink κ] {s : Settings} {source : σ}

theorem recorded_after (source : σ) (wide : 2 ≤ s.timetable.period)
    (enough : 3 ≤ s.general.maxDeltaRounds.toNat) (keep : s.general.keepObservations = true) {k : Nat}
    (going : ∀ j < k, ∃ t, ((Bench.start (.new s source)).after j).step.result = .ok (.advanced t)) :
    ((Bench.start (.new s source)).after k).Recorded s source := by
  induction k with
  | zero => exact ⟨keep, rfl, rfl⟩
  | succ k ih =>
    have earlier : ∀ j < k, ∃ t,
        ((Bench.start (.new s source)).after j).step.result = .ok (.advanced t) :=
      fun j below => going j (Nat.lt_succ_of_lt below)
    obtain ⟨since, phase, n, on, unfinished, _⟩ := Bench.course source wide enough earlier
    obtain ⟨t, returned⟩ := going k (Nat.lt_succ_self k)
    exact Bench.recorded_step on wide enough unfinished (ih earlier) returned

/-- A run that returns has drawn all of its words. It has told about each of them at the time it was
presented, and the observer has kept one view for every word that differs from the one before it, in
order. The tally has counted these views and no others. -/
theorem run_records (s : Settings) (source : σ) (waveform : Option Waveform) (out : κ) (tally : Tally)
    (valid : s.Valid) (enough : 3 ≤ s.general.maxDeltaRounds)
    (keep : s.general.keepObservations = true)
    (returns : (fresh s source waveform out).run.result = .ok tally) :
    let turn := (fresh s source waveform out).run
    ∃ words : List Word, take s.timetable.cycles source = words.map some ∧
      turn.events.filter Event.isPresented = s.presentations words words.length ∧
      turn.state.bench.observer.records.toList = s.observations words words.length ∧
      (s.observations words words.length).Pairwise (·.time < ·.time) ∧
      turn.state.bench.tally = tally ∧
      tally.observed = (s.observations words words.length).foldl Tally.record .empty := by
  intro turn
  have wide := valid.wide
  have positive : 0 < s.timetable.period := Nat.lt_of_lt_of_le Nat.two_pos wide
  have enough : 3 ≤ s.general.maxDeltaRounds.toNat := UInt64.le_iff_toNat_le.mp enough
  obtain ⟨k, since, phase, n, on, unfinished, going, state, ends⟩ :=
    run_ends source wide enough waveform out (unbroken_of_returns returns)
  rw [Turn.ends_iff_of_ok returns] at ends
  obtain ⟨rfl, told, more, outcome, last, advances⟩ := ends
  obtain ⟨words, supplied⟩ := exists_words advances.on.standing.supplied
  have length := length_of_take supplied
  have recorded : turn.state.bench.Recorded s source := by
    have before := recorded_after source wide enough keep
      fun j below => bench_goesOn (going j below)
    have after := Bench.recorded_step on wide enough unfinished before last
    rw [show turn.state = _ from state, after_bench]
    rw [← Bench.after, Bench.after_start s source (Nat.succ_pos k)] at after
    exact after
  obtain ⟨_, records, counted⟩ := recorded
  rw [advances.on.standing.issued, s.observations_of_take supplied] at records counted
  rw [s.presentations_of_take supplied] at told
  refine ⟨words, supplied, ?_, ?_, s.observations_increasing positive words words.length, rfl, ?_⟩
  · rw [length]
    exact told
  · rw [length]
    exact records
  · rw [length]
    exact counted

theorem records_of_repeated_word :
    let turn := (fresh (.immediate 3) ([5, 5, 7] : List Word) none (Memory.empty none)).run
    (Settings.immediate 3).Valid ∧ turn.result.isOk = true ∧
      turn.state.bench.observer.records.toList.map (·.word) = [5, 7] := by
  have valid : (Settings.immediate 3).Valid := by decide
  have succeeds : (fresh (.immediate 3) ([5, 5, 7] : List Word) none
      (Memory.empty none)).run.result.isOk = true := by decide +kernel
  refine ⟨valid, succeeds, ?_⟩
  cases returns : (fresh (.immediate 3) ([5, 5, 7] : List Word) none (Memory.empty none)).run.result with
  | error halt =>
    rw [returns] at succeeds
    cases succeeds
  | ok tally =>
    obtain ⟨words, supplied, _, records, _⟩ := run_records (.immediate 3) ([5, 5, 7] : List Word) none
      (Memory.empty none) tally valid (by decide) rfl returns
    have drawn : ([5, 5, 7] : List Word).map some = words.map some := supplied
    obtain rfl := List.map_injective_iff.mpr (Option.some_injective Word) drawn
    rw [records]
    decide +kernel

end Recording

end IdentifyBench

import IdentifyBench.Proofs.Straying

/-! When the kept views were taken. On its course a bench takes a view only at the time of a word, and
off its course none at all. Where the budget of delta rounds is too small for an instant to settle, its
view is missing, and the bench goes on as if it had been taken. -/
namespace IdentifyBench

open WordSource

/-- Views that were taken one after the other, each at the time of one of the first `n` words or
before. -/
structure Settings.Logged (s : Settings) (n : Nat) (records : List Observation) : Prop where
  increasing : records.Pairwise (·.time < ·.time)
  presented : ∀ o ∈ records, 0 < n ∧ o.time ≤ s.timetable.word n

namespace Settings.Logged

variable {s : Settings} {n n' : Nat} {records : List Observation}

theorem mono (logged : s.Logged n records) (positive : 0 < s.timetable.period) (le : n ≤ n') :
    s.Logged n' records where
  increasing := logged.increasing
  presented o kept := by
    obtain ⟨issued, past⟩ := logged.presented o kept
    exact ⟨Nat.lt_of_lt_of_le issued le, Nat.le_trans past (Timetable.word_mono positive le)⟩

theorem push (logged : s.Logged n records) (positive : 0 < s.timetable.period) {o : Observation}
    (time : o.time = s.timetable.word (n + 1)) : s.Logged (n + 1) (records ++ [o]) where
  increasing := by
    refine List.pairwise_append.mpr ⟨logged.increasing, List.pairwise_singleton _ _, ?_⟩
    intro v kept w last
    obtain rfl := List.mem_singleton.mp last
    obtain ⟨issued, past⟩ := logged.presented v kept
    obtain ⟨m, rfl⟩ := Nat.exists_eq_succ_of_ne_zero (Nat.ne_of_gt issued)
    rw [time]
    exact Nat.lt_of_le_of_lt past (Timetable.word_succ_lt positive m)
  presented v kept := by
    rcases List.mem_append.mp kept with before | last
    · exact (logged.mono positive (Nat.le_succ n)).presented v before
    · obtain rfl := List.mem_singleton.mp last
      exact ⟨Nat.succ_pos n, Nat.le_of_eq time⟩

end Settings.Logged

namespace Bench

variable {σ : Type}

/-- The kept views lie behind, and no two of them were taken at one time. -/
structure Dated (b : Bench σ) : Prop where
  increasing : b.observer.records.toList.Pairwise (·.time < ·.time)
  past : ∀ o ∈ b.observer.records.toList, o.time ≤ b.now

theorem Dated.later {b d : Bench σ} (dated : b.Dated) (observer : d.observer = b.observer)
    (later : b.now ≤ d.now) : d.Dated where
  increasing := by
    rw [observer]
    exact dated.increasing
  past o kept := by
    rw [observer] at kept
    exact Nat.le_trans (dated.past o kept) later

variable [WordSource σ] {s : Settings} {source : σ} {since since' n n' c : Nat}
  {phase phase' phase'' : Phase} {b d : Bench σ} {level toggled : Bool}

theorem OnCourse.dated (on : OnCourse s source since phase n b) (positive : 0 < s.timetable.period)
    (logged : s.Logged n b.observer.records.toList) : b.Dated where
  increasing := logged.increasing
  past o kept := by
    obtain ⟨issued, past⟩ := logged.presented o kept
    have behind := on.stands.word_lt positive issued
    rw [on.now]
    exact Nat.le_trans past (Nat.le_sub_one_of_lt behind)

theorem Crossing.le_count (crossing : Crossing s source since n b d level c toggled phase' phase'' n') :
    n ≤ n' := by
  rcases crossing.count with rfl | ⟨rfl, _⟩
  · exact Nat.le_refl _
  · exact Nat.le_succ n

theorem Crossing.logged (crossing : Crossing s source since n b d level c toggled phase' phase'' n')
    (on : OnCourse s source since' phase n b) (logged : s.Logged n b.observer.records.toList) :
    s.Logged n' d.concluded.observer.records.toList := by
  have positive : 0 < s.timetable.period := Nat.lt_of_lt_of_le Nat.two_pos crossing.under.wide
  have observer : d.observer = b.observer := crossing.frame.observer
  cases watched : d.watched with
  | false =>
    rw [(concluded_of_unwatched watched).1, observer]
    exact logged.mono positive crossing.le_count
  | true =>
    have changes := (watched_iff on crossing.frame crossing.under.standing crossing.on).mp watched
    obtain ⟨rfl, time⟩ := crossing.count.resolve_left fun still => changes (congrArg (drawn source) still)
    have seen := crossing.on.seen (Nat.succ_pos n) d.now
    have pushed := (concluded_of_watched watched seen).1
    rw [pushed, observer]
    split
    · rw [Array.toList_push]
      exact logged.push positive time
    · exact logged.mono positive (Nat.le_succ n)

/-- With a budget of two rounds an instant may fail to settle. What it lacks then is the view. -/
theorem settle_of_two {d : Bench σ} (calm : d.Calm) {left : Nat} (enough : 2 ≤ left) :
    (settle left 0 false d).Ends
      (fun e _ _ => e = (d.reacted.commit.rest d.rounds d.watched).state)
      fun e _ _ => e = d.reacted.commit := by
  rcases Nat.eq_or_lt_of_le enough with rfl | more
  · rw [settle_succ]
    unfold rounds watched
    split
    · rename_i empty
      have settled : d.commit.bus.Quiet := d.bus.commit_quiet
      rw [Turn.ends_iff_of_ok (rest_result _ _ _), reacted_of_still empty, commit_of_quiet settled,
        not_intersects_of_isEmpty empty, not_intersects_of_isEmpty (moved_of_quiet settled)]
      rfl
    · rw [react_of_calm calm, Turn.andThen_ends, Turn.ends_done, settle_succ, Bool.false_or]
      split
      · rename_i empty
        rw [Turn.ends_iff_of_ok (rest_result _ _ _), not_intersects_of_isEmpty empty, Bool.or_false]
      · rw [react_of_inputsQuiet d.reacted_inputsQuiet]
        exact rfl
  · rw [settle_of_calm calm more, Turn.andThen_ends, Turn.ends_done, Turn.ends_iff_of_ok (rest_result _ _ _)]
    rfl

theorem conclude_of_two {d : Bench σ} (calm : d.Calm) (enough : 2 ≤ d.maxRounds) :
    d.conclude.state = d.concluded ∨ d.conclude.state = d.reacted.commit := by
  have settles := settle_of_two calm enough
  rw [conclude]
  cases returned : (settle d.maxRounds 0 false d).result with
  | error halt =>
    rw [Turn.ends_iff_of_error returned] at settles
    rw [Turn.andThen_of_error returned]
    exact .inr settles
  | ok x =>
    rw [Turn.ends_iff_of_ok returned] at settles
    rw [Turn.andThen_of_ok returned]
    dsimp only
    rw [settles]
    exact .inl rfl

omit [WordSource σ] in
theorem concluded_eq (d : Bench σ) :
    d.concluded = { d.reacted.commit with
      observer := d.concluded.observer, tally := d.concluded.tally } := by
  unfold concluded
  dsimp only
  rw [rest_state]

theorem OnCourse.of_concluded (on : OnCourse s source since phase n d.concluded) :
    OnCourse s source since phase n d.reacted.commit := by
  have issued : d.concluded.tally.wordsIssued = d.reacted.commit.tally.wordsIssued :=
    rest_issued d.reacted.commit d.rounds d.watched
  have counted := issued.symm.trans on.standing.issued
  rw [d.concluded_eq] at on
  exact {
    standing := { on.standing with issued := counted }
    stands := on.stands
    due := on.due
    ordered := on.ordered
    rhythm := on.rhythm
    clock := on.clock
    settled := ⟨on.settled.quiet, on.settled.held, on.settled.outputs⟩
    idle := on.idle
    built := { on.built with }
    now := on.now }

theorem OnCourse.dries {tick : Option Instant} {place : Whereabouts} {f : Failure}
    (on : OnCourse s source since phase n b) (housed : b.Housed s tick place)
    (arrive : b.arrive = { b with now := b.arrive.now })
    (halts : (drain (maxWakeups + 1) b.arrive).result = .error (.failure f)) :
    (drain (maxWakeups + 1) b.arrive).state.Lost s := by
  have arrived := housed.arrived.1
  by_cases due : b.arrive.stimulus.phase = .present
  · have dry := arrived.drain_dry due (maxWakeups + 1)
    have answered : b.arrive.Answered := arrive ▸ on.settled.answered.arrive _
    rw [Turn.ends_iff_of_error halts] at dry
    obtain ⟨lost, kept⟩ := dry.resolve_left nofun
    have bus : b.arrive.bus = b.bus := by rw [arrive]
    refine ⟨lost, (frame_drain _ _).answered answered, fun l other => ?_⟩
    rw [Bus.next, Bus.level, kept l other, bus]
    exact on.settled.quiet.next_eq l
  · have endless := arrived.drain_undrawn due (maxWakeups + 1)
    rw [Turn.ends_iff_of_error halts] at endless
    cases endless

/-- The bench is on its course or off it for good, and its views are in order. -/
inductive Viewing (s : Settings) (source : σ) (b : Bench σ) : Prop
  | following {since : Nat} {phase : Phase} {n : Nat} (on : OnCourse s source since phase n b)
      (logged : s.Logged n b.observer.records.toList)
  | stranded (stranded : b.Stranded s) (dated : b.Dated)

theorem Viewing.dated (viewing : b.Viewing s source) (positive : 0 < s.timetable.period) : b.Dated := by
  cases viewing with
  | following on logged => exact on.dated positive logged
  | stranded _ dated => exact dated

theorem Crossing.views (crossing : Crossing s source since n b d level c toggled phase' phase'' n')
    (on : OnCourse s source since' phase n b) (enough : 2 ≤ s.general.maxDeltaRounds.toNat)
    (logged : s.Logged n b.observer.records.toList) : d.conclude.state.Viewing s source := by
  have positive : 0 < s.timetable.period := Nat.lt_of_lt_of_le Nat.two_pos crossing.under.wide
  rcases conclude_of_two crossing.under.standing.calm (crossing.built.rounds.symm ▸ enough) with
    state | state
  · rw [state]
    exact .following crossing.on (crossing.logged on logged)
  · have observer : d.reacted.commit.observer = b.observer :=
      d.reacted_observed.1.trans crossing.frame.observer
    rw [state]
    refine .following crossing.on.of_concluded ?_
    rw [observer]
    exact logged.mono positive crossing.le_count

theorem OnCourse.step_views {tick : Option Instant} {place : Whereabouts}
    (on : OnCourse s source since phase n b) (housed : b.Housed s tick place)
    (wide : 2 ≤ s.timetable.period) (enough : 2 ≤ s.general.maxDeltaRounds.toNat)
    (logged : s.Logged n b.observer.records.toList) : b.step.state.Viewing s source := by
  have positive : 0 < s.timetable.period := Nat.lt_of_lt_of_le Nat.two_pos wide
  have later {e : Bench σ} (state : b.step.state = e) (observer : e.observer = b.observer) : e.Dated :=
    (on.dated positive logged).later observer (state ▸ housed.now_le_step)
  by_cases done : phase = .done
  · subst done
    rw [step, stepWithin_of_stopped on.stopped_of_done]
    exact .following on logged
  · have running : b.stopped = false := by
      rw [on.standing.stopped]
      exact beq_eq_false_iff_ne.mpr done
    rcases stepWithin_cases running with
      ⟨_, step⟩ | ⟨first, rest, limit, given, beyond, next, step⟩ | simulates
    · rw [Bench.step, step, housed.start_eq]
      exact .following on logged
    · rw [housed.start_eq] at next step
      have barred := barred_of_refused on.built.started on.ordered next given beyond
      have state : b.step.state = { b with agenda := rest } := congrArg Turn.state (step maxWakeups)
      rw [state]
      exact .stranded (.barred barred) (later state rfl)
    · have step : b.step = (drain (maxWakeups + 1) b.arrive).andThen fun d _ => d.conclude :=
        stepWithin_of_simulates simulates maxWakeups
      obtain ⟨arrive, built, ⟨level, c, under⟩ | atEnd⟩ := on.arrival wide done simulates
      · rcases on.crossing wide done arrive built under with
          ⟨d, toggled, phase', phase'', n', crossing⟩ | ⟨_, _, dry⟩
        · rw [step, Turn.andThen_of_ok crossing.drained]
          dsimp only
          rw [crossing.reached]
          exact crossing.views on enough logged
        · have state : b.step.state = (drain (maxWakeups + 1) b.arrive).state := by
            rw [step, Turn.andThen_of_error dry]
          have observer : (drain (maxWakeups + 1) b.arrive).state.observer = b.observer := by
            rw [(frame_drain _ _).observer, arrive]
          rw [state]
          exact .stranded (.lost (on.dries housed arrive dry)) (later state observer)
      · obtain ⟨stranded, observer⟩ := atEnd.step built simulates
        exact .stranded stranded (later rfl (observer.trans (by rw [arrive])))

theorem viewing_after (source : σ) (wide : 2 ≤ s.timetable.period)
    (enough : 2 ≤ s.general.maxDeltaRounds.toNat) (k : Nat) :
    ((Bench.start (.new s source)).after k).Viewing s source := by
  induction k with
  | zero =>
    exact .following (onCourse_start s source wide) ⟨List.Pairwise.nil, fun o kept => by cases kept⟩
  | succ k ih =>
    obtain ⟨tick, place, housed, _⟩ := housed_after s source k
    cases ih with
    | following on logged => exact on.step_views housed wide enough logged
    | stranded stranded dated =>
      obtain ⟨stepped, observer⟩ := stranded.step housed.ordered
      exact .stranded stepped (dated.later observer housed.now_le_step)

/-- A single round is never enough for a view. -/
theorem step_blind {tick : Option Instant} {place : Whereabouts} (housed : b.Housed s tick place)
    (tight : s.general.maxDeltaRounds.toNat < 2) : b.step.state.observer = b.observer := by
  have settles {tick : Option Instant} {place : Whereabouts} {d : Bench σ}
      (housed : d.Housed s tick place) : (settle d.maxRounds 0 false d).state.observer = d.observer := by
    obtain zero | one : d.maxRounds = 0 ∨ d.maxRounds = 1 := by
      have rounds := housed.rounds
      omega
    · rw [zero]
      rfl
    · rw [one, settle_succ]
      split
      · rfl
      · rw [react_of_calm housed.calm]
        exact d.reacted_observed.1
  cases going : b.stopped with
  | true => rw [step, stepWithin_of_stopped going]
  | false =>
    rcases stepWithin_cases going with ⟨_, step⟩ | ⟨_, _, _, _, _, _, step⟩ | simulates
    · rw [Bench.step, step, housed.start_eq]
      rfl
    · rw [Bench.step, step, housed.start_eq]
      rfl
    · have arrived : b.arrive.observer = b.observer := by rw [arrive, housed.start_eq]
      have drained := (housed.arrived.1.drain (maxWakeups + 1)).and_state (frame_drain _ _)
      rw [step, stepWithin_of_simulates simulates]
      refine Turn.Ends.state (P := fun e : Bench σ => e.observer = b.observer) ?_
      rw [Turn.andThen_ends]
      refine drained.mono ?_ ?_
      · rintro d _ _ ⟨⟨_, _, woken, _⟩, frame⟩
        have concluded : d.conclude.state.observer = d.observer :=
          Turn.state_andThen (P := fun e : Bench σ => e.observer = d.observer) (settles woken)
            fun _ _ kept => kept
        have kept := concluded.trans (frame.observer.trans arrived)
        unfold Turn.Ends
        split <;> exact kept
      · rintro d _ _ ⟨_, frame⟩
        exact frame.observer.trans arrived

theorem dated_after (source : σ) (wide : 2 ≤ s.timetable.period) (k : Nat) :
    ((Bench.start (.new s source)).after k).Dated := by
  rcases Nat.lt_or_ge s.general.maxDeltaRounds.toNat 2 with tight | enough
  · have blind : ((Bench.start (.new s source)).after k).observer.records = #[] := by
      induction k with
      | zero => rfl
      | succ k ih =>
        obtain ⟨tick, place, housed, _⟩ := housed_after s source k
        rw [after, step_blind housed tight]
        exact ih
    refine ⟨?_, ?_⟩
    · rw [blind]
      exact List.Pairwise.nil
    · rw [blind]
      exact fun o kept => by cases kept
  · exact (viewing_after source wide enough k).dated (Nat.lt_of_lt_of_le Nat.two_pos wide)

end Bench

namespace Recording

variable {σ κ : Type} [WordSource σ] [Sink κ]

/-- The books balance, whatever is called and whatever fails: in every state the tally agrees with the
stage, the stimulus and the observer on what each of them counts, and a word is counted exactly if the
source has given it. No more words are asked for than there are cycles, time keeps to its limit, and the
kept views lie behind, each of them later than the one before. -/
theorem books_balance (s : Settings) (source : σ) (waveform : Option Waveform) (out : κ)
    (valid : s.Valid) (calls : List Call) :
    let b := (calls.foldl call (fresh s source waveform out)).bench
    b.tally.stageEvaluations = b.stage.evaluations ∧
    b.tally.wordsIssued = b.stimulus.issued ∧
    (∃ n, b.stimulus.source = drop source n ∧
      b.stimulus.issued = (take n source).countP (·.isSome)) ∧
    (∀ log : σ → List (Option Word), log source = [] →
      (∀ g, log (WordSource.next g).2 = log g ++ [(WordSource.next g).1]) →
      b.stimulus.issued = (log b.stimulus.source).countP (·.isSome)) ∧
    b.stimulus.issued ≤ s.timetable.cycles ∧
    (s.general.keepObservations = true → b.tally.observations = b.observer.records.size) ∧
    b.tally.simTime ≤ b.now ∧
    (∀ limit ∈ s.general.maxTime, b.now ≤ limit.toNat) ∧
    (∀ o ∈ b.observer.records.toList, o.time ≤ b.now) ∧
    b.observer.records.toList.Pairwise (·.time < ·.time) := by
  intro b
  obtain ⟨balanced, dated⟩ : b.Balanced s source ∧ b.Dated := by
    obtain ⟨n, made⟩ := calls_bench calls (fresh s source waveform out)
    rw [show b = (Bench.new s source).after n from made]
    rcases Nat.eq_zero_or_pos n with rfl | positive
    · have started := Bench.balanced_start s source
      exact ⟨(Bench.enduring_balanced s source).replan [] false started,
        List.Pairwise.nil, fun o kept => by cases kept⟩
    · rw [← Bench.after_start s source positive]
      exact ⟨Bench.balanced_after s source n, Bench.dated_after source valid.wide n⟩
  obtain ⟨n, left, counted⟩ := balanced.accounts.drawn
  refine ⟨balanced.evaluations, balanced.issued, ⟨n, left, counted⟩, ?_, balanced.accounts.count,
    fun keeps => balanced.records (balanced.keep.trans keeps), balanced.simTime, ?_, dated.past,
    dated.increasing⟩
  · intro log start keeps
    rw [left, kept_drop start keeps]
    exact counted
  · exact fun limit given => balanced.within _ (balanced.limit.symm ▸ Option.mem_map_of_mem _ given)

/-- Nothing of the waveform can be written, and the source gives one word of two. -/
theorem books_balance_of_dry_source :
    ∃ r : Recording (List Word) Memory,
      r = fresh (.immediate 2) [5] (some .blank) (.empty (some 0)) ∧
      r.step.result.isOk = false ∧ (r.after 4).step.result.isOk = false ∧
      let b := ([.step, .run, .step, .step, .step, .run].foldl call r).bench
      b.now = 3 ∧ b.stimulus.issued = 1 ∧ b.tally.wordsIssued = 1 ∧
        b.tally.stageEvaluations = b.stage.evaluations ∧ b.observer.records.size = 1 ∧
        b.tally.observations = 1 ∧ ∀ o ∈ b.observer.records.toList, o.time ≤ 3 := by
  obtain ⟨r, same⟩ : ∃ r : Recording (List Word) Memory,
      r = fresh (.immediate 2) [5] (some .blank) (.empty (some 0)) := ⟨_, rfl⟩
  obtain ⟨b, called⟩ : ∃ b, b = ([.step, .run, .step, .step, .step, .run].foldl call r).bench :=
    ⟨_, rfl⟩
  have balance := books_balance (.immediate 2) ([5] : List Word) (some .blank) (Memory.empty (some 0))
    (by decide) [.step, .run, .step, .step, .step, .run]
  rw [← same] at balance
  dsimp only at balance
  rw [← called] at balance
  obtain ⟨evaluations, counted, _, _, _, observed, _, _, past, _⟩ := balance
  have now : b.now = 3 := by
    rw [called, same]
    decide +kernel
  have issued : b.stimulus.issued = 1 := by
    rw [called, same]
    decide +kernel
  have kept : b.observer.records.size = 1 := by
    rw [called, same]
    decide +kernel
  refine ⟨r, same, by rw [same]; decide +kernel, by rw [same]; decide +kernel, ?_⟩
  rw [← called]
  rw [now] at past
  exact ⟨now, issued, counted.trans issued, evaluations, kept, (observed rfl).trans kept, past⟩

end Recording

end IdentifyBench

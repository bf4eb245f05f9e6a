import IdentifyBench.Proofs.Concluding

/-! One step of a bench on its course. The next instant is the one at which clock or stimulus is due,
whichever is sooner. A step is refused if that lies beyond the limit; otherwise the bench is on its
course again afterwards, or the source has run dry. -/
namespace IdentifyBench.Bench

variable {σ : Type}

def remarks (d : Bench σ) : List Event :=
  (d.commit.respond d.moved).2 ++ (d.reacted.commit.rest d.rounds d.watched).events

theorem concluded_now (d : Bench σ) : d.concluded.now = d.now := by
  by_cases fetches : d.Fetches
  · obtain ⟨b, before, after⟩ := concluded_of_fetches fetches
    exact after.now.trans before.now
  · exact (concluded_of_still fetches).now

theorem concluded_stopped (d : Bench σ) : d.concluded.stopped = d.stopped := by
  by_cases fetches : d.Fetches
  · obtain ⟨b, before, after⟩ := concluded_of_fetches fetches
    exact after.stopped.trans before.stopped
  · exact (concluded_of_still fetches).stopped

theorem filter_observe (b : Bench σ) : b.observe.events.filter Event.isPresented = [] := by
  unfold observe Observer.observe
  cases Observation.ofBus? b.now b.bus with
  | none => rfl
  | some observation => cases b.observer.log <;> rfl

theorem filter_respond (b : Bench σ) (moved : LineSet) :
    (b.respond moved).2.filter Event.isPresented = [] := by
  unfold respond
  split
  · dsimp only
    split <;> rfl
  · rfl

theorem filter_rest (b : Bench σ) (round : Nat) (due : Bool) :
    (b.rest round due).events.filter Event.isPresented = [] := by
  unfold rest
  cases due with
  | false => rfl
  | true => exact filter_observe _

theorem filter_remarks (d : Bench σ) : d.remarks.filter Event.isPresented = [] := by
  rw [remarks, List.filter_append, filter_respond, filter_rest, List.append_nil]

variable [WordSource σ]

def conclude (b : Bench σ) : Turn (Bench σ) Outcome :=
  (settle b.maxRounds 0 false b).andThen fun b _ =>
    let b := { b with tally.simTime := b.now }
    ⟨b, [], .ok (if b.stopped then .stopped b.now else .advanced b.now)⟩

theorem conclude_of_calm {d : Bench σ} (calm : d.Calm) (enough : 3 ≤ d.maxRounds) :
    d.conclude =
      ⟨d.concluded, d.remarks, .ok (if d.stopped then .stopped d.now else .advanced d.now)⟩ := by
  have settles : settle d.maxRounds 0 false d =
      ⟨(d.reacted.commit.rest d.rounds d.watched).state, d.remarks, .ok ()⟩ := by
    rw [settle_of_calm calm enough, Turn.done_andThen]
    exact congrArg (Turn.mk _ d.remarks) (rest_result d.reacted.commit d.rounds d.watched)
  rw [conclude, settles, ← d.concluded_now, ← d.concluded_stopped,
    Turn.andThen_of_ok (x := ()) rfl]
  dsimp only
  rw [List.append_nil]
  rfl

theorem instant_eq (b : Bench σ) (wakeups : Nat) (first : Wakeup) (rest : Agenda) :
    instant wakeups { b with agenda := rest } first =
      (drain (wakeups + 1) { b with now := first.time, agenda := first :: rest }).andThen
        fun d _ => d.conclude := by
  rw [drain_of_due (b := { b with now := first.time, agenda := first :: rest }) rfl]
  rfl

variable {s : Settings} {source : σ} {since : Nat} {phase : Phase} {n : Nat} {b : Bench σ}

namespace OnCourse

omit [WordSource σ] in
theorem time_of_clock {level : Bool} {c : Nat} (ticks : b.Ticks level c false) {t : Instant} :
    t ∈ b.agenda.times .clock ↔ t = min c Instant.last := by
  rw [ticks.2, List.mem_singleton]

variable (on : OnCourse s source since phase n b)

include on

theorem time_of_stimulus {t : Instant} :
    t ∈ b.agenda.times .stimulus ↔ ∃ u, s.timetable.wake? phase n = some u ∧ t = min u Instant.last := by
  rw [on.due, Timetable.wakes, Option.mem_toList, Option.map_eq_some_iff]
  simp only [eq_comm]

theorem first_time {level : Bool} {c : Nat} (ticks : b.Ticks level c false) {first : Wakeup}
    {rest : Agenda} (agenda : b.agenda = first :: rest) :
    first.time = min ((s.timetable.wake? phase n).elim c (min c)) Instant.last := by
  have clockDue := (time_of_clock ticks).mpr rfl
  have ordered := on.ordered
  rw [agenda] at ordered
  have soonest (p : Process) (t : Instant) (due : t ∈ b.agenda.times p) : first.time ≤ t :=
    Agenda.first_le ordered (agenda ▸ due)
  have inside : first.time ∈ b.agenda.times first.process := by
    rw [agenda, Agenda.times_cons_self]
    exact List.mem_cons_self
  apply Nat.le_antisymm
  · cases wake : s.timetable.wake? phase n with
    | none => exact soonest .clock _ clockDue
    | some u =>
      have clockLater := soonest .clock _ clockDue
      have stimulusLater := soonest .stimulus _ (on.time_of_stimulus.mpr ⟨u, wake, rfl⟩)
      exact Nat.le_min.mpr ⟨Nat.le_min.mpr
        ⟨Nat.le_trans clockLater (Nat.min_le_left _ _), Nat.le_trans stimulusLater (Nat.min_le_left _ _)⟩,
        Nat.le_trans clockLater (Nat.min_le_right _ _)⟩
  · cases process : first.process with
    | clock =>
      rw [process, time_of_clock ticks] at inside
      rw [inside]
      refine Nat.le_min.mpr ⟨Nat.le_trans (Nat.min_le_left _ _) ?_, Nat.min_le_right _ _⟩
      cases s.timetable.wake? phase n with
      | none => exact Nat.le_refl _
      | some u => exact Nat.min_le_left _ _
    | stimulus =>
      rw [process, on.time_of_stimulus] at inside
      obtain ⟨u, wake, same⟩ := inside
      rw [same, wake]
      exact Nat.le_min.mpr
        ⟨Nat.le_trans (Nat.min_le_left _ _) (Nat.min_le_right _ _), Nat.min_le_right _ _⟩

theorem agenda_ne_nil : b.agenda ≠ [] := by
  obtain ⟨level, c, ticks, _⟩ := on.rhythm
  intro empty
  have clockDue := (time_of_clock ticks).mpr rfl
  rw [empty] at clockDue
  cases clockDue

theorem underway {level : Bool} {c : Nat} (ticks : b.Ticks level c false)
    (wave : s.timetable.Wave level since c) (wide : 2 ≤ s.timetable.period) (going : phase ≠ .done)
    {t : Nat} (next : t = (s.timetable.wake? phase n).elim c (min c)) (early : t < Instant.last) :
    Underway s source since level c false phase n { b with now := t } := by
  have positive : 0 < s.timetable.period := Nat.lt_of_lt_of_le Nat.two_pos wide
  have standing := on.standing
  have bound := wave.since_le
  have sooner : t ≤ c := by
    rw [next]
    cases s.timetable.wake? phase n with
    | none => exact Nat.le_refl _
    | some u => exact Nat.min_le_left _ _
  have recent : since ≤ t + 1 := by
    cases wake : s.timetable.wake? phase n with
    | none =>
      rw [wake] at next
      rw [next]
      exact Nat.le_succ_of_le bound
    | some u =>
      have bound' := on.stands.le_wake_succ wake
      rw [wake] at next
      simp only [Option.elim] at next
      omega
  exact {
    standing := ⟨standing.stimulus, standing.supplied, standing.awaiting, standing.stopped,
      standing.lines, standing.issued⟩
    passes := on.stands.passes positive wave going next
    due := on.due
    ordered := on.ordered
    ticks
    wave
    sooner
    recent
    early
    clock := on.clock
    wide
    idle := on.idle }

theorem atEnd {level : Bool} {c : Nat} (ticks : b.Ticks level c false)
    (late : Instant.last ≤ (s.timetable.wake? phase n).elim c (min c)) :
    AtEnd { b with now := Instant.last } := by
  have clockLate : Instant.last ≤ c := by
    cases wake : s.timetable.wake? phase n with
    | none =>
      rw [wake] at late
      exact late
    | some u =>
      rw [wake] at late
      exact Nat.le_trans late (Nat.min_le_left _ _)
  refine ⟨rfl, ?_, ?_⟩
  · intro w inside
    have due : w.time ∈ b.agenda.times w.process := Agenda.mem_times.mpr inside
    cases process : w.process with
    | clock =>
      rw [process, time_of_clock ticks] at due
      rw [due]
      exact Nat.min_eq_right clockLate
    | stimulus =>
      rw [process, on.time_of_stimulus] at due
      obtain ⟨u, wake, same⟩ := due
      rw [wake] at late
      rw [same]
      exact Nat.min_eq_right (Nat.le_trans late (Nat.min_le_right _ _))
  · refine (time_of_clock ticks).mpr ?_
    exact (Nat.min_eq_right clockLate).symm

theorem step_eq (going : phase ≠ .done) {first : Wakeup} {rest : Agenda}
    (agenda : b.agenda = first :: rest) :
    b.step =
      match b.limit.filter (· < first.time) with
      | some limit => .fail { b with agenda := rest } (.timeLimit limit)
      | none => (drain (maxWakeups + 1) { b with now := first.time }).andThen fun d _ => d.conclude := by
  have running : b.stopped = false := by
    rw [on.standing.stopped]
    exact beq_eq_false_iff_ne.mpr going
  have started : b.start = b := by
    rw [start, if_pos on.built.started]
  have whole : ({ b with now := first.time, agenda := first :: rest } : Bench σ) =
      { b with now := first.time } := by
    rw [← agenda]
  rw [step, stepWithin, if_neg (by simp [running]), started]
  dsimp only
  split
  · rename_i empty
    exact absurd empty on.agenda_ne_nil
  · rename_i soonest others same
    obtain ⟨rfl, rfl⟩ := List.cons.inj (same.symm.trans agenda)
    have simulates := instant_eq b maxWakeups soonest others
    rw [whole] at simulates
    cases b.limit.filter (· < soonest.time) with
    | none => exact simulates
    | some limit => rfl

/-- The next instant lies beyond the limit, or it is the last one of the timeline, at which the bench
never gets on, or it goes on from the time that is due. -/
theorem step_cases (wide : 2 ≤ s.timetable.period) (going : phase ≠ .done) :
    ∃ t level c, s.timetable.Passes since t (Timetable.Rises level c t) phase n ∧
      (t < since → n < s.timetable.cycles ∧ t = s.timetable.word (n + 1)) ∧
      ((∃ limit ∈ b.limit, limit < t ∧ limit < Instant.last ∧
          b.step = .fail { b with agenda := b.agenda.tail } (.timeLimit limit)) ∨
        (Instant.last ≤ t ∧ (∀ limit ∈ b.limit, Instant.last ≤ limit) ∧
          b.step.Ends (fun _ _ _ => False) fun _ _ halt =>
            halt = .endless ∨ ∃ issued expected, halt = .failure (.exhausted issued expected)) ∨
        (t < Instant.last ∧ (∀ limit ∈ b.limit, t ≤ limit) ∧
          Underway s source since level c false phase n { b with now := t } ∧
          b.step = (drain (maxWakeups + 1) { b with now := t }).andThen fun d _ => d.conclude)) := by
  have positive : 0 < s.timetable.period := Nat.lt_of_lt_of_le Nat.two_pos wide
  obtain ⟨level, c, ticks, wave⟩ := on.rhythm
  obtain ⟨first, rest, agenda⟩ := List.exists_cons_of_ne_nil on.agenda_ne_nil
  obtain ⟨t, next⟩ : ∃ t, t = (s.timetable.wake? phase n).elim c (min c) := ⟨_, rfl⟩
  have time := on.first_time ticks agenda
  have step := on.step_eq going agenda
  rw [← next] at time
  refine ⟨t, level, c, on.stands.passes positive wave going next, on.stands.overdue wave next, ?_⟩
  cases limited : b.limit.filter (· < first.time) with
  | some limit =>
    rw [limited] at step
    obtain ⟨given, beyond⟩ := Option.filter_eq_some_iff.mp limited
    have beyond : limit < first.time := of_decide_eq_true beyond
    rw [time] at beyond
    refine .inl ⟨limit, given, Nat.lt_of_lt_of_le beyond (Nat.min_le_left _ _),
      Nat.lt_of_lt_of_le beyond (Nat.min_le_right _ _), ?_⟩
    rw [step, agenda]
    rfl
  | none =>
    rw [limited] at step
    have within : ∀ limit ∈ b.limit, first.time ≤ limit := by
      intro limit given
      have below := Option.filter_eq_none_iff.mp limited limit given
      exact Nat.le_of_not_lt fun beyond => below (decide_eq_true beyond)
    rcases Nat.lt_or_ge t Instant.last with early | late
    · have now : first.time = t := time.trans (Nat.min_eq_left (Nat.le_of_lt early))
      rw [now] at step within
      exact .inr (.inr ⟨early, within, on.underway ticks wave wide going next early, step⟩)
    · have now : first.time = Instant.last := time.trans (Nat.min_eq_right late)
      rw [now] at step within
      refine .inr (.inl ⟨late, within, ?_⟩)
      rw [step, Turn.andThen_ends]
      refine ((on.atEnd ticks (next ▸ late)).drain _).mono ?_ ?_
      · intro d events _ impossible
        exact impossible.elim
      · exact fun _ _ _ halts => halts

end OnCourse

structure Advances (s : Settings) (source : σ) (since : Nat) (phase : Phase) (n : Nat)
    (phase' : Phase) (n' : Nat) (e : Bench σ) (events : List Event) (outcome : Outcome) : Prop where
  on : OnCourse s source (e.now + 1) phase' n' e
  passes : ∃ rises, s.timetable.Passes since e.now rises phase n
  recent : since ≤ e.now + 1
  early : e.now < Instant.last
  grows : since + n < e.now + 1 + n'
  told : s.presentations source n ++ events.filter Event.isPresented = s.presentations source n'
  outcome : outcome = if phase' = .done then .stopped e.now else .advanced e.now
  simTime : e.tally.simTime = e.now

theorem Advances.now_of_done {n' : Nat} {e : Bench σ} {events : List Event} {outcome : Outcome}
    (advances : Advances s source since phase n .done n' e events outcome)
    (positive : 0 < s.timetable.period) (going : phase ≠ .done) : e.now = s.timetable.stop := by
  obtain ⟨rises, passes⟩ := advances.passes
  obtain ⟨all, presented⟩ := advances.on.stands
  have late := passes.le_word positive going
  have last := Timetable.word_mono positive (Nat.min_le_left s.timetable.cycles (n + 1))
  rw [all] at presented
  exact Nat.le_antisymm (Nat.le_trans late last) (Nat.le_of_lt_succ presented)

/-- Why a step of a bench on its course halts: the next instant lies beyond the limit, the source has
run dry, or the last instant of the timeline has come. -/
inductive Halted (s : Settings) (source : σ) (since : Nat) (phase : Phase) (n : Nat)
    (b e : Bench σ) (events : List Event) (halt : Halt) : Prop
  | limited {limit : Instant} {t : Nat} {rises : Prop} (given : limit ∈ b.limit)
      (passes : s.timetable.Passes since t rises phase n) (beyond : limit < t)
      (early : limit < Instant.last) (halts : halt = .failure (.timeLimit limit))
      (now : e.now = b.now) (issued : e.tally.wordsIssued = n) (silent : events = [])
  | dry (ran : RanDry s source n e events halt) (within : ∀ limit ∈ b.limit, e.now ≤ limit)
      (early : e.now < Instant.last)
  | endless {t : Nat} {rises : Prop} (passes : s.timetable.Passes since t rises phase n)
      (late : Instant.last ≤ t) (within : ∀ limit ∈ b.limit, Instant.last ≤ limit)
      (halts : halt = .endless ∨ ∃ issued expected, halt = .failure (.exhausted issued expected))

theorem length_presentations (s : Settings) (source : σ) (n : Nat) :
    (s.presentations source n).length = n := by
  simp [Settings.presentations]

theorem count_le_of_told {n' : Nat} {more : List Event}
    (told : s.presentations source n ++ more = s.presentations source n') : n ≤ n' := by
  have length := congrArg List.length told
  rw [List.length_append, length_presentations, length_presentations] at length
  omega

theorem Underway.instant_ends {level : Bool} {c : Nat}
    (under : Underway s source since level c false phase n b) (built : b.Built s)
    (enough : 3 ≤ s.general.maxDeltaRounds.toNat) :
    ((drain (maxWakeups + 1) b).andThen fun d _ => d.conclude).Ends
      (fun e events outcome => ∃ d told, b.Frame d ∧ Drained s source since level c n d told ∧
        e = d.concluded ∧ events = told ++ d.remarks ∧
        outcome = if d.stopped then .stopped d.now else .advanced d.now)
      fun e events halt => b.Frame e ∧ RanDry s source n e events halt := by
  have rank : phase.rank + (!false).toNat ≤ maxWakeups + 1 := by
    cases phase <;> decide
  rw [Turn.andThen_ends]
  refine ((under.drains rank).and_state (frame_drain _ b)).mono ?_ ?_
  · rintro d told _ ⟨drained, frame⟩
    obtain ⟨toggled, phase', n', under', _⟩ := id drained
    have rounds : 3 ≤ d.maxRounds := by
      rw [frame.maxRounds, built.rounds]
      exact enough
    rw [conclude_of_calm under'.standing.calm rounds]
    exact ⟨d, told, frame, drained, rfl, rfl, rfl⟩
  · rintro d events halt ⟨dry, frame⟩
    exact ⟨frame, dry⟩

theorem Drained.advances {level : Bool} {c t : Nat} {d : Bench σ} {told : List Event}
    (drained : Drained s source since level c n d told) (answered : d.Answered) (built : d.Built s)
    (passes : s.timetable.Passes since t (Timetable.Rises level c t) phase n) (now : d.now = t)
    (overdue : t < since → n < s.timetable.cycles ∧ t = s.timetable.word (n + 1)) :
    ∃ phase' n', Advances s source since phase n phase' n' d.concluded (told ++ d.remarks)
      (if d.stopped then .stopped d.now else .advanced d.now) := by
  obtain ⟨toggled, phase', n', under, clockOver, stimulusOver, told⟩ := drained
  obtain ⟨phase'', on, same⟩ := under.concludes clockOver stimulusOver answered built
  have stopped : d.stopped = true ↔ phase'' = .done := by
    rw [under.standing.stopped, same, beq_iff_eq]
  have kept := count_le_of_told told
  refine ⟨phase'', n', ?_⟩
  exact {
    on := by
      rw [concluded_now]
      exact on
    passes := by
      rw [concluded_now, now]
      exact ⟨_, passes⟩
    recent := by
      rw [concluded_now]
      exact under.recent
    early := by
      rw [concluded_now]
      exact under.early
    grows := by
      have recent := under.recent
      rw [concluded_now]
      rcases Nat.lt_or_ge t since with again | later
      · -- The instant is gone through a second time, for the sake of a word.
        obtain ⟨more, due⟩ := overdue again
        have changed : n' ≠ n := by
          rintro rfl
          rw [now] at stimulusOver
          have passes' := under.passes
          rw [now] at passes'
          exact passes'.ne_word_succ under.wave again stimulusOver more due
        exact Nat.add_lt_add_of_le_of_lt recent (Nat.lt_of_le_of_ne kept changed.symm)
      · rw [← now] at later
        exact Nat.add_lt_add_of_lt_of_le (Nat.lt_succ_of_le later) kept
    told := by
      rw [List.filter_append, filter_remarks, List.append_nil]
      exact told
    outcome := by
      rw [concluded_now]
      exact if_congr stopped rfl rfl
    simTime := rfl }

theorem OnCourse.step_ends (on : OnCourse s source since phase n b) (wide : 2 ≤ s.timetable.period)
    (enough : 3 ≤ s.general.maxDeltaRounds.toNat) (going : phase ≠ .done) :
    b.step.Ends
      (fun e events outcome => ∃ phase' n', Advances s source since phase n phase' n' e events outcome)
      (Halted s source since phase n b) := by
  obtain ⟨t, level, c, passes, overdue, cases⟩ := on.step_cases wide going
  rcases cases with ⟨limit, given, beyond, early, step⟩ | ⟨late, within, step⟩ |
    ⟨early, within, under, step⟩
  · rw [step, Turn.ends_fail]
    exact .limited given passes beyond early rfl rfl on.standing.issued rfl
  · refine step.mono ?_ ?_
    · exact fun _ _ _ impossible => impossible.elim
    · exact fun _ _ _ halts => .endless passes late within halts
  · have built := on.built.arrive within
    have answered := on.settled.answered.arrive t
    rw [step]
    refine (under.instant_ends built enough).mono ?_ ?_
    · rintro e events outcome ⟨d, told, frame, drained, rfl, rfl, rfl⟩
      exact drained.advances (frame.answered answered) (built.frame frame) passes frame.now overdue
    · rintro e events halt ⟨frame, dry⟩
      refine .dry dry ?_ ?_
      · rw [frame.now]
        exact within
      · rw [frame.now]
        exact early

end IdentifyBench.Bench

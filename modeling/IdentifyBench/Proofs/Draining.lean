import IdentifyBench.Proofs.Standing

/-! The wake-ups of an instant. While they go on, the stimulus is in its place, and the clock is
either due as before or has been toggled. Each wake-up keeps this, whichever process comes first, and
an instant before the last one has four of them at most. -/
namespace IdentifyBench

theorem Instant.eq_of_min_last {t u : Nat} (before : t < last) (same : min u last = t) : u = t := by
  omega

theorem Clock.toggle_fst (c : Clock) (level : Bool) : (c.toggle level).1 = !level := by
  cases level <;> rfl

theorem Clock.toggle_pos {period : Nat} (wide : 2 ≤ period) (level : Bool) :
    0 < ((ofPeriod period).toggle level).2 := by
  cases level <;> simp [toggle, ofPeriod] <;> omega

theorem Phase.rank_pos {p : Timetable} {phase : Phase} {n u : Nat}
    (due : p.wake? phase n = some u) : 0 < phase.rank := by
  cases phase with
  | awaitFetch => cases due
  | done => cases due
  | _ => simp [Phase.rank]

namespace Bench

variable {σ : Type}

/-- The clock is at a level and due at `c`, or it has been toggled at that time. -/
def Ticks (level : Bool) (c : Nat) (b : Bench σ) : Bool → Prop
  | false => b.bus.clock = ⟨level, none⟩ ∧ b.agenda.times .clock = [min c Instant.last]
  | true =>
    c = b.now ∧ b.bus.clock = ⟨level, some !level⟩ ∧
      b.agenda.times .clock = [min (c + (b.clock.toggle level).2) Instant.last]

theorem toggleClock_of_level {b : Bench σ} {level : Bool} (present : b.bus.clock.level = level) :
    b.toggleClock =
      { b with
        bus := b.bus.write .clock (!level)
        agenda := b.agenda.add ⟨b.now.after (b.clock.toggle level).2, .clock⟩ } := by
  unfold toggleClock
  rw [present, ← Clock.toggle_fst b.clock level]
  rfl

variable [WordSource σ]

/-- An instant goes on, before the last one of the timeline. The instants before `since` are over. -/
structure Underway (s : Settings) (source : σ) (since : Nat) (level : Bool) (c : Nat)
    (toggled : Bool) (phase : Phase) (n : Nat) (b : Bench σ) : Prop where
  standing : b.At s source phase n
  passes : s.timetable.Passes since b.now (Timetable.Rises level c b.now) phase n
  due : b.agenda.times .stimulus = s.timetable.wakes phase n
  ordered : b.agenda.Ordered
  ticks : b.Ticks level c toggled
  wave : s.timetable.Wave level since c
  sooner : b.now ≤ c
  recent : since ≤ b.now + 1
  early : b.now < Instant.last
  clock : b.clock = .ofPeriod s.timetable.period
  wide : 2 ≤ s.timetable.period
  idle : phase.enabled = false → b.stage.held = .neutral

/-- The source has no word left, though one is due. -/
structure Dry (s : Settings) (source : σ) (n : Nat) (b : Bench σ) (halt : Halt) : Prop where
  supplied : ∀ k < n, (WordSource.word? source k).isSome = true
  dry : WordSource.word? source n = none
  more : n < s.timetable.cycles
  due : b.now = s.timetable.word (n + 1)
  issued : b.tally.wordsIssued = n
  halts : halt = .failure (.exhausted n s.timetable.cycles)

namespace Underway

variable {s : Settings} {source : σ} {since : Nat} {level : Bool} {c : Nat} {toggled : Bool}
  {phase : Phase} {n : Nat} {b : Bench σ} {rest : Agenda}
  (under : Underway s source since level c toggled phase n b)

include under

theorem wake_of_stimulus (next : b.agenda = ⟨b.now, .stimulus⟩ :: rest) :
    s.timetable.wake? phase n = some b.now ∧ rest.times .stimulus = [] := by
  have due := under.due
  rw [next, Agenda.times_cons_self ⟨b.now, .stimulus⟩, Timetable.wakes] at due
  cases wake : s.timetable.wake? phase n with
  | none =>
    rw [wake] at due
    cases due
  | some u =>
    rw [wake] at due
    obtain ⟨same, past⟩ := List.cons.inj due
    exact ⟨congrArg some (Instant.eq_of_min_last under.early same.symm), past⟩

theorem of_resumed (next : b.agenda = ⟨b.now, .stimulus⟩ :: rest) {d : Bench σ} {events : List Event}
    {phase' : Phase} {n' : Nat}
    (resumed : Resumed s source { b with agenda := rest } n d events phase' n')
    (frame : Frame { b with agenda := rest } d)
    (passes : s.timetable.Passes since b.now (Timetable.Rises level c b.now) phase' n')
    (idle : phase'.enabled = false → phase.enabled = false) :
    Underway s source since level c toggled phase' n' d := by
  have now : d.now = b.now := frame.now
  have clock : d.clock = b.clock := frame.clock
  have clockWire : d.bus.clock = b.bus.clock := resumed.clockWire
  have clockDue : d.agenda.times .clock = b.agenda.times .clock := by
    rw [resumed.clockDue, next, Agenda.times_cons_of_ne (p := .clock) (by simp)]
  exact {
    standing := resumed.standing
    passes := by
      rw [now]
      exact passes
    due := resumed.due
    ordered := resumed.ordered
    ticks := by
      have ticks := under.ticks
      cases toggled with
      | false => exact ⟨clockWire.trans ticks.1, clockDue.trans ticks.2⟩
      | true =>
        refine ⟨ticks.1.trans now.symm, clockWire.trans ticks.2.1, ?_⟩
        rw [clockDue, clock]
        exact ticks.2.2
    wave := under.wave
    sooner := Nat.le_trans (Nat.le_of_eq now) under.sooner
    recent := by
      rw [now]
      exact under.recent
    early := Nat.lt_of_le_of_lt (Nat.le_of_eq now) under.early
    clock := clock.trans under.clock
    wide := under.wide
    idle := fun disabled => by
      rw [frame.stage]
      exact under.idle (idle disabled) }

theorem wakes_of_resumed (next : b.agenda = ⟨b.now, .stimulus⟩ :: rest) {phase' : Phase} {n' : Nat}
    (resumed : Turn.Ends (resumeStimulus { b with agenda := rest })
      (fun d events _ => Resumed s source { b with agenda := rest } n d events phase' n')
      fun _ _ _ => False)
    (passes : s.timetable.Passes since b.now (Timetable.Rises level c b.now) phase' n')
    (lower : phase'.rank < phase.rank) (idle : phase'.enabled = false → phase.enabled = false) :
    (wake { b with agenda := rest } .stimulus).Ends
      (fun d events _ => ∃ phase' n', Underway s source since level c toggled phase' n' d ∧
        phase'.rank < phase.rank ∧
        s.presentations source n ++ events.filter Event.isPresented = s.presentations source n')
      fun d events halt => events = [] ∧ Dry s source n d halt := by
  refine (resumed.and_state (frame_resumeStimulus _)).mono ?_ ?_
  · rintro d events _ ⟨resumed, frame⟩
    exact ⟨phase', n', under.of_resumed next resumed frame passes idle, lower, resumed.told⟩
  · rintro d events halt ⟨impossible, _⟩
    exact impossible.elim

theorem wake_stimulus (next : b.agenda = ⟨b.now, .stimulus⟩ :: rest) :
    (wake { b with agenda := rest } .stimulus).Ends
      (fun d events _ => ∃ phase' n', Underway s source since level c toggled phase' n' d ∧
        phase'.rank < phase.rank ∧
        s.presentations source n ++ events.filter Event.isPresented = s.presentations source n')
      fun d events halt => events = [] ∧ Dry s source n d halt := by
  obtain ⟨wake, absent⟩ := under.wake_of_stimulus next
  have standing := under.standing.reschedule rest
  have passes := under.passes
  have wave := under.wave
  have sooner := under.sooner
  have positive : 0 < s.timetable.period := Nat.lt_of_lt_of_le Nat.two_pos under.wide
  have ordered : rest.Ordered := by
    have whole := under.ordered
    rw [next] at whole
    exact (List.pairwise_cons.mp whole).2
  cases phase with
  | reset =>
    obtain ⟨rfl, _, start⟩ := id passes
    exact under.wakes_of_resumed next (resumed_reset ordered absent standing start) passes.released
      (by decide) fun disabled => disabled
  | release =>
    obtain ⟨rfl, _, _⟩ := id passes
    have due : b.now = s.timetable.reset := (Option.some.inj wake).symm
    exact under.wakes_of_resumed next (resumed_release ordered absent standing due)
      (passes.settling due) (by decide) fun disabled => disabled
  | enable =>
    obtain ⟨rfl, _, _, _⟩ := id passes
    have due : b.now = s.timetable.enable := (Option.some.inj wake).symm
    rcases Nat.eq_zero_or_pos s.timetable.cycles with all | more
    · exact under.wakes_of_resumed next (resumed_enable_of_all ordered absent standing all)
        ⟨all.symm, Nat.le_of_eq due.symm⟩ (by decide) nofun
    · exact under.wakes_of_resumed next (resumed_enable_of_more ordered absent standing more)
        (passes.enabled positive wave sooner due more) (by decide) nofun
  | awaitFetch => cases wake
  | present =>
    have due : b.now = s.timetable.word (n + 1) := (Option.some.inj wake).symm
    have more : n < s.timetable.cycles := passes.1
    cases supplied : WordSource.word? source n with
    | none =>
      refine ((exhausted_of_present standing supplied).and_state (frame_resumeStimulus _)).mono ?_ ?_
      · rintro d events _ ⟨impossible, _⟩
        exact impossible.elim
      · rintro d events halt ⟨⟨silent, tally, halts⟩, frame⟩
        refine ⟨silent, standing.supplied, supplied, more, frame.now.trans due, ?_, halts⟩
        rw [tally]
        exact standing.issued
    | some word =>
      rcases Nat.lt_or_ge (n + 1) s.timetable.cycles with another | all
      · exact under.wakes_of_resumed next
          (resumed_present_of_more ordered absent standing supplied due another)
          (passes.presented positive wave sooner due another) (by decide) nofun
      · exact under.wakes_of_resumed next
          (resumed_present_of_all ordered absent standing supplied due all)
          ⟨Nat.le_antisymm more all, Nat.le_of_eq due.symm⟩ (by decide) nofun
  | done => cases wake

theorem wake_clock (next : b.agenda = ⟨b.now, .clock⟩ :: rest) :
    toggled = false ∧
      Underway s source since level c true phase n (toggleClock { b with agenda := rest }) := by
  have ticks := under.ticks
  have early := under.early
  have wide := under.wide
  cases toggled with
  | true =>
    -- The toggle that follows lies ahead.
    obtain ⟨due, _, later⟩ := ticks
    rw [next, Agenda.times_cons_self ⟨b.now, .clock⟩] at later
    have same := Instant.eq_of_min_last early (List.cons.inj later).1.symm
    have delayed : 0 < (b.clock.toggle level).2 := by
      rw [under.clock]
      exact Clock.toggle_pos wide level
    exact absurd (same.trans due.symm) (Nat.ne_of_gt (Nat.lt_add_of_pos_right delayed))
  | false =>
    obtain ⟨wire, due⟩ := ticks
    rw [next, Agenda.times_cons_self ⟨b.now, .clock⟩] at due
    obtain ⟨soonest, absent⟩ := List.cons.inj due
    have now : c = b.now := Instant.eq_of_min_last early soonest.symm
    have toggles := toggleClock_of_level (b := { b with agenda := rest }) (congrArg Wire.level wire)
    have standing := under.standing
    have ordered := under.ordered
    have others := under.due
    rw [next] at ordered
    rw [next, Agenda.times_cons_of_ne (p := .stimulus) (by simp)] at others
    refine ⟨rfl, ?_⟩
    rw [toggles]
    exact {
      standing := ⟨standing.stimulus, standing.supplied, standing.awaiting, standing.stopped,
        standing.lines, standing.issued⟩
      passes := under.passes
      due := (Agenda.times_add_of_ne (by simp) _).trans others
      ordered := Agenda.ordered_add (List.pairwise_cons.mp ordered).2 _
      ticks := by
        refine ⟨now, ?_, ?_⟩
        · exact (Bus.get_write_self b.bus .clock _).trans (congrArg (Wire.write · _) wire)
        · rw [now]
          exact Agenda.times_add_of_nil absent
      wave := under.wave
      sooner := under.sooner
      recent := under.recent
      early
      clock := under.clock
      wide
      idle := under.idle }

theorem now_le {w : Wakeup} (inside : w ∈ b.agenda) : b.now ≤ w.time := by
  have early := Nat.le_of_lt under.early
  obtain ⟨time, process⟩ := w
  have due := Agenda.mem_times.mpr inside
  cases process with
  | clock =>
    have ticks := under.ticks
    cases toggled with
    | false =>
      rw [ticks.2, List.mem_singleton] at due
      rw [due]
      exact Nat.le_min.mpr ⟨under.sooner, early⟩
    | true =>
      rw [ticks.2.2, List.mem_singleton] at due
      rw [due]
      exact Nat.le_min.mpr ⟨Nat.le_trans under.sooner (Nat.le_add_right _ _), early⟩
  | stimulus =>
    rw [under.due, Timetable.wakes] at due
    cases wake : s.timetable.wake? phase n with
    | none =>
      rw [wake] at due
      cases due
    | some u =>
      rw [wake] at due
      rw [List.mem_singleton.mp due]
      exact Nat.le_min.mpr ⟨under.passes.le_wake wake, early⟩

/-- Once all that is left on the agenda lies ahead, the clock has been toggled if it was due, and the
stimulus waits for a later time, or for none. -/
theorem ended (ahead : ∀ w ∈ b.agenda, b.now < w.time) :
    (c = b.now → toggled = true) ∧ ∀ u ∈ s.timetable.wake? phase n, b.now < u := by
  constructor
  · intro due
    have ticks := under.ticks
    cases toggled with
    | true => rfl
    | false =>
      have inside : Instant.last.min c ∈ b.agenda.times .clock := by
        rw [ticks.2, Nat.min_comm]
        exact List.mem_singleton.mpr rfl
      have later := Nat.lt_of_lt_of_le (ahead _ (Agenda.mem_times.mp inside)) (Nat.min_le_right _ _)
      exact absurd due (Nat.ne_of_gt later)
  · intro u wake
    have inside : min u Instant.last ∈ b.agenda.times .stimulus := by
      rw [under.due, Timetable.wakes, wake]
      exact List.mem_singleton.mpr rfl
    exact Nat.lt_of_lt_of_le (ahead _ (Agenda.mem_times.mp inside)) (Nat.min_le_left _ _)

theorem ahead_or_due :
    (∀ w ∈ b.agenda, b.now < w.time) ∨ ∃ process rest, b.agenda = ⟨b.now, process⟩ :: rest := by
  cases agenda : b.agenda with
  | nil => exact .inl nofun
  | cons first rest =>
    have bound : b.now ≤ first.time := under.now_le (by simp [agenda])
    rcases Nat.eq_or_lt_of_le bound with due | ahead
    · refine .inr ⟨first.process, rest, ?_⟩
      rw [due]
    · refine .inl fun w inside => ?_
      have ordered := under.ordered
      rw [agenda] at ordered
      rcases List.mem_cons.mp inside with rfl | later
      · exact ahead
      · exact Nat.lt_of_lt_of_le ahead ((List.pairwise_cons.mp ordered).1 w later)

end Underway

theorem drain_of_ahead {b : Bench σ} (ahead : ∀ w ∈ b.agenda, b.now < w.time) (left : Nat) :
    drain left b = .done b [] := by
  unfold drain
  split
  · rfl
  · rename_i first rest agenda
    have later : b.now < first.time := ahead first (by simp [agenda])
    rw [if_neg (Nat.ne_of_gt later)]

theorem drain_of_spent {b : Bench σ} {process : Process} {rest : Agenda}
    (next : b.agenda = ⟨b.now, process⟩ :: rest) : drain 0 b = ⟨b, [], .error .endless⟩ := by
  unfold drain
  rw [next]
  exact if_pos rfl

theorem drain_of_due {b : Bench σ} {process : Process} {rest : Agenda}
    (next : b.agenda = ⟨b.now, process⟩ :: rest) (left : Nat) :
    drain (left + 1) b = (wake { b with agenda := rest } process).andThen fun d _ => drain left d := by
  conv => lhs; unfold drain
  rw [next]
  exact if_pos rfl

def Drained (s : Settings) (source : σ) (since : Nat) (level : Bool) (c n : Nat) (d : Bench σ)
    (events : List Event) : Prop :=
  ∃ toggled phase n', Underway s source since level c toggled phase n' d ∧
    (c = d.now → toggled = true) ∧ (∀ u ∈ s.timetable.wake? phase n', d.now < u) ∧
    s.presentations source n ++ events.filter Event.isPresented = s.presentations source n'

def RanDry (s : Settings) (source : σ) (n : Nat) (d : Bench σ) (events : List Event)
    (halt : Halt) : Prop :=
  ∃ n', Dry s source n' d halt ∧
    s.presentations source n ++ events.filter Event.isPresented = s.presentations source n'

theorem Underway.drained {s : Settings} {source : σ} {since : Nat} {level : Bool} {c : Nat}
    {toggled : Bool} {phase : Phase} {n : Nat} {b : Bench σ}
    (under : Underway s source since level c toggled phase n b)
    (ahead : ∀ w ∈ b.agenda, b.now < w.time) : Drained s source since level c n b [] :=
  ⟨toggled, phase, n, under, (under.ended ahead).1, (under.ended ahead).2, List.append_nil _⟩

/-- The wake-ups of an instant end, since each of them lowers what is left: the rank of the
stimulus and the toggle of the clock. -/
theorem Underway.drains {s : Settings} {source : σ} {since : Nat} {level : Bool} {c : Nat} {toggled : Bool}
    {phase : Phase} {n : Nat} {b : Bench σ} (under : Underway s source since level c toggled phase n b)
    {left : Nat} (enough : phase.rank + (!toggled).toNat ≤ left) :
    (drain left b).Ends (fun d events _ => Drained s source since level c n d events)
      (RanDry s source n) := by
  induction left generalizing b toggled phase n with
  | zero =>
    rcases under.ahead_or_due with ahead | ⟨process, rest, next⟩
    · rw [drain_of_ahead ahead]
      exact under.drained ahead
    · -- A wake-up that is due would have something left to lower.
      cases process with
      | clock =>
        obtain ⟨rfl, _⟩ := under.wake_clock next
        simp at enough
      | stimulus =>
        have positive := Phase.rank_pos (under.wake_of_stimulus next).1
        omega
  | succ left ih =>
    rcases under.ahead_or_due with ahead | ⟨process, rest, next⟩
    · rw [drain_of_ahead ahead]
      exact under.drained ahead
    · rw [drain_of_due next, Turn.andThen_ends]
      cases process with
      | clock =>
        obtain ⟨rfl, toggled⟩ := under.wake_clock next
        exact ih toggled (Nat.le_of_succ_le_succ enough)
      | stimulus =>
        refine (under.wake_stimulus next).mono ?_ ?_
        · rintro d events _ ⟨phase', n', resumed, lower, told⟩
          refine (ih resumed (by omega)).mono ?_ ?_
          · rintro e more _ ⟨toggled', phase'', n'', under', clockOver, stimulusOver, told'⟩
            refine ⟨toggled', phase'', n'', under', clockOver, stimulusOver, ?_⟩
            rw [List.filter_append, ← List.append_assoc, told, told']
          · rintro e more halt ⟨n'', dry, told'⟩
            refine ⟨n'', dry, ?_⟩
            rw [List.filter_append, ← List.append_assoc, told, told']
        · rintro d events halt ⟨rfl, dry⟩
          exact ⟨n, dry, List.append_nil _⟩

/-- At the last instant of the timeline every wake-up is due at once, and the clock always is. -/
structure AtEnd (b : Bench σ) : Prop where
  now : b.now = Instant.last
  times : ∀ w ∈ b.agenda, w.time = Instant.last
  clock : Instant.last ∈ b.agenda.times .clock

omit [WordSource σ] in
theorem after_of_last {b : Bench σ} (now : b.now = Instant.last) (delay : Nat) :
    b.now.after delay = Instant.last := by
  rw [now]
  exact Nat.min_eq_right (Nat.le_add_right _ _)

theorem agenda_resumeStimulus (b : Bench σ) :
    b.resumeStimulus.state.agenda = b.agenda ∨
      ∃ delay, b.resumeStimulus.state.agenda = b.agenda.add ⟨b.now.after delay, .stimulus⟩ := by
  unfold resumeStimulus
  dsimp only
  split
  · exact .inl rfl
  · rename_i wait _
    cases wait with
    | delay time => exact .inr ⟨time, rfl⟩
    | risingEdge => exact .inl rfl
    | stop => exact .inl rfl

theorem AtEnd.wake {b : Bench σ} (atEnd : b.AtEnd) {process : Process} {rest : Agenda}
    (next : b.agenda = ⟨b.now, process⟩ :: rest) :
    (Bench.wake { b with agenda := rest } process).state.AtEnd := by
  obtain ⟨now, times, clock⟩ := atEnd
  rw [next] at times clock
  have frame := frame_wake { b with agenda := rest } process
  have others : ∀ w ∈ rest, w.time = Instant.last := fun w inside =>
    times w (List.mem_cons_of_mem _ inside)
  have added (w : Wakeup) (last : w.time = Instant.last) :
      ∀ v ∈ rest.add w, v.time = Instant.last := by
    intro v inside
    rcases Agenda.mem_add.mp inside with rfl | old
    · exact last
    · exact others v old
  cases process with
  | clock =>
    refine ⟨frame.now.trans now, added _ (after_of_last now _), ?_⟩
    rw [Agenda.mem_times]
    exact Agenda.mem_add.mpr (.inl (by rw [after_of_last now]))
  | stimulus =>
    rw [Agenda.times_cons_of_ne (p := .clock) (by simp)] at clock
    rcases agenda_resumeStimulus { b with agenda := rest } with same | ⟨delay, later⟩
    · exact ⟨frame.now.trans now, by rw [Bench.wake, same]; exact others,
        by rw [Bench.wake, same]; exact clock⟩
    · refine ⟨frame.now.trans now, ?_, ?_⟩
      · rw [Bench.wake, later]
        exact added _ (after_of_last now delay)
      · rw [Bench.wake, later, Agenda.times_add_of_ne (p := .clock) (by simp)]
        exact clock

omit [WordSource σ] in
theorem AtEnd.next {b : Bench σ} (atEnd : b.AtEnd) :
    ∃ process rest, b.agenda = ⟨b.now, process⟩ :: rest := by
  obtain ⟨now, times, clock⟩ := atEnd
  cases agenda : b.agenda with
  | nil =>
    rw [agenda] at clock
    cases clock
  | cons first rest =>
    refine ⟨first.process, rest, ?_⟩
    rw [now, ← times first (by simp [agenda])]

theorem halts_resumeStimulus (b : Bench σ) :
    b.resumeStimulus.Ends (fun _ _ _ => True)
      fun _ _ halt => ∃ issued expected, halt = .failure (.exhausted issued expected) := by
  unfold resumeStimulus Stimulus.resume
  cases b.stimulus.phase with
  | present =>
    dsimp only
    rcases WordSource.next b.stimulus.source with ⟨_ | word, source⟩
    · exact ⟨_, _, rfl⟩
    · trivial
  | _ => trivial

theorem halts_wake (b : Bench σ) (process : Process) :
    (Bench.wake b process).Ends (fun _ _ _ => True)
      fun _ _ halt => ∃ issued expected, halt = .failure (.exhausted issued expected) := by
  cases process with
  | clock => trivial
  | stimulus => exact halts_resumeStimulus b

theorem AtEnd.drain {b : Bench σ} (atEnd : b.AtEnd) (left : Nat) :
    (Bench.drain left b).Ends (fun _ _ _ => False) fun _ _ halt =>
      halt = .endless ∨ ∃ issued expected, halt = .failure (.exhausted issued expected) := by
  induction left generalizing b with
  | zero =>
    obtain ⟨process, rest, next⟩ := atEnd.next
    rw [drain_of_spent next]
    exact .inl rfl
  | succ left ih =>
    obtain ⟨process, rest, next⟩ := atEnd.next
    rw [drain_of_due next, Turn.andThen_ends]
    refine ((halts_wake _ process).and_state (atEnd.wake next)).mono ?_ ?_
    · rintro d events _ ⟨_, atEnd'⟩
      exact ih atEnd'
    · rintro d events halt ⟨dry, _⟩
      exact .inr dry

end Bench

end IdentifyBench

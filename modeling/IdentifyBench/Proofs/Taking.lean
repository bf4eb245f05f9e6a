import IdentifyBench.Proofs.Keeping

/-! The wake-ups of an instant, taken one by one in an order that is free. Each of them lowers what the
instant has left: the rank of the stimulus, or the toggle of the clock, which is due again only later.
The last instant of the timeline has nothing later, so that a clock due there is due without end.
The bench's own order is the one in which the wake-ups were scheduled. -/
namespace IdentifyBench

theorem Phase.rank_le (phase : Phase) : phase.rank ≤ 3 := by
  cases phase <;> decide

namespace Stimulus

variable {σ : Type}

theorem rank_nextCycle (s : Stimulus σ) : s.nextCycle.1.phase.rank = 0 := by
  unfold nextCycle
  split <;> rfl

variable [WordSource σ]

theorem rank_resume {s : Stimulus σ} {now : Instant} {b : Bus} {wait : Wait}
    (going : 0 < s.phase.rank) (waits : (s.resume now b).wait = .ok wait) :
    (s.resume now b).stimulus.phase.rank < s.phase.rank := by
  unfold resume at waits ⊢
  cases phase : s.phase with
  | reset => exact Nat.lt_succ_self 2
  | release => exact Nat.lt_succ_self 1
  | enable =>
    dsimp only
    rw [rank_nextCycle]
    exact Nat.one_pos
  | present =>
    rw [phase] at waits
    dsimp only at waits ⊢
    rcases next : WordSource.next s.source with ⟨_ | word, source⟩
    · rw [next] at waits
      cases waits
    · dsimp only
      rw [rank_nextCycle]
      exact Nat.one_pos
  | awaitFetch =>
    rw [phase] at going
    cases going
  | done =>
    rw [phase] at going
    cases going

end Stimulus

namespace Bench

variable {σ : Type}

def ticks (b : Bench σ) : Nat := (b.agenda.times .clock).count b.now

/-- How many more wake-ups the instant may bring. -/
def load (b : Bench σ) : Nat := b.stimulus.phase.rank + b.ticks

/-- Time does not stand still for the clock: the timeline goes on, or the clock is not due any more. -/
def Passing (b : Bench σ) : Prop := b.now < Instant.last ∨ b.agenda.times .clock = []

theorem Housed.ticks_le {s : Settings} {tick : Option Instant} {place : Whereabouts} {b : Bench σ}
    (housed : b.Housed s tick place) : b.ticks ≤ 1 := by
  rw [ticks, housed.clockDue]
  cases tick with
  | none => exact Nat.zero_le _
  | some c => exact List.count_le_length

theorem Housed.load_le {s : Settings} {tick : Option Instant} {place : Whereabouts} {b : Bench σ}
    (housed : b.Housed s tick place) : b.load ≤ 4 :=
  Nat.add_le_add b.stimulus.phase.rank_le housed.ticks_le

def Spent (b : Bench σ) : Prop := ∀ w ∈ b.agenda, w.time ≠ b.now

variable [WordSource σ]

def wakeAll : List Wakeup → Bench σ → Turn (Bench σ) Unit
  | [], b => .done b []
  | w :: rest, b => ((b.without w).wake w.process).andThen fun d _ => wakeAll rest d

/-- Each of these wake-ups is due when its turn comes, and none follows one that fails. -/
def Admits (b : Bench σ) : List Wakeup → Prop
  | [] => True
  | w :: rest =>
    w ∈ b.agenda ∧ w.time = b.now ∧
      ((b.without w).wake w.process).Ends (fun d _ _ => Admits d rest) fun _ _ _ => rest = []

/-- The wake-ups of the instant in one of their orders, until nothing is due or one of them fails. -/
structure Drains (b : Bench σ) (order : List Wakeup) : Prop where
  admits : b.Admits order
  spent : (wakeAll order b).result = .ok () → (wakeAll order b).state.Spent

namespace Housed

variable {s : Settings} {tick : Option Instant} {place : Whereabouts} {b : Bench σ}

/-- Each wake-up that returns lowers what the instant has left. -/
theorem wake_lowers (housed : b.Housed s tick place) (wide : 2 ≤ s.timetable.period)
    (passing : b.Passing) {w : Wakeup} (inside : w ∈ b.agenda) (due : w.time = b.now) :
    ((b.without w).wake w.process).Ends
      (fun d _ _ => (∃ tick' place', d.Housed s tick' place') ∧ d.Passing ∧ d.load < b.load ∧
        b.ticks = d.ticks + [w.process].count .clock)
      fun _ _ _ => 0 < b.load ∧ w.process = .stimulus := by
  obtain ⟨t, p⟩ := w
  obtain rfl : t = b.now := due
  cases p with
  | clock =>
    obtain ⟨rfl, taken⟩ := housed.taken_clock inside
    have early : b.now < Instant.last := by
      rcases passing with early | absent
      · exact early
      · rw [housed.clockDue] at absent
        cases absent
    have toggled := taken.toggled
    -- The next toggle is a later one, so that the clock is not due any more at this instant.
    have later : b.now < b.now.after ((b.without ⟨b.now, .clock⟩).clock.toggle b.bus.clock.level).2 := by
      refine Instant.lt_after early ?_
      rw [taken.clock]
      exact Clock.toggle_pos wide _
    have spent : (b.without ⟨b.now, .clock⟩).toggleClock.ticks = 0 := by
      rw [ticks, toggled.clockDue]
      exact List.count_eq_zero.mpr fun same => Nat.ne_of_lt later (List.mem_singleton.mp same)
    have one : b.ticks = 1 := by
      rw [ticks, housed.clockDue]
      exact List.count_singleton_self
    refine (Turn.ends_done _ [] _ _).mpr ⟨⟨_, _, toggled⟩, .inl early, ?_, ?_⟩
    · rw [load, load, spent, one]
      exact Nat.lt_succ_self _
    · rw [spent, one]
      rfl
  | stimulus =>
    obtain ⟨rfl, taken⟩ := housed.taken_stimulus inside
    have rank : 0 < b.stimulus.phase.rank := housed.suits
    -- The clock stays as it is, and the stimulus goes on to a phase nearer to its wait for an edge.
    refine (taken.resumed.and_state (frame_resumeStimulus _)).mono ?_ ?_
    · rintro d _ _ ⟨⟨wait, waits, stimulus, resumed⟩, frame⟩
      have now : d.now = b.now := frame.now
      have same : d.agenda.times .clock = b.agenda.times .clock :=
        resumed.clockDue.trans housed.clockDue.symm
      have ticks : d.ticks = b.ticks := by
        rw [Bench.ticks, same, now, Bench.ticks]
      refine ⟨⟨_, _, resumed⟩, ?_, ?_, ?_⟩
      · rw [Passing, same, now]
        exact passing
      · rw [load, load, ticks, stimulus]
        exact Nat.add_lt_add_right (Stimulus.rank_resume rank waits) _
      · rw [ticks]
        rfl
    · exact fun _ _ _ _ => ⟨Nat.add_pos_left rank _, rfl⟩

/-- However its wake-ups are ordered, an instant has no more of them than its load, and the clock is
woken once at most. -/
theorem admits_le (housed : b.Housed s tick place) (wide : 2 ≤ s.timetable.period)
    (passing : b.Passing) {order : List Wakeup} (admits : b.Admits order) :
    order.length ≤ b.load ∧ (order.map (·.process)).count .clock ≤ b.ticks := by
  induction order generalizing tick place b with
  | nil => exact ⟨Nat.zero_le _, Nat.zero_le _⟩
  | cons w rest ih =>
    obtain ⟨inside, due, ends⟩ := admits
    have lowers := ends.and (housed.wake_lowers wide passing inside due)
    rw [List.length_cons, List.map_cons, List.count_cons]
    unfold Turn.Ends at lowers
    split at lowers
    · obtain ⟨admits, ⟨tick', place', woken⟩, passing', lower, ticks⟩ := lowers
      obtain ⟨length, count⟩ := ih woken passing' admits
      refine ⟨Nat.succ_le_of_lt (Nat.lt_of_le_of_lt length lower), ?_⟩
      rw [ticks, List.count_singleton]
      exact Nat.add_le_add_right count _
    · obtain ⟨last, later, stimulus⟩ := lowers
      rw [last, stimulus]
      exact ⟨later, Nat.zero_le _⟩

theorem drain_order (housed : b.Housed s tick place) {left : Nat}
    (ends : (Bench.drain left b).result ≠ .error .endless) :
    ∃ order, b.Drains order ∧ Bench.drain left b = wakeAll order b := by
  induction left generalizing tick place b with
  | zero =>
    rcases housed.ahead_or_due with ahead | ⟨p, rest, next⟩
    · rw [drain_of_ahead ahead]
      exact ⟨[], ⟨trivial, fun _ w inside => Nat.ne_of_gt (ahead w inside)⟩, rfl⟩
    · unfold Bench.drain at ends
      rw [next] at ends
      exact absurd (by simp) ends
  | succ left ih =>
    rcases housed.ahead_or_due with ahead | ⟨p, rest, next⟩
    · rw [drain_of_ahead ahead]
      exact ⟨[], ⟨trivial, fun _ w inside => Nat.ne_of_gt (ahead w inside)⟩, rfl⟩
    · have inside : (⟨b.now, p⟩ : Wakeup) ∈ b.agenda := by simp [next]
      rw [drain_of_due next, ← without_first next] at ends ⊢
      have woken := housed.wake inside
      cases returned : (Bench.wake (b.without ⟨b.now, p⟩) p).result with
      | error halt =>
        refine ⟨[⟨b.now, p⟩], ⟨⟨inside, rfl, ?_⟩, ?_⟩, ?_⟩
        · unfold Turn.Ends
          rw [returned]
        · intro returns
          rw [wakeAll, Turn.andThen_of_error returned] at returns
          cases returns
        · rw [wakeAll, Turn.andThen_of_error returned, Turn.andThen_of_error returned]
      | ok x =>
        rw [Turn.ends_iff_of_ok returned] at woken
        obtain ⟨tick', place', woken, _⟩ := woken
        rw [Turn.andThen_of_ok returned] at ends ⊢
        obtain ⟨order, ⟨admits, spent⟩, same⟩ := ih woken ends
        have whole : wakeAll (⟨b.now, p⟩ :: order) b = _ := Turn.andThen_of_ok returned _
        refine ⟨⟨b.now, p⟩ :: order, ⟨⟨inside, rfl, ?_⟩, ?_⟩, ?_⟩
        · rw [Turn.ends_iff_of_ok returned]
          exact admits
        · rw [whole]
          exact spent
        · rw [whole, same]

/-- What is allowed for is enough, unless time stands still for the clock. -/
theorem drain_ends (housed : b.Housed s tick place) (wide : 2 ≤ s.timetable.period)
    (passing : b.Passing) {left : Nat} (enough : b.load ≤ left) :
    (Bench.drain left b).result ≠ .error .endless := by
  induction left generalizing tick place b with
  | zero =>
    rcases housed.ahead_or_due with ahead | ⟨p, rest, next⟩
    · rw [drain_of_ahead ahead]
      exact nofun
    · have admits : b.Admits [⟨b.now, p⟩] := by
        refine ⟨by simp [next], rfl, ?_⟩
        unfold Turn.Ends
        split <;> trivial
      exact absurd (housed.admits_le wide passing admits).1 (by simpa using enough)
  | succ left ih =>
    rcases housed.ahead_or_due with ahead | ⟨p, rest, next⟩
    · rw [drain_of_ahead ahead]
      exact nofun
    · have inside : (⟨b.now, p⟩ : Wakeup) ∈ b.agenda := by simp [next]
      rw [drain_of_due next, ← without_first next]
      have lowers := (housed.wake inside).and (housed.wake_lowers wide passing inside rfl)
      cases returned : (Bench.wake (b.without ⟨b.now, p⟩) p).result with
      | error halt =>
        rw [Turn.andThen_of_error returned]
        rw [Turn.ends_iff_of_error returned] at lowers
        obtain ⟨⟨_, _, _, _, _, _, rfl⟩, _⟩ := lowers
        simp
      | ok x =>
        rw [Turn.andThen_of_ok returned]
        rw [Turn.ends_iff_of_ok returned] at lowers
        obtain ⟨_, ⟨tick', place', woken⟩, passing', lower, _⟩ := lowers
        exact ih woken passing' (Nat.le_of_lt_succ (Nat.lt_of_lt_of_le lower enough))

end Housed

theorem drain_mono {b : Bench σ} {left left' : Nat}
    (ends : (drain left b).result ≠ .error .endless) (more : left ≤ left') :
    drain left' b = drain left b := by
  induction left generalizing left' b with
  | zero =>
    unfold drain at ends ⊢
    cases agenda : b.agenda with
    | nil => rfl
    | cons first rest =>
      rw [agenda] at ends
      dsimp only at ends ⊢
      split at ends
      · exact absurd rfl ends
      · rename_i later
        rw [if_neg later, if_neg later]
  | succ left ih =>
    obtain ⟨left', rfl⟩ : ∃ k, left' = k + 1 := Nat.exists_eq_succ_of_ne_zero (by omega)
    unfold drain at ends ⊢
    cases agenda : b.agenda with
    | nil => rfl
    | cons first rest =>
      rw [agenda] at ends
      dsimp only at ends ⊢
      split at ends
      · rename_i due
        rw [if_pos due, if_pos due]
        cases returned : (wake { b with agenda := rest } first.process).result with
        | error halt => rw [Turn.andThen_of_error returned, Turn.andThen_of_error returned]
        | ok x =>
          rw [Turn.andThen_of_ok returned] at ends ⊢
          rw [Turn.andThen_of_ok returned, ih ends (Nat.le_of_succ_le_succ more)]
      · rename_i later
        rw [if_neg later, if_neg later]

theorem drain_of_clock {b : Bench σ} (late : b.now = Instant.last)
    (alone : b.agenda = [⟨Instant.last, .clock⟩]) (left : Nat) :
    (drain left b).result = .error .endless := by
  rw [← late] at alone
  induction left generalizing b with
  | zero =>
    unfold drain
    simp [alone]
  | succ left ih =>
    rw [drain_of_due alone]
    have again : (toggleClock { b with agenda := [] }).agenda = [⟨b.now, .clock⟩] :=
      congrArg (fun t => [(⟨t, .clock⟩ : Wakeup)]) ((after_of_last late _).trans late.symm)
    exact ih late again

end Bench

end IdentifyBench

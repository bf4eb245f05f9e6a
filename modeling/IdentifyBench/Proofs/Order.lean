import IdentifyBench.Proofs.Likeness
import IdentifyBench.Proofs.Taking

/-! Simultaneous wake-ups commute. Clock and stimulus write to different lines, neither looks at what
the other has written, and what they schedule makes the same agenda up to its order. So an instant
leads to the same end in every order of its wake-ups, and with it a whole run. -/
namespace IdentifyBench

namespace Agenda

theorem perm_add (a : Agenda) (w : Wakeup) : (a.add w).Perm (w :: a) := by
  induction a with
  | nil => exact .refl _
  | cons u rest ih =>
    unfold add
    split
    · exact (ih.cons u).trans (.swap w u rest)
    · exact .refl _

theorem perm_add_add (a : Agenda) (v w : Wakeup) : ((a.add v).add w).Perm ((a.add w).add v) := by
  have both (v w : Wakeup) : ((a.add v).add w).Perm (w :: v :: a) :=
    (perm_add _ w).trans ((a.perm_add v).cons w)
  exact (both v w).trans ((List.Perm.swap v w a).trans (both w v).symm)

theorem perm_add_erase (a : Agenda) {v w : Wakeup} (other : v ≠ w) :
    ((a.add v).erase w).Perm (Agenda.add (a.erase w) v) := by
  have taken := (a.perm_add v).erase w
  rw [List.erase_cons_tail (by simpa using other)] at taken
  exact taken.trans (perm_add _ v).symm

theorem Soonest.time_eq {a a' : Agenda} (same : a.Perm a') {w w' : Wakeup} (soonest : a.Soonest w)
    (soonest' : a'.Soonest w') : w'.time = w.time :=
  Nat.le_antisymm (soonest'.2 w (same.mem_iff.mp soonest.1)) (soonest.2 w' (same.mem_iff.mpr soonest'.1))

end Agenda

/-- What the stimulus does to its lines does not depend on what is pending on the clock's. -/
theorem Stimulus.resume_write_clock {σ : Type} [WordSource σ] (s : Stimulus σ) (now : Instant)
    (b : Bus) (high : Bool) :
    s.resume now (b.write .clock high) =
      { s.resume now b with bus := (s.resume now b).bus.write .clock high } := by
  unfold resume
  cases s.phase with
  | present =>
    dsimp only
    rcases WordSource.next s.source with ⟨_ | word, source⟩ <;> rfl
  | _ => rfl

namespace Bench

variable {σ : Type} {m : Nat}

theorem lasting_perm : Lasting List.Perm := fun a a' w same =>
  (a.perm_add w).trans ((same.cons w).trans (a'.perm_add w).symm)

namespace Like

variable {b c d : Bench σ}

theorem refl (rounds : b.maxRounds = m) : b.Like List.Perm m b :=
  ⟨Nat.le_of_eq rounds, b.agenda, .refl _, by rw [← rounds]⟩

theorem symm (rounds : b.maxRounds = m) (like : b.Like List.Perm m d) : d.Like List.Perm m b := by
  obtain ⟨_, agenda, same, rfl⟩ := like
  exact ⟨Nat.le_refl _, b.agenda, same.symm, by rw [← rounds]⟩

theorem trans (first : b.Like List.Perm m c) (second : c.Like List.Perm m d) :
    b.Like List.Perm m d := by
  obtain ⟨budget, agenda, same, rfl⟩ := first
  obtain ⟨_, agenda', same', rfl⟩ := second
  exact ⟨budget, agenda', same.trans same', rfl⟩

theorem agree_trans {α : Type} {t u v : Turn (Bench σ) α}
    (first : Turn.Agree (Like List.Perm m) t u) (second : Turn.Agree (Like List.Perm m) u v) :
    Turn.Agree (Like List.Perm m) t v :=
  ⟨first.state.trans second.state, second.events.trans first.events,
    second.result.trans first.result⟩

theorem limit (like : b.Like List.Perm m d) : d.limit = b.limit := by
  obtain ⟨_, _, _, rfl⟩ := like
  rfl

theorem reach (like : b.Like List.Perm m d) (t : Instant) :
    { b with now := t }.Like List.Perm m { d with now := t } := by
  obtain ⟨budget, agenda, same, rfl⟩ := like
  exact ⟨budget, agenda, same, rfl⟩

theorem without (like : b.Like List.Perm m d) (w : Wakeup) :
    (b.without w).Like List.Perm m (d.without w) := by
  obtain ⟨budget, agenda, same, rfl⟩ := like
  exact ⟨budget, _, same.erase w, rfl⟩

theorem agenda (like : b.Like List.Perm m d) : b.agenda.Perm d.agenda := by
  obtain ⟨_, _, same, rfl⟩ := like
  exact same

theorem mem (like : b.Like List.Perm m d) {w : Wakeup} : w ∈ d.agenda ↔ w ∈ b.agenda :=
  like.agenda.symm.mem_iff

end Like

variable [WordSource σ]

theorem mem_wake {b : Bench σ} {v w : Wakeup} (other : v ≠ w) (inside : v ∈ b.agenda) :
    v ∈ ((b.without w).wake w.process).state.agenda := by
  have kept : v ∈ (b.without w).agenda := (List.mem_erase_of_ne other).mpr inside
  obtain ⟨t, p⟩ := w
  cases p with
  | clock => exact Agenda.mem_add.mpr (.inr kept)
  | stimulus =>
    rcases agenda_resumeStimulus (b.without ⟨t, .stimulus⟩) with same | ⟨delay, later⟩
    · rw [wake, same]
      exact kept
    · rw [wake, later]
      exact Agenda.mem_add.mpr (.inr kept)

/-- The clock's toggle may as well follow the stimulus. -/
theorem toggle_resume {b : Bench σ} (rounds : b.maxRounds = m) (t t' : Instant) :
    Turn.Agree (Like List.Perm m)
      ((b.without ⟨t, .clock⟩).toggleClock.without ⟨t', .stimulus⟩).resumeStimulus
      { (b.without ⟨t', .stimulus⟩).resumeStimulus with
        state :=
          ((b.without ⟨t', .stimulus⟩).resumeStimulus.state.without ⟨t, .clock⟩).toggleClock } := by
  obtain ⟨c, clock⟩ : ∃ c : Wakeup, c = ⟨t, .clock⟩ := ⟨_, rfl⟩
  obtain ⟨u, stimulus⟩ : ∃ u : Wakeup, u = ⟨t', .stimulus⟩ := ⟨_, rfl⟩
  obtain ⟨r, resumes⟩ : ∃ r, b.stimulus.resume b.now b.bus = r := ⟨_, rfl⟩
  have level : r.bus.clock.level = b.bus.clock.level := by
    rw [← resumes]
    exact (b.stimulus.resume_frame b.now b.bus).levels .clock
  have taken (delay : Nat) :
      List.Perm ((Agenda.add (b.agenda.erase c) ⟨b.now.after delay, .clock⟩).erase u)
        (Agenda.add ((b.agenda.erase u).erase c) ⟨b.now.after delay, .clock⟩) := by
    have other : (⟨b.now.after delay, .clock⟩ : Wakeup) ≠ u := by simp [stimulus]
    rw [List.erase_comm u c]
    exact Agenda.perm_add_erase _ other
  -- The lines are settled here for every wait at once: all that is left of a case is the agenda.
  rw [← clock, ← stimulus]
  unfold resumeStimulus toggleClock
  dsimp only [without, schedule]
  rw [Stimulus.resume_write_clock, resumes]
  cases r.wait with
  | error f =>
    dsimp only
    rw [level]
    exact ⟨⟨Nat.le_of_eq rounds, _, taken _, by rw [rounds]⟩, rfl, rfl⟩
  | ok wait =>
    cases wait with
    | delay time =>
      have other : (⟨b.now.after time, .stimulus⟩ : Wakeup) ≠ c := by simp [clock]
      dsimp only [await, schedule, Turn.done]
      rw [level]
      -- Two wake-ups are scheduled, and each time the other process has still to be taken out.
      refine ⟨⟨Nat.le_of_eq rounds, _, ?_, by rw [rounds]⟩, rfl, rfl⟩
      refine (lasting_perm _ _ ⟨b.now.after time, .stimulus⟩ (taken _)).trans ?_
      refine (Agenda.perm_add_add _ _ _).trans (lasting_perm _ _ _ ?_)
      exact (Agenda.perm_add_erase _ other).symm
    | risingEdge =>
      dsimp only [await, Turn.done]
      rw [level]
      exact ⟨⟨Nat.le_of_eq rounds, _, taken _, by rw [rounds]⟩, rfl, rfl⟩
    | stop =>
      dsimp only [await, Turn.done]
      rw [level]
      exact ⟨⟨Nat.le_of_eq rounds, _, taken _, by rw [rounds]⟩, rfl, rfl⟩

theorem wakeAll_append (b : Bench σ) (order more : List Wakeup) :
    wakeAll (order ++ more) b = (wakeAll order b).andThen fun d _ => wakeAll more d := by
  induction order generalizing b with
  | nil => exact (Turn.done_andThen b [] fun d _ => wakeAll more d).symm
  | cons w rest ih =>
    rw [List.cons_append, wakeAll, wakeAll, Turn.andThen_assoc]
    simp only [ih]

theorem Like.wakeAll {b d : Bench σ} (like : b.Like List.Perm m d) (order : List Wakeup) :
    Turn.Agree (Like List.Perm m) (Bench.wakeAll order b) (Bench.wakeAll order d) := by
  induction order generalizing b d with
  | nil => exact .done like []
  | cons w rest ih =>
    exact ((like.without w).wake lasting_perm w.process).andThen fun _ _ _ like => ih like

/-- These wake-ups are due one after the other, and none of them fails. -/
structure Takes (b : Bench σ) (order : List Wakeup) : Prop where
  admits : b.Admits order
  returns : (wakeAll order b).result = .ok ()

theorem takes_nil (b : Bench σ) : b.Takes [] := ⟨trivial, rfl⟩

theorem takes_cons {b : Bench σ} {w : Wakeup} {rest : List Wakeup} :
    b.Takes (w :: rest) ↔
      w ∈ b.agenda ∧ w.time = b.now ∧ ((b.without w).wake w.process).result = .ok () ∧
        Takes ((b.without w).wake w.process).state rest := by
  constructor
  · rintro ⟨⟨inside, due, admits⟩, returns⟩
    cases returned : ((b.without w).wake w.process).result with
    | error halt =>
      rw [wakeAll, Turn.andThen_of_error returned] at returns
      cases returns
    | ok x =>
      rw [Turn.ends_iff_of_ok returned] at admits
      rw [wakeAll, Turn.andThen_of_ok returned] at returns
      exact ⟨inside, due, rfl, admits, returns⟩
  · rintro ⟨inside, due, returned, admits, returns⟩
    refine ⟨⟨inside, due, (Turn.ends_iff_of_ok returned).mpr admits⟩, ?_⟩
    rw [wakeAll, Turn.andThen_of_ok returned]
    exact returns

theorem takes_append {b : Bench σ} {order more : List Wakeup} :
    b.Takes (order ++ more) ↔ b.Takes order ∧ (wakeAll order b).state.Takes more := by
  induction order generalizing b with
  | nil => exact ⟨fun takes => ⟨takes_nil b, takes⟩, fun both => both.2⟩
  | cons w rest ih =>
    rw [List.cons_append, takes_cons, takes_cons, wakeAll]
    constructor
    · rintro ⟨inside, due, returned, later⟩
      rw [Turn.andThen_of_ok returned]
      exact ⟨⟨inside, due, returned, (ih.mp later).1⟩, (ih.mp later).2⟩
    · rintro ⟨⟨inside, due, returned, first⟩, second⟩
      rw [Turn.andThen_of_ok returned] at second
      exact ⟨inside, due, returned, ih.mpr ⟨first, second⟩⟩

theorem Like.takes {b d : Bench σ} (like : b.Like List.Perm m d) {order : List Wakeup}
    (takes : b.Takes order) : d.Takes order := by
  induction order generalizing b d with
  | nil => exact takes_nil d
  | cons w rest ih =>
    obtain ⟨inside, due, returned, later⟩ := takes_cons.mp takes
    have woken := (like.without w).wake lasting_perm w.process
    exact takes_cons.mpr ⟨like.mem.mpr inside, due.trans like.now.symm,
      woken.result.trans returned, ih woken.state later⟩

theorem wakeAll_singleton (b : Bench σ) (w : Wakeup) :
    wakeAll [w] b = (b.without w).wake w.process := Turn.andThen_done _

theorem wakeAll_clock_first (b : Bench σ) (t : Instant) (w : Wakeup) :
    wakeAll [⟨t, .clock⟩, w] b =
      ((b.without ⟨t, .clock⟩).toggleClock.without w).wake w.process := by
  rw [wakeAll]
  simp only [wakeAll_singleton]
  rfl

theorem wakeAll_clock_last {b : Bench σ} {w : Wakeup}
    (returns : ((b.without w).wake w.process).result = .ok ()) (t : Instant) :
    wakeAll [w, ⟨t, .clock⟩] b =
      { (b.without w).wake w.process with
        state := (((b.without w).wake w.process).state.without ⟨t, .clock⟩).toggleClock } := by
  rw [wakeAll, Turn.andThen_of_ok returns, wakeAll_singleton]
  generalize (b.without w).wake w.process = turn at returns ⊢
  obtain ⟨state, events, result⟩ := turn
  cases returns
  simp [wake, Turn.done]

theorem swap_pair {b : Bench σ} (rounds : b.maxRounds = m) {v w : Wakeup}
    (differ : v.process ≠ w.process) (takes : b.Takes [v, w]) :
    Turn.Agree (Like List.Perm m) (wakeAll [v, w] b) (wakeAll [w, v] b) := by
  obtain ⟨_, _, first, others⟩ := takes_cons.mp takes
  obtain ⟨_, _, second, _⟩ := takes_cons.mp others
  obtain ⟨t, p⟩ := v
  obtain ⟨t', p'⟩ := w
  cases p with
  | clock =>
    cases p' with
    | clock => exact absurd rfl differ
    | stimulus =>
      have same := toggle_resume rounds t t'
      rw [wakeAll_clock_first, wakeAll_clock_last (w := ⟨t', .stimulus⟩) (same.result.trans second)]
      exact same
  | stimulus =>
    cases p' with
    | clock =>
      have same := toggle_resume rounds t' t
      have kept := (frame_resumeStimulus
        ((b.without ⟨t', .clock⟩).toggleClock.without ⟨t, .stimulus⟩)).maxRounds.trans rounds
      rw [wakeAll_clock_first, wakeAll_clock_last (w := ⟨t, .stimulus⟩) first]
      exact ⟨same.state.symm kept, same.events.symm, same.result.symm⟩
    | stimulus => exact absurd rfl differ

theorem takes_swapped {b : Bench σ} (rounds : b.maxRounds = m) {v w : Wakeup}
    (differ : v.process ≠ w.process) (inside : w ∈ b.agenda) (takes : b.Takes [v, w]) :
    b.Takes [w, v] := by
  have returns := (swap_pair rounds differ takes).result.trans takes.returns
  obtain ⟨inside', due', _, others⟩ := takes_cons.mp takes
  obtain ⟨_, due, _, _⟩ := takes_cons.mp others
  have other : v ≠ w := fun same => differ (congrArg Wakeup.process same)
  cases returned : ((b.without w).wake w.process).result with
  | error halt =>
    rw [wakeAll, Turn.andThen_of_error returned] at returns
    cases returns
  | ok x =>
    rw [wakeAll, Turn.andThen_of_ok returned, wakeAll_singleton] at returns
    have now : ((b.without w).wake w.process).state.now = b.now := (frame_wake _ _).now
    refine takes_cons.mpr ⟨inside, due.trans (frame_wake _ _).now, returned, ?_⟩
    exact takes_cons.mpr ⟨mem_wake other inside', due'.trans now.symm, returns, takes_nil _⟩

theorem swap {b : Bench σ} (rounds : b.maxRounds = m) {v w : Wakeup} {rest : List Wakeup}
    (differ : v.process ≠ w.process) (inside : w ∈ b.agenda) (takes : b.Takes (v :: w :: rest)) :
    b.Takes (w :: v :: rest) ∧
      Turn.Agree (Like List.Perm m) (wakeAll (v :: w :: rest) b) (wakeAll (w :: v :: rest) b) := by
  obtain ⟨pair, later⟩ := takes_append.mp (show b.Takes ([v, w] ++ rest) from takes)
  have same := swap_pair rounds differ pair
  refine ⟨takes_append.mpr ⟨takes_swapped rounds differ inside pair, same.state.takes later⟩, ?_⟩
  have front (first second : Wakeup) : wakeAll (first :: second :: rest) b =
      (wakeAll [first, second] b).andThen fun d _ => wakeAll rest d :=
    wakeAll_append b [first, second] rest
  rw [front v w, front w v]
  exact same.andThen fun _ _ _ like => like.wakeAll rest

omit [WordSource σ] in
theorem Like.spent {b d : Bench σ} (like : b.Like List.Perm m d) (spent : b.Spent) : d.Spent := by
  intro w inside
  rw [like.now]
  exact spent w (like.mem.mp inside)

namespace Housed

variable {s : Settings} {tick : Option Instant} {place : Whereabouts} {b d : Bench σ}

omit [WordSource σ] in
theorem eq_of_process (housed : b.Housed s tick place) {v w : Wakeup} (inside : v ∈ b.agenda)
    (inside' : w ∈ b.agenda) (same : v.process = w.process) : v = w := by
  obtain ⟨t, p⟩ := v
  obtain ⟨t', p'⟩ := w
  obtain rfl : p = p' := same
  cases p with
  | clock =>
    rw [Option.some.inj ((housed.taken_clock inside).1.symm.trans (housed.taken_clock inside').1)]
  | stimulus =>
    have times := (housed.taken_stimulus inside).1.symm.trans (housed.taken_stimulus inside').1
    cases times
    rfl

/-- A wake-up that is due before an order begins may as well come first in it. -/
theorem pull_forward (housed : b.Housed s tick place) {order : List Wakeup} (takes : b.Takes order)
    (spent : (wakeAll order b).state.Spent) {w : Wakeup} (inside : w ∈ b.agenda)
    (due : w.time = b.now) :
    ∃ rest, rest.length + 1 = order.length ∧ b.Takes (w :: rest) ∧
      Turn.Agree (Like List.Perm s.general.maxDeltaRounds.toNat) (wakeAll order b)
        (wakeAll (w :: rest) b) := by
  -- Whatever stands before `w` in the order is of the other process, for `w` is still due then.
  induction order generalizing tick place b with
  | nil => exact absurd due (spent w inside)
  | cons v order ih =>
    by_cases same : v = w
    · subst same
      have like := (Like.refl housed.rounds).wakeAll (v :: order)
      exact ⟨order, rfl, takes, like⟩
    · obtain ⟨inside', due', returned, later⟩ := takes_cons.mp takes
      have woken := housed.wake inside'
      rw [Turn.ends_iff_of_ok returned] at woken
      obtain ⟨_, _, woken, _⟩ := woken
      have now : ((b.without v).wake v.process).state.now = b.now := (frame_wake _ _).now
      have apply (more : List Wakeup) : wakeAll (v :: more) b = _ := Turn.andThen_of_ok returned _
      rw [apply order] at spent ⊢
      obtain ⟨rest, length, takes', agree⟩ := ih woken later spent
        (mem_wake (Ne.symm same) inside) (due.trans now.symm)
      have differ : v.process ≠ w.process := fun alike =>
        same (housed.eq_of_process inside' inside alike)
      obtain ⟨swapped, agree'⟩ := swap housed.rounds differ inside
        (takes_cons.mpr ⟨inside', due', returned, takes'⟩)
      refine ⟨v :: rest, congrArg (· + 1) length, swapped, ?_⟩
      rw [apply (w :: rest)] at agree'
      exact Like.agree_trans (agree.prepend _) agree'

/-- If one order of an instant succeeds, all of them do, with the same end. -/
theorem confluent (housed : b.Housed s tick place) {order : List Wakeup} (takes : b.Takes order)
    (spent : (wakeAll order b).state.Spent) (like : b.Like List.Perm s.general.maxDeltaRounds.toNat d)
    {other : List Wakeup} (admits : d.Admits other) :
    other.length ≤ order.length ∧ d.Takes other ∧ ((wakeAll other d).state.Spent →
      Turn.Agree (Like List.Perm s.general.maxDeltaRounds.toNat) (wakeAll order b)
        (wakeAll other d)) := by
  -- Each wake-up of the other order is pulled to the front of the given one, which gets shorter.
  induction other generalizing tick place b d order with
  | nil =>
    refine ⟨Nat.zero_le _, takes_nil d, fun ended => ?_⟩
    cases order with
    | nil => exact .done like []
    | cons v order =>
      obtain ⟨inside, due, _, _⟩ := takes_cons.mp takes
      exact absurd (due.trans like.now.symm) (ended v (like.mem.mpr inside))
  | cons w other ih =>
    obtain ⟨inside, due, ends⟩ := admits
    obtain ⟨rest, length, takes', agree⟩ := housed.pull_forward takes spent (like.mem.mp inside)
      (due.trans like.now)
    obtain ⟨inside', _, returned, later⟩ := takes_cons.mp takes'
    have woken := housed.wake inside'
    rw [Turn.ends_iff_of_ok returned] at woken
    obtain ⟨_, _, woken, _⟩ := woken
    have alike := (like.without w).wake lasting_perm w.process
    rw [Turn.ends_iff_of_ok (alike.result.trans returned)] at ends
    have spent' := agree.state.spent spent
    rw [wakeAll, Turn.andThen_of_ok returned] at spent'
    obtain ⟨shorter, succeeds, confluent⟩ := ih woken later spent' alike.state ends
    refine ⟨by rw [← length]; exact Nat.succ_le_succ shorter,
      takes_cons.mpr ⟨inside, due, alike.result.trans returned, succeeds⟩, fun ended => ?_⟩
    rw [wakeAll, Turn.andThen_of_ok (alike.result.trans returned)] at ended ⊢
    rw [wakeAll, Turn.andThen_of_ok returned] at agree
    rw [alike.events]
    exact Like.agree_trans agree ((confluent ended).prepend _)

theorem woken (housed : b.Housed s tick place) {order : List Wakeup} (takes : b.Takes order) :
    ∃ tick' place', (wakeAll order b).state.Housed s tick' place' := by
  induction order generalizing tick place b with
  | nil => exact ⟨tick, place, housed⟩
  | cons w rest ih =>
    obtain ⟨inside, _, returned, later⟩ := takes_cons.mp takes
    have woken := housed.wake inside
    rw [Turn.ends_iff_of_ok returned] at woken
    obtain ⟨_, _, woken, _⟩ := woken
    rw [wakeAll, Turn.andThen_of_ok returned]
    exact ih woken later

end Housed

/-- What a step may come to if the wake-ups of an instant are taken in an order that is free. -/
inductive Steps (b : Bench σ) : Turn (Bench σ) Outcome → Prop
  | stopped (ended : b.stopped = true) : Steps b ⟨b, [], .ok (.stopped b.now)⟩
  | starved (going : b.stopped = false) (empty : b.start.agenda = []) :
    Steps b (.fail b.start (.starved b.now))
  | refused (going : b.stopped = false) {w : Wakeup} (soonest : b.start.agenda.Soonest w)
    {limit : Instant} (limited : limit ∈ b.limit) (beyond : limit < w.time) :
    Steps b (.fail (b.start.without w) (.timeLimit limit))
  | simulated (going : b.stopped = false) {w : Wakeup} (soonest : b.start.agenda.Soonest w)
    (within : ∀ limit ∈ b.limit, w.time ≤ limit) {order : List Wakeup}
    (drains : { b.start with now := w.time }.Drains order) :
    Steps b ((wakeAll order { b.start with now := w.time }).andThen fun d _ => d.conclude)

omit [WordSource σ] in
theorem Like.start {b d : Bench σ} (like : b.Like List.Perm m d) :
    b.start.Like List.Perm m d.start := by
  obtain ⟨budget, agenda, same, rfl⟩ := like
  unfold Bench.start
  dsimp only
  split
  · exact ⟨budget, agenda, same, rfl⟩
  · exact ⟨budget, _, lasting_perm _ _ _ (lasting_perm _ _ _ same), rfl⟩

theorem steps_step {s : Settings} {tick : Option Instant} {place : Whereabouts} {b : Bench σ}
    (housed : b.start.Housed s tick place) (ends : b.step.result ≠ .error .endless) :
    b.Steps b.step := by
  have ordered := housed.ordered
  cases going : b.stopped with
  | true =>
    rw [step, stepWithin_of_stopped going]
    exact .stopped going
  | false =>
    rcases stepWithin_cases going with
      ⟨empty, step⟩ | ⟨first, rest, limit, limited, beyond, next, step⟩ | simulates
    · rw [Bench.step, step]
      exact .starved going empty
    · rw [Bench.step, step, ← without_first next]
      rw [next] at ordered
      exact .refused going (next ▸ Agenda.soonest_first ordered) limited beyond
    · rw [step, stepWithin_of_simulates simulates] at ends ⊢
      obtain ⟨_, first, due, within⟩ := simulates
      obtain ⟨rest, next⟩ := List.head?_eq_some_iff.mp due
      rw [next] at ordered
      have soonest : b.start.agenda.Soonest first := next ▸ Agenda.soonest_first ordered
      rw [arrive_of_next next] at ends ⊢
      have drained : (drain (maxWakeups + 1) { b.start with now := first.time }).result ≠
          .error .endless := fun endless => ends (by rw [Turn.andThen_of_error endless])
      obtain ⟨order, drains, same⟩ := (housed.reached soonest).drain_order drained
      rw [same]
      exact .simulated going soonest within drains

namespace Steps

variable {s : Settings} {tick : Option Instant} {place : Whereabouts} {b d : Bench σ}
  {t u : Turn (Bench σ) Outcome} {outcome : Outcome}

theorem taken (steps : b.Steps t) (going : b.stopped = false) (returns : t.result = .ok outcome) :
    ∃ w order, b.start.agenda.Soonest w ∧ (∀ limit ∈ b.limit, w.time ≤ limit) ∧
      { b.start with now := w.time }.Takes order ∧
      (wakeAll order { b.start with now := w.time }).state.Spent ∧
      t = (wakeAll order { b.start with now := w.time }).andThen fun d _ => d.conclude := by
  cases steps with
  | stopped ended => simp_all
  | starved => cases returns
  | refused => cases returns
  | @simulated _ w soonest within order drains =>
    cases returned : (wakeAll order { b.start with now := w.time }).result with
    | error halt =>
      rw [Turn.andThen_of_error returned] at returns
      cases returns
    | ok x => exact ⟨w, order, soonest, within, ⟨drains.admits, returned⟩, drains.spent returned, rfl⟩

theorem housed (steps : b.Steps t) (housed : b.start.Housed s tick place)
    (returns : t.result = .ok outcome) : ∃ tick' place', t.state.start.Housed s tick' place' := by
  cases going : b.stopped with
  | true =>
    cases steps with
    | stopped => exact ⟨tick, place, housed⟩
    | _ => simp_all
  | false =>
    obtain ⟨w, order, soonest, _, takes, _, rfl⟩ := steps.taken going returns
    obtain ⟨tick', place', woken⟩ := (housed.reached soonest).woken takes
    obtain ⟨place'', concluded, _⟩ := woken.conclude
    rw [Turn.andThen_of_ok takes.returns]
    exact ⟨tick', place'', concluded.start_eq.symm ▸ concluded⟩

/-- All orders lead to the same, if one leads to an outcome. -/
theorem agree (steps : b.Steps t) (steps' : d.Steps u) (housed : b.start.Housed s tick place)
    (like : b.Like List.Perm s.general.maxDeltaRounds.toNat d) (returns : t.result = .ok outcome) :
    Turn.Agree (Like List.Perm s.general.maxDeltaRounds.toNat) t u := by
  have stopped := like.stopped
  cases going : b.stopped with
  | true =>
    cases steps with
    | stopped =>
      cases steps' with
      | stopped => exact ⟨like, rfl, by rw [like.now]⟩
      | _ => simp_all
    | _ => simp_all
  | false =>
    obtain ⟨w, order, soonest, within, takes, spent, rfl⟩ := steps.taken going returns
    have agenda := like.start.agenda
    cases steps' with
    | stopped => simp_all
    | starved _ empty =>
      rw [empty] at agenda
      rw [agenda.eq_nil] at soonest
      cases soonest.1
    | @refused _ w' soonest' limit limited beyond =>
      rw [like.limit] at limited
      rw [soonest.time_eq agenda soonest'] at beyond
      exact absurd (within limit limited) (Nat.not_le_of_lt beyond)
    | @simulated _ w' soonest' _ order' drains' =>
      rw [soonest.time_eq agenda soonest'] at drains' ⊢
      obtain ⟨_, takes', confluent⟩ := (housed.reached soonest).confluent takes spent
        (like.start.reach w.time) drains'.admits
      exact (confluent (drains'.spent takes'.returns)).andThen_of_ok returns
        fun _ _ _ like returns => like.conclude lasting_perm returns

theorem bounded (steps : b.Steps t) (housed : b.start.Housed s tick place)
    (like : b.Like List.Perm s.general.maxDeltaRounds.toNat d) (returns : t.result = .ok outcome)
    (going : d.stopped = false) {w : Wakeup} (soonest : d.start.agenda.Soonest w) :
    ∃ most, ∀ order, { d.start with now := w.time }.Admits order → order.length ≤ most := by
  obtain ⟨v, order, first, _, takes, spent, _⟩ := steps.taken (like.stopped.symm.trans going) returns
  rw [first.time_eq like.start.agenda soonest]
  exact ⟨order.length, fun other admits =>
    ((housed.reached first).confluent takes spent (like.start.reach v.time) admits).1⟩

end Steps

end Bench

namespace Recording

variable {σ κ : Type} [WordSource σ] [Sink κ]

def Steps (r : Recording σ κ) (turn : Turn (Recording σ κ) Outcome) : Prop :=
  ∃ t, r.bench.Steps t ∧ turn = r.follow t

theorem Steps.agree {s : Settings} {tick : Option Instant} {place : Whereabouts} {r q : Recording σ κ}
    {t u : Turn (Recording σ κ) Outcome} (steps : r.Steps t) (steps' : q.Steps u)
    (housed : r.bench.start.Housed s tick place)
    (like : r.Like List.Perm s.general.maxDeltaRounds.toNat q) {outcome : Outcome}
    (returns : t.result = .ok outcome) :
    Turn.Agree (Like List.Perm s.general.maxDeltaRounds.toNat) t u := by
  obtain ⟨t, steps, rfl⟩ := steps
  obtain ⟨u, steps', rfl⟩ := steps'
  obtain ⟨d, bench, rfl⟩ := id like
  exact like.follow (steps.agree steps' housed bench (result_of_follow_ok returns))

/-- The first `n` steps of a recording, and the states between them, where each step takes its
wake-ups in an order of its own. -/
structure InSomeOrder (r : Recording σ κ) (n : Nat) (state : Nat → Recording σ κ)
    (turn : Nat → Turn (Recording σ κ) Outcome) : Prop where
  start : state 0 = r
  steps : ∀ k < n, (state k).Steps (turn k)
  next : ∀ k < n, state (k + 1) = (turn k).state

section

variable {s : Settings} {source : σ} {waveform : Option Waveform} {out : κ}
  {n : Nat} {state state' : Nat → Recording σ κ} {turn turn' : Nat → Turn (Recording σ κ) Outcome}

theorem InSomeOrder.housed (ordered : (fresh s source waveform out).InSomeOrder n state turn)
    (returned : ∀ k < n, ∃ outcome, (turn k).result = .ok outcome) {k : Nat} (le : k ≤ n) :
    ∃ tick place, (state k).bench.start.Housed s tick place := by
  induction k with
  | zero =>
    rw [ordered.start]
    exact ⟨_, _, Bench.housed_start s source⟩
  | succ k ih =>
    obtain ⟨tick, place, housed⟩ := ih (Nat.le_of_succ_le le)
    obtain ⟨t, steps, same⟩ := ordered.steps k le
    obtain ⟨outcome, returns⟩ := returned k le
    rw [same] at returns
    rw [ordered.next k le, same, follow_bench]
    exact steps.housed housed (result_of_follow_ok returns)

theorem InSomeOrder.alike (ordered : (fresh s source waveform out).InSomeOrder n state turn)
    (ordered' : (fresh s source waveform out).InSomeOrder n state' turn')
    (returned : ∀ k < n, ∃ outcome, (turn k).result = .ok outcome) {k : Nat} (le : k ≤ n) :
    (state k).Like List.Perm s.general.maxDeltaRounds.toNat (state' k) := by
  induction k with
  | zero =>
    rw [ordered.start, ordered'.start]
    exact ⟨_, Bench.Like.refl rfl, rfl⟩
  | succ k ih =>
    obtain ⟨tick, place, housed⟩ := ordered.housed returned (Nat.le_of_succ_le le)
    obtain ⟨outcome, returns⟩ := returned k le
    rw [ordered.next k le, ordered'.next k le]
    exact ((ordered.steps k le).agree (ordered'.steps k le) housed (ih (Nat.le_of_succ_le le))
      returns).state

end

/-- In whatever order the wake-ups of each instant are taken, the steps of a run come to the same, as
long as one order leads to outcomes: the results are the same, and so is what is told, and all that the
recording and its bench hold is the same but for the order of the agenda. No order of an instant goes
on without end. The bench's own order is one of them. -/
theorem order_irrelevant (s : Settings) (source : σ) (waveform : Option Waveform) (out : κ) :
    let r := fresh s source waveform out
    (∀ n, (∀ k < n, (r.after k).step.result ≠ .error .endless) →
      r.InSomeOrder n r.after fun k => (r.after k).step) ∧
    ∀ n state turn state' turn', r.InSomeOrder n state turn → r.InSomeOrder n state' turn' →
      (∀ k < n, ∃ outcome, (turn k).result = .ok outcome) →
      (∀ k < n, (turn' k).result = (turn k).result ∧ (turn' k).events = (turn k).events) ∧
      (∀ k ≤ n, ∃ agenda, (state k).bench.agenda.Perm agenda ∧
        state' k = { state k with bench := { (state k).bench with agenda } }) ∧
      ∀ k < n, (state' k).bench.stopped = false → ∀ w, (state' k).bench.start.agenda.Soonest w →
        ∃ most, ∀ order, Bench.Admits { (state' k).bench.start with now := w.time } order →
          order.length ≤ most := by
  intro r
  refine ⟨fun n ends => ⟨rfl, fun k below => ?_, fun _ _ => rfl⟩, ?_⟩
  · refine ⟨_, ?_, step_eq_follow _⟩
    have ends : (r.after k).bench.step.result ≠ .error .endless := fun endless =>
      ends k below (step_of_bench_error endless)
    rcases Nat.eq_zero_or_pos k with rfl | positive
    · exact Bench.steps_step (Bench.housed_start s source) ends
    · obtain ⟨tick, place, housed, _⟩ := Bench.housed_after s source k
      rw [← fresh_after_bench s source waveform out positive] at housed
      exact Bench.steps_step (housed.start_eq.symm ▸ housed) ends
  · intro n state turn state' turn' ordered ordered' returned
    refine ⟨fun k below => ?_, fun k le => ?_, fun k below going w soonest => ?_⟩
    · obtain ⟨tick, place, housed⟩ := ordered.housed returned (Nat.le_of_lt below)
      obtain ⟨outcome, returns⟩ := returned k below
      have agree := (ordered.steps k below).agree (ordered'.steps k below) housed
        (ordered.alike ordered' returned (Nat.le_of_lt below)) returns
      exact ⟨agree.result, agree.events⟩
    · obtain ⟨tick, place, housed⟩ := ordered.housed returned le
      obtain ⟨_, ⟨_, agenda, same, rfl⟩, like⟩ := ordered.alike ordered' returned le
      rw [← housed.rounds, Bench.start_maxRounds] at like
      exact ⟨agenda, same, like⟩
    · obtain ⟨tick, place, housed⟩ := ordered.housed returned (Nat.le_of_lt below)
      obtain ⟨t, steps, same⟩ := ordered.steps k below
      obtain ⟨outcome, returns⟩ := returned k below
      rw [same] at returns
      obtain ⟨d, like, alike⟩ := ordered.alike ordered' returned (Nat.le_of_lt below)
      rw [alike] at going soonest ⊢
      exact steps.bounded housed like (result_of_follow_ok returns) going soonest

/-- A first step that wakes the stimulus before the clock leaves the agenda the other way round, and
nothing else. -/
theorem irrelevant_of_stimulus_first :
    ∃ (r : Recording (List Word) Memory) (turn : Turn (Recording (List Word) Memory) Outcome),
      r = fresh { Settings.immediate 1 with stimulus.reset := 1 } [5] none (.empty none) ∧
      r.Steps turn ∧ turn.result = .ok (.advanced 0) ∧ turn.events = r.step.events ∧
      turn.state.bench.agenda = [⟨1, .stimulus⟩, ⟨1, .clock⟩] ∧
      r.step.state.bench.agenda = [⟨1, .clock⟩, ⟨1, .stimulus⟩] ∧
      ∃ agenda, turn.state =
        { r.step.state with bench := { r.step.state.bench with agenda } } := by
  have irrelevant := order_irrelevant { Settings.immediate 1 with stimulus.reset := 1 }
    ([5] : List Word) none (Memory.empty none)
  obtain ⟨r, same⟩ : ∃ r : Recording (List Word) Memory,
      r = fresh { Settings.immediate 1 with stimulus.reset := 1 } [5] none (.empty none) := ⟨_, rfl⟩
  obtain ⟨turn, turned⟩ : ∃ turn, turn = r.follow
      ((Bench.wakeAll [⟨0, .stimulus⟩, ⟨0, .clock⟩] { r.bench.start with now := 0 }).andThen
        fun d _ => d.conclude) := ⟨_, rfl⟩
  dsimp only at irrelevant
  rw [← same] at irrelevant
  have returns : r.step.result = .ok (.advanced 0) := by
    rw [same]
    exact Turn.result_of_toOption (by decide +kernel)
  have takes : Bench.Takes { r.bench.start with now := 0 } [⟨0, .stimulus⟩, ⟨0, .clock⟩] := by
    rw [same]
    refine Bench.takes_cons.mpr ⟨by decide +kernel, rfl, rfl, ?_⟩
    exact Bench.takes_cons.mpr ⟨by decide +kernel, rfl, rfl, Bench.takes_nil _⟩
  have spent : Bench.Spent
      (Bench.wakeAll [⟨0, .stimulus⟩, ⟨0, .clock⟩] { r.bench.start with now := 0 }).state := by
    rw [same]
    show ∀ w ∈ ([⟨1, .stimulus⟩, ⟨1, .clock⟩] : Agenda), w.time ≠ 0
    decide
  have soonest : r.bench.start.agenda.Soonest ⟨0, .clock⟩ := by
    have ordered : Agenda.Ordered [⟨0, .clock⟩, ⟨0, .stimulus⟩] := by simp [Agenda.Ordered]
    rw [same]
    exact Agenda.soonest_first ordered
  have going : r.bench.stopped = false := by
    rw [same]
    rfl
  have within : ∀ limit ∈ r.bench.limit, 0 ≤ limit := fun _ _ => Nat.zero_le _
  have steps : r.Steps turn :=
    ⟨_, .simulated going soonest within ⟨takes.admits, fun _ => spent⟩, turned⟩
  have first : ∀ k < 1, k = 0 := fun k below => Nat.lt_one_iff.mp below
  have own := irrelevant.1 1 fun k below => by
    rw [first k below]
    exact returns ▸ nofun
  have other : r.InSomeOrder 1 (fun k => if k = 0 then r else turn.state) fun _ => turn := by
    refine ⟨rfl, fun k below => ?_, fun _ _ => rfl⟩
    rw [first k below]
    exact steps
  obtain ⟨told, kept, _⟩ := irrelevant.2 1 _ _ _ _ own other fun k below => by
    rw [first k below]
    exact ⟨_, returns⟩
  obtain ⟨result, events⟩ := told 0 Nat.one_pos
  obtain ⟨agenda, _, alike⟩ := kept 1 (Nat.le_refl 1)
  refine ⟨r, turn, same, steps, result.trans returns, events, ?_, ?_, agenda, alike⟩
  · rw [turned, same]
    decide +kernel
  · rw [same]
    decide +kernel

end Recording

end IdentifyBench

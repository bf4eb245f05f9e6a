import IdentifyBench.Proofs.Keeping

/-! Benches that differ in their agendas and in the budget of delta rounds. Nothing but the choice of
what to wake looks at the agenda, and the budget decides only whether an instant is let settle. So such
benches do the same as long as they wake the same, and the one with the larger budget returns whenever
the other one does. -/
namespace IdentifyBench

namespace Bench

variable {σ : Type} {P : Agenda → Agenda → Prop} {m : Nat}

/-- The second bench has a budget of `m` rounds, which is not less than the first one has, and an
agenda that is related to the first one's. All else is the same. -/
def Like (P : Agenda → Agenda → Prop) (m : Nat) (b d : Bench σ) : Prop :=
  b.maxRounds ≤ m ∧ ∃ agenda, P b.agenda agenda ∧ d = { b with agenda, maxRounds := m }

def Lasting (P : Agenda → Agenda → Prop) : Prop := ∀ a a' w, P a a' → P (a.add w) (a'.add w)

theorem lasting_eq : Lasting Eq := fun _ _ _ same => congrArg (Agenda.add · _) same

namespace Like

variable {b d : Bench σ}

theorem now (like : b.Like P m d) : d.now = b.now := by
  obtain ⟨_, _, _, rfl⟩ := like
  rfl

theorem bus (like : b.Like P m d) : d.bus = b.bus := by
  obtain ⟨_, _, _, rfl⟩ := like
  rfl

theorem stopped (like : b.Like P m d) : d.stopped = b.stopped := by
  obtain ⟨_, _, _, rfl⟩ := like
  rfl

theorem tally (like : b.Like P m d) : d.tally = b.tally := by
  obtain ⟨_, _, _, rfl⟩ := like
  rfl

theorem moved (like : b.Like P m d) : d.moved = b.moved := by
  rw [Bench.moved, Bench.moved, like.bus]

theorem commit (like : b.Like P m d) : b.commit.Like P m d.commit := by
  obtain ⟨budget, agenda, related, rfl⟩ := like
  exact ⟨budget, agenda, related, rfl⟩

theorem observe (like : b.Like P m d) : Turn.Agree (Like P m) b.observe d.observe := by
  obtain ⟨budget, agenda, related, rfl⟩ := like
  unfold Bench.observe
  dsimp only
  split <;> exact ⟨⟨budget, agenda, related, rfl⟩, rfl, rfl⟩

theorem rest (like : b.Like P m d) (round : Nat) (due : Bool) :
    Turn.Agree (Like P m) (b.rest round due) (d.rest round due) := by
  obtain ⟨budget, agenda, related, rfl⟩ := like
  unfold Bench.rest
  cases due with
  | false => exact .done ⟨budget, agenda, related, rfl⟩ []
  | true =>
    exact observe (b := { b with tally.deltaRounds := max b.tally.deltaRounds round })
      ⟨budget, agenda, related, rfl⟩

theorem respond (like : b.Like P m d) (moved : LineSet) :
    (b.respond moved).1.Like P m (d.respond moved).1 ∧ (d.respond moved).2 = (b.respond moved).2 := by
  obtain ⟨budget, agenda, related, rfl⟩ := like
  unfold Bench.respond
  dsimp only
  split <;> exact ⟨⟨budget, agenda, related, rfl⟩, rfl⟩

theorem toggleClock (lasting : Lasting P) (like : b.Like P m d) :
    b.toggleClock.Like P m d.toggleClock := by
  obtain ⟨budget, agenda, related, rfl⟩ := like
  exact ⟨budget, _, lasting _ _ _ related, rfl⟩

variable [WordSource σ]

theorem resumeStimulus (lasting : Lasting P) (like : b.Like P m d) :
    Turn.Agree (Like P m) b.resumeStimulus d.resumeStimulus := by
  obtain ⟨budget, agenda, related, rfl⟩ := like
  unfold Bench.resumeStimulus
  dsimp only
  split
  · exact ⟨⟨budget, agenda, related, rfl⟩, rfl, rfl⟩
  · rename_i wait _
    cases wait with
    | delay time => exact .done ⟨budget, _, lasting _ _ _ related, rfl⟩ _
    | risingEdge => exact .done ⟨budget, agenda, related, rfl⟩ _
    | stop => exact .done ⟨budget, agenda, related, rfl⟩ _

theorem wake (lasting : Lasting P) (like : b.Like P m d) (p : Process) :
    Turn.Agree (Like P m) (b.wake p) (d.wake p) := by
  cases p with
  | clock => exact .done (like.toggleClock lasting) []
  | stimulus => exact like.resumeStimulus lasting

theorem passEdge (lasting : Lasting P) (like : b.Like P m d) (moved : LineSet) :
    Turn.Agree (Like P m) (b.passEdge moved) (d.passEdge moved) := by
  obtain ⟨budget, agenda, related, rfl⟩ := like
  unfold Bench.passEdge
  dsimp only
  split
  · split
    · exact resumeStimulus lasting ⟨budget, agenda, related, rfl⟩
    · exact .done ⟨budget, agenda, related, rfl⟩ []
  · exact .done ⟨budget, agenda, related, rfl⟩ []

theorem react (lasting : Lasting P) (like : b.Like P m d) :
    Turn.Agree (Like P m) b.react d.react := by
  obtain ⟨answered, told⟩ := like.commit.respond b.moved
  unfold Bench.react
  rw [like.moved, told]
  exact (Turn.Agree.done answered _).andThen fun _ _ _ like => like.passEdge lasting b.moved

/-- What settles within so many rounds does the same within more of them. -/
theorem settle (lasting : Lasting P) {left left' : Nat} (more : left ≤ left') {round : Nat} {due : Bool}
    (like : b.Like P m d) (returns : (Bench.settle left round due b).result = .ok ()) :
    Turn.Agree (Like P m) (Bench.settle left round due b) (Bench.settle left' round due d) := by
  induction left generalizing left' round due b d with
  | zero => cases returns
  | succ left ih =>
    -- The larger budget has a round left wherever the smaller one has.
    obtain ⟨left', rfl⟩ : ∃ k, left' = k + 1 := Nat.exists_eq_succ_of_ne_zero (by omega)
    rw [settle_succ, settle_succ, like.moved]
    rw [settle_succ] at returns
    split
    · exact like.commit.rest round due
    · rename_i moves
      rw [if_neg moves] at returns
      exact (like.react lasting).andThen_of_ok returns fun _ _ _ like returns =>
        ih (Nat.le_of_succ_le_succ more) like returns

theorem conclude (lasting : Lasting P) (like : b.Like P m d) {outcome : Outcome}
    (returns : b.conclude.result = .ok outcome) :
    Turn.Agree (Like P m) b.conclude d.conclude := by
  have more : b.maxRounds ≤ d.maxRounds := by
    obtain ⟨budget, _, _, rfl⟩ := like
    exact budget
  unfold Bench.conclude at returns ⊢
  cases settles : (Bench.settle b.maxRounds 0 false b).result with
  | error halt =>
    rw [Turn.andThen_of_error settles] at returns
    cases returns
  | ok x =>
    refine (like.settle lasting more settles).andThen ?_
    rintro b d _ ⟨budget, agenda, related, rfl⟩
    exact ⟨⟨budget, agenda, related, rfl⟩, rfl, rfl⟩

theorem drain (like : b.Like Eq m d) (left : Nat) :
    Turn.Agree (Like Eq m) (Bench.drain left b) (Bench.drain left d) := by
  induction left generalizing b d with
  | zero =>
    obtain ⟨budget, _, rfl, rfl⟩ := like
    unfold Bench.drain
    dsimp only
    split
    · exact .done ⟨budget, _, rfl, rfl⟩ []
    · split
      · exact ⟨⟨budget, _, rfl, rfl⟩, rfl, rfl⟩
      · exact .done ⟨budget, _, rfl, rfl⟩ []
  | succ left ih =>
    obtain ⟨budget, _, rfl, rfl⟩ := like
    unfold Bench.drain
    dsimp only
    split
    · exact .done ⟨budget, _, rfl, rfl⟩ []
    · rename_i first rest _
      split
      · have woken : Like Eq m { b with agenda := rest } { b with agenda := rest, maxRounds := m } :=
          ⟨budget, rest, rfl, rfl⟩
        exact (woken.wake lasting_eq first.process).andThen fun _ _ _ like => ih like
      · exact .done ⟨budget, _, rfl, rfl⟩ []

omit [WordSource σ] in
theorem simulates (like : b.Like Eq m d) : d.Simulates ↔ b.Simulates := by
  obtain ⟨_, _, rfl, rfl⟩ := like
  unfold Bench.Simulates next? start
  dsimp only
  split <;> exact Iff.rfl

omit [WordSource σ] in
theorem arrive (like : b.Like Eq m d) : b.arrive.Like Eq m d.arrive := by
  obtain ⟨budget, _, rfl, rfl⟩ := like
  unfold Bench.arrive next? start
  dsimp only
  split <;> exact ⟨budget, _, rfl, rfl⟩

theorem step (like : b.Like Eq m d) {outcome : Outcome} (returns : b.step.result = .ok outcome) :
    Turn.Agree (Like Eq m) b.step d.step := by
  cases going : b.stopped with
  | true =>
    rw [Bench.step, Bench.step, stepWithin_of_stopped going,
      stepWithin_of_stopped (like.stopped.trans going), like.now]
    exact ⟨like, rfl, rfl⟩
  | false =>
    rcases stepWithin_cases going with ⟨_, step⟩ | ⟨_, _, _, _, _, _, step⟩ | simulates
    · rw [Bench.step, step] at returns
      cases returns
    · rw [Bench.step, step] at returns
      cases returns
    · rw [Bench.step, stepWithin_of_simulates simulates] at returns ⊢
      rw [Bench.step, stepWithin_of_simulates (like.simulates.mpr simulates)]
      exact (like.arrive.drain _).andThen_of_ok returns fun _ _ _ like returns =>
        like.conclude lasting_eq returns

end Like

end Bench

namespace Recording

variable {σ κ : Type} [Sink κ] {P : Agenda → Agenda → Prop} {m : Nat}

def Like (P : Agenda → Agenda → Prop) (m : Nat) (r q : Recording σ κ) : Prop :=
  ∃ d, r.bench.Like P m d ∧ q = { r with bench := d }

namespace Like

variable {r q : Recording σ κ}

theorem sample (like : r.Like P m q) :
    r.sample.1.Like P m q.sample.1 ∧ q.sample.2 = r.sample.2 := by
  obtain ⟨b, waveform, out⟩ := r
  obtain ⟨d, like, rfl⟩ := like
  unfold Recording.sample
  cases waveform with
  | none => exact ⟨⟨d, like, rfl⟩, rfl⟩
  | some w =>
    dsimp only
    rw [like.now, like.bus]
    exact ⟨⟨d, like, rfl⟩, rfl⟩

theorem finish (like : r.Like P m q) :
    r.finish.1.Like P m q.finish.1 ∧ q.finish.2 = r.finish.2 := by
  obtain ⟨b, waveform, out⟩ := r
  obtain ⟨d, like, rfl⟩ := like
  unfold Recording.finish
  cases waveform with
  | none => exact ⟨⟨d, like, rfl⟩, rfl⟩
  | some w =>
    dsimp only
    rw [like.stopped]
    split <;> exact ⟨⟨d, like, rfl⟩, rfl⟩

theorem follow (like : r.Like P m q) {t u : Turn (Bench σ) Outcome}
    (agree : Turn.Agree (Bench.Like P m) t u) :
    Turn.Agree (Like P m) (r.follow t) (q.follow u) := by
  obtain ⟨d, bench, rfl⟩ := like
  have simulated : Like P m { r with bench := t.state } { r with bench := u.state } :=
    ⟨u.state, agree.state, rfl⟩
  have sampled := simulated.sample
  unfold Recording.follow
  dsimp only
  rw [bench.stopped, agree.result, agree.events]
  split
  · exact ⟨simulated, rfl, rfl⟩
  · revert sampled
    rcases Recording.sample { r with bench := t.state } with ⟨r', fault⟩
    rcases Recording.sample { r with bench := u.state } with ⟨q', fault'⟩
    rintro ⟨sampled, rfl⟩
    have failed {r q : Recording σ κ} (like : r.Like P m q) (fault : StorageFault) :
        Turn.Agree (Like P m)
          (⟨r, t.events, .error (.failure (.traceWrite r.bench.now fault))⟩ :
            Turn (Recording σ κ) Outcome)
          ⟨q, t.events, .error (.failure (.traceWrite q.bench.now fault))⟩ := by
      obtain ⟨d, bench, rfl⟩ := like
      exact ⟨⟨d, bench, rfl⟩, rfl, by rw [bench.now]⟩
    cases fault' with
    | some fault => exact failed sampled fault
    | none =>
      have finished := sampled.finish
      revert finished
      dsimp only
      rcases r'.finish with ⟨r'', fault⟩
      rcases q'.finish with ⟨q'', fault'⟩
      rintro ⟨finished, rfl⟩
      cases fault' with
      | some fault => exact failed finished fault
      | none => exact ⟨finished, rfl, rfl⟩

variable [WordSource σ]

theorem step (like : r.Like Eq m q) {outcome : Outcome} (returns : r.bench.step.result = .ok outcome) :
    Turn.Agree (Like Eq m) r.step q.step := by
  obtain ⟨d, bench, rfl⟩ := id like
  exact like.follow (bench.step returns)

theorem after (like : r.Like Eq m q) {n : Nat}
    (returned : ∀ i < n, ∃ outcome, (r.after i).step.result = .ok outcome) :
    (r.after n).Like Eq m (q.after n) := by
  induction n with
  | zero => exact like
  | succ n ih =>
    obtain ⟨outcome, returns⟩ := returned n (Nat.lt_succ_self n)
    exact ((ih fun i below => returned i (Nat.lt_succ_of_lt below)).step
      (bench_result_of_step_ok returns)).state

theorem goesOn (like : r.Like Eq m q) {n : Nat} (going : ∀ i ≤ n, r.GoesOn i) : q.GoesOn n := by
  obtain ⟨t, advances⟩ := going n (Nat.le_refl n)
  have same := like.after fun i below => by
    obtain ⟨t, advances⟩ := going i (Nat.le_of_lt below)
    exact ⟨_, advances⟩
  exact ⟨t, (same.step (bench_result_of_step_ok advances)).result.trans advances⟩

/-- A run that settles in its last step too comes to the same with a larger budget. -/
theorem run_result_eq (like : r.Like Eq m q) {k : Nat} (going : ∀ j < k, r.GoesOn j)
    (ended : ¬r.GoesOn k) (below : k < maxSteps) {outcome : Outcome}
    (returns : (r.after k).bench.step.result = .ok outcome) : q.run.result = r.run.result := by
  have same := like.after fun j before => by
    obtain ⟨t, advances⟩ := going j before
    exact ⟨_, advances⟩
  have agree := same.step returns
  have going' : ∀ j < k, q.GoesOn j := fun j before =>
    like.goesOn fun i within => going i (Nat.lt_of_le_of_lt within before)
  have ended' : ¬q.GoesOn k := by
    rintro ⟨t, advances⟩
    exact ended ⟨t, agree.result.symm.trans advances⟩
  obtain ⟨d, bench, next⟩ := agree.state
  rw [run_result going ended below, run_result going' ended' below, Recording.after, Recording.after,
    agree.result, next]
  dsimp only
  rw [bench.tally]

end Like

end Recording

def Settings.allowing (s : Settings) (rounds : UInt64) : Settings :=
  { s with general.maxDeltaRounds := rounds }

namespace Recording

variable {σ κ : Type} [WordSource σ] [Sink κ]

omit [WordSource σ] [Sink κ] in
theorem like_allowing (s : Settings) (source : σ) (waveform : Option Waveform) (out : κ)
    {rounds : UInt64} (more : s.general.maxDeltaRounds ≤ rounds) :
    (fresh s source waveform out).Like Eq rounds.toNat
      (fresh (s.allowing rounds) source waveform out) :=
  ⟨_, ⟨UInt64.le_iff_toNat_le.mp more, [], rfl, rfl⟩, rfl⟩

/-- Some step of a run is the last one, whatever the budget is. -/
theorem exists_last_step (s : Settings) (source : σ) (waveform : Option Waveform) (out : κ)
    (wide : 2 ≤ s.timetable.period) :
    ∃ k < maxSteps, (∀ j < k, (fresh s source waveform out).GoesOn j) ∧
      ¬(fresh s source waveform out).GoesOn k := by
  classical
  have widest : s.general.maxDeltaRounds ≤ 18446744073709551615 :=
    UInt64.le_iff_toNat_le.mpr (Nat.le_of_lt_succ s.general.maxDeltaRounds.toNat_lt)
  have like := like_allowing s source waveform out widest
  obtain ⟨k, below, _, ended⟩ := exists_last (s := s.allowing 18446744073709551615) source wide
    (show 3 ≤ (18446744073709551615 : UInt64).toNat by decide) waveform out
  have ends : ∃ j, ¬(fresh s source waveform out).GoesOn j := by
    by_contra always
    exact ended (like.goesOn fun i _ => Classical.not_not.mp fun stops => always ⟨i, stops⟩)
  have first : Nat.find ends ≤ k := by
    by_contra later
    exact ended (like.goesOn fun i within =>
      Classical.not_not.mp (Nat.find_min ends (Nat.lt_of_le_of_lt within (Nat.lt_of_not_le later))))
  exact ⟨Nat.find ends, Nat.lt_of_le_of_lt first below,
    fun j before => Classical.not_not.mp (Nat.find_min ends before), Nat.find_spec ends⟩

end Recording

end IdentifyBench

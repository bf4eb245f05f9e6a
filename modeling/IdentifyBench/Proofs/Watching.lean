import IdentifyBench.Proofs.Keeping

/-! Benches that differ in what only watches or limits them: the limit, the budget of delta rounds, the
observer, and the words beyond those that are presented. What one of them returns the other returns
too, unless a limit cuts it short, and they stay in the same state. -/
namespace IdentifyBench

open WordSource

/-- The halts that a limit, a budget of delta rounds or a waveform brings about. -/
inductive Halt.Cuts (limit : Option Instant) (rounds : Nat) : Halt → Prop
  | limited {t : Instant} (given : t ∈ limit) : Cuts limit rounds (.failure (.timeLimit t))
  | unsettled (now : Instant) : Cuts limit rounds (.failure (.unsettled now rounds))
  | unwritten (now : Instant) (cause : StorageFault) :
    Cuts limit rounds (.failure (.traceWrite now cause))

namespace Turn

variable {β β' γ α δ : Type}

/-- What the first turn returns the second one returns too, and they leave related states, unless the
second one is cut. -/
def Follows (R : β → γ → Prop) (cuts : Halt → Prop) (t : Turn β α) (u : Turn γ α) : Prop :=
  ∀ x, t.result = .ok x →
    u.result = .ok x ∧ R t.state u.state ∨ ∃ halt, u.result = .error halt ∧ cuts halt

variable {R : β → γ → Prop} {cuts : Halt → Prop} {t : Turn β α} {u : Turn γ α}

theorem follows_of_error {halt : Halt} (halts : t.result = .error halt) : Follows R cuts t u := by
  intro x returns
  rw [halts] at returns
  cases returns

theorem follows_of_cut {halt : Halt} (halts : u.result = .error halt) (cut : cuts halt) :
    Follows R cuts t u :=
  fun _ _ => .inr ⟨halt, halts, cut⟩

theorem follows_of_result (same : u.result = t.result)
    (related : ∀ x, t.result = .ok x → R t.state u.state) : Follows R cuts t u :=
  fun x returns => .inl ⟨same.trans returns, related x returns⟩

theorem Follows.andThen {next : β → α → Turn β δ} {next' : γ → α → Turn γ δ}
    (first : Follows R cuts t u) (rest : ∀ b d x, R b d → Follows R cuts (next b x) (next' d x)) :
    Follows R cuts (t.andThen next) (u.andThen next') := by
  cases returned : t.result with
  | error halt => exact follows_of_error (by rw [andThen_of_error returned])
  | ok x =>
    rcases first x returned with ⟨returned', related⟩ | ⟨halt, halts, cut⟩
    · rw [andThen_of_ok returned, andThen_of_ok returned']
      exact rest _ _ x related
    · exact follows_of_cut (by rw [andThen_of_error halts]) cut

end Turn

namespace Stimulus

variable {σ : Type} [WordSource σ]

/-- The stimulus has drawn the words it has presented, and it only asks for one that is left. -/
structure Fed (source : σ) (cycles : Nat) (s : Stimulus σ) : Prop where
  asked : s.cycles = cycles
  drawn : s.source = drop source s.issued
  count : s.issued ≤ cycles
  more : s.phase = .awaitFetch ∨ s.phase = .present → s.issued < cycles

variable {s : Stimulus σ} {source : σ} {cycles : Nat}

theorem fed_new (s : StimulusSettings) (source : σ) : (new s source).Fed source s.cycles.toNat :=
  ⟨rfl, rfl, Nat.zero_le _, by rintro (impossible | impossible) <;> cases impossible⟩

theorem Fed.present (fed : s.Fed source cycles) (waits : s.phase = .awaitFetch) :
    { s with phase := .present }.Fed source cycles :=
  ⟨fed.asked, fed.drawn, fed.count, fun _ => fed.more (.inl waits)⟩

theorem fed_nextCycle (drawn : s.source = drop source s.issued) (same : s.cycles = cycles)
    (count : s.issued ≤ cycles) : s.nextCycle.1.Fed source cycles := by
  unfold nextCycle
  split
  · exact ⟨same, drawn, count, by rintro (impossible | impossible) <;> cases impossible⟩
  · rename_i more
    exact ⟨same, drawn, count, fun _ => same ▸ Nat.lt_of_not_le more⟩

/-- A stimulus that is fed stays so, unless the source has no word for it; even then it has drawn no
more than it may. -/
theorem Fed.resume (fed : s.Fed source cycles) (now : Instant) (b : Bus) :
    (∀ wait, (s.resume now b).wait = .ok wait → (s.resume now b).stimulus.Fed source cycles) ∧
      ∃ n ≤ cycles, (s.resume now b).stimulus.source = drop source n := by
  have still : s.source = drop source s.issued := fed.drawn
  unfold Stimulus.resume
  cases phase : s.phase with
  | enable =>
    have next := fed_nextCycle fed.drawn fed.asked fed.count
    exact ⟨fun _ _ => next, _, next.count, next.drawn⟩
  | present =>
    have more := fed.more (.inr phase)
    dsimp only
    rw [fed.drawn]
    rcases answer : next (drop source s.issued) with ⟨_ | word, rest⟩
    · refine ⟨nofun, s.issued + 1, more, ?_⟩
      rw [drop, answer]
    · have following : rest = drop source (s.issued + 1) := by rw [drop, answer]
      have next := fed_nextCycle (s := { s with source := rest, issued := s.issued + 1 }) following
        fed.asked more
      exact ⟨fun _ _ => next, _, next.count, next.drawn⟩
  | awaitFetch =>
    exact ⟨fun _ _ => fed.present phase, _, fed.count, still⟩
  | done => exact ⟨fun _ _ => fed, _, fed.count, still⟩
  | _ =>
    refine ⟨fun _ _ => ⟨fed.asked, still, fed.count, ?_⟩, _, fed.count, still⟩
    rintro (impossible | impossible) <;> cases impossible

/-- What a stimulus in a place has drawn: no more words than it may, and if it is not lost, it is fed. -/
structure Draws (source : σ) (cycles : Nat) (place : Whereabouts) (s : Stimulus σ) : Prop where
  fed : place ≠ .lost → s.Fed source cycles
  drawn : ∃ n ≤ cycles, s.source = drop source n

theorem Fed.draws (fed : s.Fed source cycles) (place : Whereabouts) : s.Draws source cycles place :=
  ⟨fun _ => fed, _, fed.count, fed.drawn⟩

theorem Draws.lost {place : Whereabouts} (draws : s.Draws source cycles place) :
    s.Draws source cycles .lost :=
  ⟨fun present => absurd rfl present, draws.drawn⟩

section

variable {τ : Type} [WordSource τ]

def refit (s : Stimulus σ) (source : τ) : Stimulus τ where
  reset := s.reset
  settle := s.settle
  fetchDelay := s.fetchDelay
  cycles := s.cycles
  arbiterFullEvery := s.arbiterFullEvery
  source := drop source s.issued
  phase := s.phase
  issued := s.issued

omit [WordSource σ] in
theorem nextCycle_refit (s : Stimulus σ) (source' : τ) :
    (s.refit source').nextCycle = (s.nextCycle.1.refit source', s.nextCycle.2) := by
  unfold nextCycle
  change (if s.cycles ≤ s.issued then _ else _) = _
  split <;> rfl

/-- Words beyond those that are asked for do not matter. -/
theorem Fed.resume_refit (fed : s.Fed source cycles) {source' : τ}
    (same : ∀ n < cycles, word? source' n = word? source n) {now : Instant} {b : Bus} {wait : Wait}
    (waits : (s.resume now b).wait = .ok wait) :
    (s.refit source').resume now b =
      { stimulus := (s.resume now b).stimulus.refit source'
        bus := (s.resume now b).bus
        wait := .ok wait
        events := (s.resume now b).events } := by
  rw [← waits]
  have phased : (s.refit source').phase = s.phase := rfl
  unfold Stimulus.resume at waits ⊢
  rw [phased]
  cases phase : s.phase with
  | enable =>
    dsimp only
    rw [nextCycle_refit]
  | present =>
    have answers := same s.issued (fed.more (.inr phase))
    have drawn : (s.refit source').source = drop source' s.issued := rfl
    rw [phase] at waits
    dsimp only at waits ⊢
    rw [fed.drawn] at waits ⊢
    rw [drawn]
    rcases answer : next (drop source s.issued) with ⟨_ | word, rest⟩
    · rw [answer] at waits
      cases waits
    · rw [word?, word?, answer] at answers
      have answer' : next (drop source' s.issued) = (some word, drop source' (s.issued + 1)) :=
        Prod.ext answers rfl
      have cycle := nextCycle_refit { s with source := rest, issued := s.issued + 1 } source'
      rw [answer']
      exact congrArg (fun c : Stimulus τ × Wait => (⟨c.1,
        (b.write .word word).write .arbiterFull (s.fullOn (s.issued + 1)), .ok c.2,
        [.presented now word (s.fullOn (s.issued + 1))]⟩ : Resumption τ)) cycle
  | _ => rfl

end

end Stimulus

def Observer.Agrees (kept : Prop) (o p : Observer) : Prop :=
  kept → o.keep = true ∧ p.keep = true ∧ p.records = o.records

theorem Observer.Agrees.observe {kept : Prop} {o p : Observer} (agrees : o.Agrees kept p)
    (now : Instant) (b : Bus) :
    (o.observe now b).1.Agrees kept (p.observe now b).1 ∧
      (p.observe now b).2.1 = (o.observe now b).2.1 := by
  unfold Observer.observe
  cases Observation.ofBus? now b with
  | none => exact ⟨agrees, rfl⟩
  | some observation =>
    refine ⟨fun both => ?_, rfl⟩
    obtain ⟨keeps, keeps', same⟩ := agrees both
    dsimp only
    rw [if_pos keeps, if_pos keeps']
    exact ⟨keeps, keeps', congrArg (Array.push · observation) same⟩

namespace Bench

variable {σ τ : Type}

/-- What a bench may have of its own: the words, the limit, and the budget of delta rounds. -/
structure Outfit (τ : Type) where
  source : τ
  limit : Option Instant
  rounds : Nat

variable [WordSource σ] [WordSource τ]

def refit (b : Bench σ) (outfit : Outfit τ) (observer : Observer) : Bench τ where
  now := b.now
  agenda := b.agenda
  started := b.started
  stopped := b.stopped
  limit := outfit.limit
  maxRounds := outfit.rounds
  bus := b.bus
  clock := b.clock
  stimulus := b.stimulus.refit outfit.source
  awaitingEdge := b.awaitingEdge
  stage := b.stage
  observer
  tally := b.tally

def Mirrors (source : σ) (cycles : Nat) (outfit : Outfit τ) (kept : Prop) (b : Bench σ)
    (d : Bench τ) : Prop :=
  b.stimulus.Fed source cycles ∧
    ∃ observer, b.observer.Agrees kept observer ∧ d = b.refit outfit observer

namespace Mirrors

variable {source : σ} {cycles : Nat} {outfit : Outfit τ} {kept : Prop} {b : Bench σ} {d : Bench τ}
  {cuts : Halt → Prop}

theorem moved (mirrors : b.Mirrors source cycles outfit kept d) : d.moved = b.moved := by
  obtain ⟨_, _, _, rfl⟩ := mirrors
  rfl

theorem commit (mirrors : b.Mirrors source cycles outfit kept d) :
    b.commit.Mirrors source cycles outfit kept d.commit := by
  obtain ⟨fed, observer, agrees, rfl⟩ := mirrors
  exact ⟨fed, observer, agrees, rfl⟩

theorem observe (mirrors : b.Mirrors source cycles outfit kept d) :
    Turn.Follows (Mirrors source cycles outfit kept) cuts b.observe d.observe := by
  obtain ⟨fed, observer, agrees, rfl⟩ := mirrors
  have observed := agrees.observe b.now b.bus
  refine Turn.follows_of_result ((observe_result _).trans (observe_result _).symm) fun _ _ => ?_
  revert observed
  unfold Bench.observe Bench.refit
  dsimp only
  rcases b.observer.observe b.now b.bus with ⟨watcher, seen, told⟩
  rcases observer.observe b.now b.bus with ⟨watcher', seen', told'⟩
  rintro ⟨agrees, rfl⟩
  cases seen' <;> exact ⟨fed, watcher', agrees, rfl⟩

theorem rest (mirrors : b.Mirrors source cycles outfit kept d) (round : Nat) (due : Bool) :
    Turn.Follows (Mirrors source cycles outfit kept) cuts (b.rest round due) (d.rest round due) := by
  obtain ⟨fed, observer, agrees, rfl⟩ := mirrors
  unfold Bench.rest
  cases due with
  | false => exact Turn.follows_of_result rfl fun _ _ => ⟨fed, observer, agrees, rfl⟩
  | true =>
    exact observe (b := { b with tally.deltaRounds := max b.tally.deltaRounds round })
      ⟨fed, observer, agrees, rfl⟩

theorem respond (mirrors : b.Mirrors source cycles outfit kept d) (moved : LineSet) :
    (b.respond moved).1.Mirrors source cycles outfit kept (d.respond moved).1 := by
  obtain ⟨fed, observer, agrees, rfl⟩ := mirrors
  unfold Bench.respond Bench.refit
  dsimp only
  split <;> exact ⟨fed, observer, agrees, rfl⟩

variable (same : ∀ n < cycles, word? outfit.source n = word? source n)

include same

theorem resumeStimulus (mirrors : b.Mirrors source cycles outfit kept d) :
    Turn.Follows (Mirrors source cycles outfit kept) cuts b.resumeStimulus d.resumeStimulus := by
  obtain ⟨fed, observer, agrees, rfl⟩ := mirrors
  cases waits : (b.stimulus.resume b.now b.bus).wait with
  | error f => exact Turn.follows_of_error (congrArg Turn.result (resumeStimulus_of_error waits))
  | ok wait =>
    have fed' := (fed.resume b.now b.bus).1 wait waits
    rw [resumeStimulus_of_wait rfl waits,
      resumeStimulus_of_wait (b := b.refit outfit observer) (fed.resume_refit same waits) rfl]
    refine Turn.follows_of_result rfl fun _ _ => ?_
    cases wait <;> exact ⟨fed', observer, agrees, rfl⟩

theorem wake (mirrors : b.Mirrors source cycles outfit kept d) (p : Process) :
    Turn.Follows (Mirrors source cycles outfit kept) cuts (b.wake p) (d.wake p) := by
  cases p with
  | clock =>
    obtain ⟨fed, observer, agrees, rfl⟩ := mirrors
    exact Turn.follows_of_result rfl fun _ _ => ⟨fed, observer, agrees, rfl⟩
  | stimulus => exact mirrors.resumeStimulus same

theorem drain (mirrors : b.Mirrors source cycles outfit kept d) (left : Nat) :
    Turn.Follows (Mirrors source cycles outfit kept) cuts (Bench.drain left b) (Bench.drain left d) := by
  induction left generalizing b d with
  | zero =>
    obtain ⟨fed, observer, agrees, rfl⟩ := id mirrors
    unfold Bench.drain Bench.refit
    dsimp only
    split
    · exact Turn.follows_of_result rfl fun _ _ => mirrors
    · split
      · exact Turn.follows_of_error rfl
      · exact Turn.follows_of_result rfl fun _ _ => mirrors
  | succ left ih =>
    obtain ⟨fed, observer, agrees, rfl⟩ := id mirrors
    unfold Bench.drain Bench.refit
    dsimp only
    split
    · exact Turn.follows_of_result rfl fun _ _ => mirrors
    · rename_i first rest _
      split
      · have taken : Mirrors source cycles outfit kept { b with agenda := rest }
            (Bench.refit { b with agenda := rest } outfit observer) :=
          ⟨fed, observer, agrees, rfl⟩
        exact (taken.wake same first.process).andThen fun _ _ _ mirrors => ih mirrors
      · exact Turn.follows_of_result rfl fun _ _ => mirrors

theorem passEdge (mirrors : b.Mirrors source cycles outfit kept d) (moved : LineSet) :
    Turn.Follows (Mirrors source cycles outfit kept) cuts (b.passEdge moved) (d.passEdge moved) := by
  obtain ⟨fed, observer, agrees, rfl⟩ := mirrors
  unfold Bench.passEdge Bench.refit
  dsimp only
  split
  · split
    · exact resumeStimulus same ⟨fed, observer, agrees, rfl⟩
    · exact Turn.follows_of_result rfl fun _ _ => ⟨fed, observer, agrees, rfl⟩
  · exact Turn.follows_of_result rfl fun _ _ => ⟨fed, observer, agrees, rfl⟩

theorem react (mirrors : b.Mirrors source cycles outfit kept d) :
    Turn.Follows (Mirrors source cycles outfit kept) cuts b.react d.react := by
  unfold Bench.react
  rw [mirrors.moved]
  refine Turn.Follows.andThen (R := Mirrors source cycles outfit kept) ?_ ?_
  · exact Turn.follows_of_result rfl fun _ _ => mirrors.commit.respond b.moved
  · exact fun _ _ _ mirrors => mirrors.passEdge same b.moved

/-- Two budgets lead to the same as long as neither is used up. -/
theorem settle (mirrors : b.Mirrors source cycles outfit kept d) (left left' round : Nat) (due : Bool) :
    Turn.Follows (Mirrors source cycles outfit kept) (Halt.Cuts outfit.limit outfit.rounds)
      (Bench.settle left round due b) (Bench.settle left' round due d) := by
  induction left generalizing left' round due b d with
  | zero => exact Turn.follows_of_error rfl
  | succ left ih =>
    cases left' with
    | zero =>
      obtain ⟨_, _, _, rfl⟩ := mirrors
      exact Turn.follows_of_cut rfl (.unsettled _)
    | succ left' =>
      rw [settle_succ, settle_succ, mirrors.moved]
      split
      · exact mirrors.commit.rest round due
      · exact (mirrors.react same).andThen fun _ _ _ mirrors => ih mirrors left' _ _

theorem conclude (mirrors : b.Mirrors source cycles outfit kept d) :
    Turn.Follows (Mirrors source cycles outfit kept) (Halt.Cuts outfit.limit outfit.rounds)
      b.conclude d.conclude := by
  unfold Bench.conclude
  refine (mirrors.settle same b.maxRounds d.maxRounds 0 false).andThen ?_
  rintro b d _ ⟨fed, observer, agrees, rfl⟩
  exact Turn.follows_of_result rfl fun _ _ => ⟨fed, observer, agrees, rfl⟩

omit same

theorem start (mirrors : b.Mirrors source cycles outfit kept d) :
    b.start.Mirrors source cycles outfit kept d.start := by
  obtain ⟨fed, observer, agrees, rfl⟩ := mirrors
  unfold Bench.start Bench.refit
  dsimp only
  split <;> exact ⟨fed, observer, agrees, rfl⟩

theorem arrive (mirrors : b.Mirrors source cycles outfit kept d) :
    d.next? = b.next? ∧ b.arrive.Mirrors source cycles outfit kept d.arrive := by
  have started := mirrors.start
  obtain ⟨fed, observer, agrees, same⟩ := started
  have next : d.next? = b.next? := by
    rw [next?, next?, same]
    rfl
  have now : d.now = b.now := by
    rw [← start_now d, ← start_now b, same]
    rfl
  refine ⟨next, fed, observer, agrees, ?_⟩
  rw [Bench.arrive, Bench.arrive, next, now, same]
  rfl

include same

/-- A step leads to the same unless a limit cuts it short. -/
theorem step (mirrors : b.Mirrors source cycles outfit kept d) :
    Turn.Follows (Mirrors source cycles outfit kept) (Halt.Cuts outfit.limit outfit.rounds)
      b.step d.step := by
  have stopped : d.stopped = b.stopped := by
    obtain ⟨_, _, _, rfl⟩ := mirrors
    rfl
  obtain ⟨next, arrived⟩ := mirrors.arrive
  cases going : b.stopped with
  | true =>
    have now : d.now = b.now := by
      obtain ⟨_, _, _, rfl⟩ := mirrors
      rfl
    rw [Bench.step, Bench.step, stepWithin_of_stopped going,
      stepWithin_of_stopped (stopped.trans going), now]
    exact Turn.follows_of_result rfl fun _ _ => mirrors
  | false =>
    rcases stepWithin_cases going with ⟨_, step⟩ | ⟨_, _, _, _, _, _, step⟩ | simulates
    · exact Turn.follows_of_error (by rw [Bench.step, step]; rfl)
    · exact Turn.follows_of_error (by rw [Bench.step, step]; rfl)
    · obtain ⟨_, first, due, _⟩ := id simulates
      rcases stepWithin_cases (stopped.trans going) with
        ⟨empty, _⟩ | ⟨_, _, limit, given, _, _, step⟩ | simulates'
      · rw [← next, Bench.next?, empty] at due
        cases due
      · refine Turn.follows_of_cut (by rw [Bench.step, step]; rfl) (.limited (t := limit) ?_)
        obtain ⟨_, _, _, rfl⟩ := mirrors
        exact given
      · rw [Bench.step, Bench.step, stepWithin_of_simulates simulates,
          stepWithin_of_simulates simulates']
        exact (arrived.drain same _).andThen fun _ _ _ mirrors => mirrors.conclude same

end Mirrors

theorem Mirrors.after {source : σ} {cycles : Nat} {outfit : Outfit τ} {kept : Prop} {b : Bench σ}
    {d : Bench τ} (mirrors : b.Mirrors source cycles outfit kept d)
    (same : ∀ n < cycles, word? outfit.source n = word? source n) {n : Nat}
    (returned : ∀ k < n, ∃ x, (b.after k).step.result = .ok x)
    (returned' : ∀ k < n, ∃ x, (d.after k).step.result = .ok x) :
    (b.after n).Mirrors source cycles outfit kept (d.after n) ∧
      ∀ k < n, (d.after k).step.result = (b.after k).step.result := by
  induction n with
  | zero => exact ⟨mirrors, nofun⟩
  | succ n ih =>
    obtain ⟨mirrors, results⟩ := ih (fun k below => returned k (Nat.lt_succ_of_lt below))
      fun k below => returned' k (Nat.lt_succ_of_lt below)
    obtain ⟨x, returns⟩ := returned n (Nat.lt_succ_self n)
    obtain ⟨y, returns'⟩ := returned' n (Nat.lt_succ_self n)
    rcases mirrors.step same x returns with ⟨result, stepped⟩ | ⟨halt, halts, _⟩
    · refine ⟨stepped, fun k below => ?_⟩
      rcases Nat.lt_succ_iff_lt_or_eq.mp below with before | rfl
      · exact results k before
      · exact result.trans returns.symm
    · rw [returns'] at halts
      cases halts

theorem mirrors_new (s : Settings) {s' : Settings} (source : σ) (source' : τ)
    (clock : s'.clock = s.clock) (stimulus : s'.stimulus = s.stimulus) :
    (new s source).Mirrors source s.stimulus.cycles.toNat
      ⟨source', s'.general.maxTime.map (·.toNat), s'.general.maxDeltaRounds.toNat⟩
      (s.general.keepObservations = true ∧ s'.general.keepObservations = true) (new s' source') := by
  refine ⟨Stimulus.fed_new s.stimulus source,
    .new s'.general.logObservations s'.general.keepObservations, fun both => ⟨both.1, both.2, rfl⟩, ?_⟩
  unfold new
  rw [clock, stimulus]
  rfl

section

variable {s : Settings} {source : σ} {b : Bench σ}

def Draws (s : Settings) (source : σ) (b : Bench σ) : Prop :=
  ∃ tick place, b.Housed s tick place ∧ b.stimulus.Draws source s.timetable.cycles place

theorem resumeStimulus_stimulus (b : Bench σ) :
    b.resumeStimulus.state.stimulus = (b.stimulus.resume b.now b.bus).stimulus := by
  unfold resumeStimulus
  dsimp only
  split
  · rfl
  · rename_i wait _
    cases wait <;> rfl

theorem Draws.wake (draws : b.Draws s source) {w : Wakeup} (inside : w ∈ b.agenda) :
    (Bench.wake (b.without w) w.process).state.Draws s source := by
  obtain ⟨tick, place, housed, drawn⟩ := draws
  obtain ⟨t, p⟩ := w
  cases p with
  | clock => exact ⟨_, place, (housed.taken_clock inside).2.toggled, drawn⟩
  | stimulus =>
    obtain ⟨rfl, taken⟩ := housed.taken_stimulus inside
    obtain ⟨fed, count⟩ := (drawn.fed nofun).resume b.now b.bus
    have state := resumeStimulus_stimulus (b.without ⟨t, .stimulus⟩)
    apply Turn.Ends.state (P := Draws s source)
    refine (taken.resumed.and_state (P := fun d : Bench σ =>
      d.stimulus = (b.stimulus.resume b.now b.bus).stimulus) state).mono ?_ ?_
    · rintro d _ _ ⟨⟨wait, waits, _, housed⟩, same⟩
      exact ⟨_, _, housed, same ▸ (fed wait waits).draws _⟩
    · rintro d _ _ ⟨⟨housed, _⟩, same⟩
      exact ⟨_, _, housed, same ▸ ⟨fun present => absurd rfl present, count⟩⟩

theorem Draws.drain (draws : b.Draws s source) (left : Nat) :
    (Bench.drain left b).state.Draws s source := by
  refine drain_keeps (P := Draws s source) (fun {b process rest} next kept => ?_) draws left
  rw [← without_first next]
  exact kept.wake (w := ⟨b.now, process⟩) (by simp [next])

omit [WordSource σ] in
theorem edge_stimulus (b : Bench σ) (moved : LineSet) :
    (b.edge moved).stimulus = b.stimulus ∨
      b.awaitingEdge = true ∧ (b.edge moved).stimulus = { b.stimulus with phase := .present } := by
  unfold edge
  dsimp only
  split
  · split
    · rename_i awaiting
      exact .inr ⟨awaiting, rfl⟩
    · exact .inl rfl
  · exact .inl rfl

theorem Draws.settles {d : Bench σ} (draws : b.Draws s source) (settles : b.Settles d) :
    d.Draws s source := by
  obtain ⟨tick, place, housed, drawn⟩ := draws
  exact ⟨tick, place, housed.settles settles, settles.stimulus ▸ drawn⟩

theorem Draws.edge (draws : b.Draws s source) (moved : LineSet) : (b.edge moved).Draws s source := by
  obtain ⟨tick, place, housed, drawn⟩ := draws
  obtain ⟨place', edged, passes, _⟩ := housed.edge moved
  have present : place' ≠ .lost → place ≠ .lost := by
    rcases passes with rfl | ⟨rfl, _⟩
    · exact id
    · exact fun _ => Whereabouts.noConfusion
  refine ⟨tick, place', edged, ?_⟩
  rcases edge_stimulus b moved with same | ⟨awaiting, same⟩
  · rw [same]
    exact ⟨drawn.fed ∘ present, drawn.drawn⟩
  · rw [same]
    exact ⟨fun kept => (drawn.fed (present kept)).present (housed.calm awaiting), drawn.drawn⟩

theorem Draws.settle (draws : b.Draws s source) (left round : Nat) (due : Bool) :
    (Bench.settle left round due b).state.Draws s source := by
  induction left generalizing round due b with
  | zero => exact draws
  | succ left ih =>
    obtain ⟨_, _, housed, _⟩ := id draws
    rw [settle_succ, react_of_calm housed.calm, Turn.done_andThen]
    split
    · exact draws.settles ((Settles.commit b).trans (Settles.rest b.commit round due))
    · have responded := draws.settles ((Settles.commit b).trans (Settles.respond b.commit b.moved))
      exact ih (responded.edge b.moved) _ _

theorem Draws.conclude (draws : b.Draws s source) : b.conclude.state.Draws s source := by
  apply Turn.state_andThen (P := Draws s source)
  · exact draws.settle _ _ _
  · rintro d _ ⟨tick, place, housed, drawn⟩
    exact ⟨tick, place, housed.tally _, drawn⟩

theorem Draws.step (draws : b.Draws s source) : b.step.state.Draws s source := by
  obtain ⟨tick, place, housed, drawn⟩ := id draws
  cases going : b.stopped with
  | true =>
    rw [Bench.step, stepWithin_of_stopped going]
    exact draws
  | false =>
    rcases stepWithin_cases going with
      ⟨_, step⟩ | ⟨⟨t, p⟩, rest, limit, _, _, next, step⟩ | simulates
    · rw [Bench.step, step, housed.start_eq]
      exact draws
    · rw [housed.start_eq] at next step
      rw [Bench.step, step, ← without_first next]
      have inside : ⟨t, p⟩ ∈ b.agenda := by simp [next]
      cases p with
      | clock => exact ⟨_, place, (housed.taken_clock inside).2, drawn⟩
      | stimulus => exact ⟨_, _, (housed.taken_stimulus inside).2, drawn.lost⟩
    · rw [Bench.step, stepWithin_of_simulates simulates]
      have same : b.arrive.stimulus = b.stimulus := by rw [Bench.arrive, housed.start_eq]
      have arrived : b.arrive.Draws s source := ⟨tick, place, housed.arrived.1, same ▸ drawn⟩
      apply Turn.state_andThen (P := Draws s source)
      · exact arrived.drain _
      · exact fun _ _ kept => kept.conclude

theorem draws_after (s : Settings) (source : σ) (n : Nat) :
    ((Bench.start (.new s source)).after n).Draws s source := by
  induction n with
  | zero =>
    exact ⟨_, _, housed_start s source, (Stimulus.fed_new s.stimulus source).draws _⟩
  | succ n ih => exact ih.step

/-- Even a source that has run dry has been asked for no more words than are to be presented. -/
theorem drawn_after (s : Settings) (source : σ) (n : Nat) :
    ∃ k ≤ s.timetable.cycles, ((Bench.new s source).after n).stimulus.source = drop source k := by
  rcases Nat.eq_zero_or_pos n with rfl | positive
  · exact ⟨0, Nat.zero_le _, rfl⟩
  · obtain ⟨_, _, _, draws⟩ := draws_after s source n
    rw [after_start s source positive] at draws
    exact draws.drawn

end

end Bench

namespace Recording

variable {σ τ κ ι : Type} [WordSource σ] [WordSource τ] [Sink κ] [Sink ι]

/-- Steps from the start on, one after the other. In between a waveform may be started, or another one
take its place. -/
structure Series (s : Settings) (source : σ) (r : Nat → Recording σ κ) : Prop where
  first : (r 0).bench = .new s source
  next : ∀ n, (r (n + 1)).bench = (r n).step.state.bench

theorem series_after (s : Settings) (source : σ) (waveform : Option Waveform) (out : κ) :
    Series s source (fresh s source waveform out).after :=
  ⟨rfl, fun _ => rfl⟩

theorem Series.bench_eq {s : Settings} {source : σ} {r : Nat → Recording σ κ}
    (series : Series s source r) (n : Nat) : (r n).bench = (Bench.new s source).after n := by
  induction n with
  | zero => exact series.first
  | succ n ih => rw [series.next, step_bench, ih, Bench.after]

omit [WordSource σ] in
theorem openTrace_bench (r : Recording σ Storage) (path : String) :
    (r.openTrace path).state.bench = r.bench := by
  unfold openTrace
  split
  · rfl
  · split <;> rfl

theorem cuts_of_mirrors {r : Recording σ κ} {q : Recording τ ι} {source : σ} {cycles : Nat}
    {outfit : Bench.Outfit τ} {kept : Prop}
    (mirrors : r.bench.Mirrors source cycles outfit kept q.bench)
    (same : ∀ n < cycles, word? outfit.source n = word? source n) {x : Outcome} {halt : Halt}
    (returns : r.step.result = .ok x) (halts : q.step.result = .error halt) :
    halt.Cuts outfit.limit outfit.rounds := by
  by_cases written : ∃ now cause, halt = .failure (.traceWrite now cause)
  · obtain ⟨now, cause, rfl⟩ := written
    exact .unwritten now cause
  · have halted : q.bench.step.result = .error halt :=
      result_of_bench halts fun now cause same => written ⟨now, cause, same⟩
    rcases mirrors.step same x (bench_result_of_step_ok returns) with
      ⟨returned, _⟩ | ⟨halt', halts', cut⟩
    · rw [halted] at returned
      cases returned
    · obtain rfl := Except.error.inj (halts'.symm.trans halted)
      exact cut

/-- What only watches a run or limits it does not influence it: neither the limit, the budget of delta
rounds, what is told and kept of the observations, nor a waveform, nor the words beyond those that are
asked for. As long as all steps return, both benches have had the same outcomes, and they agree in
everything else; where only one of them returns, the other one has come to a limit or cannot write its
waveform. In no state has a source given more words than are asked for. -/
theorem watching_irrelevant (s s' : Settings) (source : σ) (source' : τ)
    (clock : s'.clock = s.clock) (stimulus : s'.stimulus = s.stimulus)
    (words : take s.stimulus.cycles.toNat source' = take s.stimulus.cycles.toNat source)
    (r : Nat → Recording σ κ) (q : Nat → Recording τ ι) (steps : Series s source r)
    (steps' : Series s' source' q) :
    (∀ n, (∀ k < n, ∃ x, (r k).step.result = .ok x) → (∀ k < n, ∃ x, (q k).step.result = .ok x) →
      let b := (r n).bench
      let d := (q n).bench
      (∀ k < n, (q k).step.result = (r k).step.result) ∧
      d.now = b.now ∧ d.bus = b.bus ∧ d.stage = b.stage ∧ d.tally = b.tally ∧ d.agenda = b.agenda ∧
      d.awaitingEdge = b.awaitingEdge ∧ d.stopped = b.stopped ∧
      d.stimulus.phase = b.stimulus.phase ∧ d.stimulus.issued = b.stimulus.issued ∧
      (s.general.keepObservations = true → s'.general.keepObservations = true →
        d.observer.records = b.observer.records) ∧
      ∀ x halt, (r n).step.result = .ok x → (q n).step.result = .error halt →
        halt.Cuts (s'.general.maxTime.map (·.toNat)) s'.general.maxDeltaRounds.toNat) ∧
    ∀ n, ∃ k ≤ s.stimulus.cycles.toNat, (r n).bench.stimulus.source = drop source k := by
  have same : ∀ n < s.stimulus.cycles.toNat, word? source' n = word? source n := by
    rw [take_eq_map, take_eq_map] at words
    exact fun n below => List.map_inj_left.mp words n (List.mem_range.mpr below)
  refine ⟨fun n returned returned' => ?_, fun n => ?_⟩
  · have simulated {k : Nat} (below : k < n) : ∃ x,
        ((Bench.new s source).after k).step.result = .ok x ∧ (r k).step.result = .ok x := by
      obtain ⟨x, returns⟩ := returned k below
      rw [← steps.bench_eq k]
      exact ⟨x, bench_result_of_step_ok returns, returns⟩
    have simulated' {k : Nat} (below : k < n) : ∃ x,
        ((Bench.new s' source').after k).step.result = .ok x ∧ (q k).step.result = .ok x := by
      obtain ⟨x, returns⟩ := returned' k below
      rw [← steps'.bench_eq k]
      exact ⟨x, bench_result_of_step_ok returns, returns⟩
    obtain ⟨mirrors, results⟩ := (Bench.mirrors_new s source source' clock stimulus).after same
      (fun k below => (simulated below).imp fun _ => And.left)
      fun k below => (simulated' below).imp fun _ => And.left
    rw [← steps.bench_eq, ← steps'.bench_eq] at mirrors
    have cut : ∀ x halt, (r n).step.result = .ok x → (q n).step.result = .error halt →
        halt.Cuts (s'.general.maxTime.map (·.toNat)) s'.general.maxDeltaRounds.toNat :=
      fun _ _ => cuts_of_mirrors mirrors same
    obtain ⟨_, observer, agrees, mirrored⟩ := mirrors
    have outcomes (k : Nat) (below : k < n) : (q k).step.result = (r k).step.result := by
      obtain ⟨x, simulated, returned⟩ := simulated below
      obtain ⟨y, simulated', returned'⟩ := simulated' below
      rw [returned, returned', ← simulated, ← simulated']
      exact results k below
    rw [mirrored]
    exact ⟨outcomes, rfl, rfl, rfl, rfl, rfl, rfl, rfl, rfl, rfl,
      fun keeps keeps' => (agrees ⟨keeps, keeps'⟩).2.2, cut⟩
  · rw [steps.bench_eq]
    exact Bench.drawn_after s source n

/-- The second run has a limit, a larger budget, a waveform and a word more. -/
theorem irrelevant_of_spare_word :
    ∃ (s' : Settings) (r q : Nat → Recording (List Word) Memory),
      s' = { Settings.immediate 1 with general := ⟨some 5, 7, true, true⟩ } ∧
      r = (fresh (.immediate 1) [0x48000000] none (.empty none)).after ∧
      q = (fresh s' [0x48000000, 7] (some .blank) (.empty none)).after ∧
      (∀ k < 2, (q k).step.result.isOk = true) ∧ (q 2).bench.tally = (r 2).bench.tally ∧
      (q 2).bench.observer.records = (r 2).bench.observer.records := by
  obtain ⟨s', general⟩ : ∃ s' : Settings,
      s' = { Settings.immediate 1 with general := ⟨some 5, 7, true, true⟩ } := ⟨_, rfl⟩
  obtain ⟨r, run⟩ : ∃ r : Nat → Recording (List Word) Memory,
      r = (fresh (.immediate 1) [0x48000000] none (.empty none)).after := ⟨_, rfl⟩
  obtain ⟨q, run'⟩ : ∃ q : Nat → Recording (List Word) Memory,
      q = (fresh s' [0x48000000, 7] (some .blank) (.empty none)).after := ⟨_, rfl⟩
  have returned : ∀ k < 2, (r k).step.result.isOk = true := by
    rw [run]
    decide +kernel
  have returned' : ∀ k < 2, (q k).step.result.isOk = true := by
    rw [run', general]
    decide +kernel
  have ok {result : Except Halt Outcome} (isOk : result.isOk = true) : ∃ x, result = .ok x := by
    cases result with
    | error halt => cases isOk
    | ok x => exact ⟨x, rfl⟩
  have irrelevant := watching_irrelevant (.immediate 1) s' ([0x48000000] : List Word)
    ([0x48000000, 7] : List Word) (by rw [general]) (by rw [general]) (by decide) r q
    (run ▸ series_after ..) (run' ▸ series_after ..)
  obtain ⟨_, _, _, _, tally, _, _, _, _, _, records, _⟩ := irrelevant.1 2
    (fun k below => ok (returned k below)) fun k below => ok (returned' k below)
  exact ⟨s', r, q, general, run, run', returned', tally,
    records (by decide) (by rw [general])⟩

end Recording

end IdentifyBench

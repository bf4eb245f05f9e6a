import IdentifyBench.Proofs.Counting
import IdentifyBench.Proofs.Likeness
import IdentifyBench.Proofs.Records

/-! The commits of a run, one by one. The outputs are never torn: after every commit, and whatever has
failed, they tell about a single identification, which is neutral or belongs to a word that was committed
before while the stage looked at it. What they carry and what they will carry may differ, since an instant
that has not settled leaves an answer pending. -/
namespace IdentifyBench

namespace Bench

variable {σ : Type} [WordSource σ]

/-- The benches that commit in the rounds of an instant, each as it is before its commit. -/
def committing : Nat → Bench σ → List (Bench σ)
  | 0, _ => []
  | left + 1, b =>
    b :: if b.moved.isEmpty then []
      else if b.react.result.isOk then committing left b.react.state
      else []

instance (b : Bench σ) : Decidable b.Simulates := by
  unfold Simulates
  infer_instance

/-- The bench of a step once everything due has been woken. -/
def drained (b : Bench σ) : Turn (Bench σ) Unit := drain (maxWakeups + 1) b.arrive

def commits (b : Bench σ) : List (Bench σ) :=
  if b.Simulates ∧ b.drained.result.isOk then committing b.drained.state.maxRounds b.drained.state
  else []

def history (b : Bench σ) : Nat → List (Bench σ)
  | 0 => []
  | n + 1 => b.history n ++ (b.after n).commits

/-- The identification is neutral, or one of a word that a commit has brought to an enabled stage out of
reset. -/
def Known (past : List (Bench σ)) (d : Identification) : Prop :=
  d = .neutral ∨ ∃ c ∈ past, ∃ word, Stage.examined? c.commit.bus.inputs = some word ∧
    d = identify word

section

variable {past more : List (Bench σ)} {d : Identification}

omit [WordSource σ]

theorem Known.append (known : Known past d) (more : List (Bench σ)) : Known (past ++ more) d := by
  rcases known with neutral | ⟨c, inside, word, examined, same⟩
  · exact .inl neutral
  · exact .inr ⟨c, List.mem_append_left more inside, word, examined, same⟩

theorem Known.consistent (known : Known past d) : d.Consistent := by
  rcases known with rfl | ⟨_, _, word, _, rfl⟩
  · decide
  · exact identify_consistent word

end

/-- The outputs on the lines are those of a single identification, and it is known. -/
def Untorn (past : List (Bench σ)) (bus : Bus) : Prop :=
  ∃ d, bus.identification? = some d ∧ Known past d

/-- What the stage holds, what the outputs carry, and what they will carry after the next commit is known,
and what was observed fits with that. -/
structure Sound (past : List (Bench σ)) (b : Bench σ) : Prop where
  held : Known past b.stage.held
  carried : ∃ o, b.bus.Carries o ∧ Known past o.identified
  promised : ∃ o, b.bus.Promises o ∧ Known past o.identified
  apart : b.tally.coverage.crossHits true true = 0

namespace Sound

variable {past : List (Bench σ)} {b d : Bench σ}

omit [WordSource σ]

theorem untorn (sound : b.Sound past) : Untorn past b.bus := by
  obtain ⟨o, carries, known⟩ := sound.carried
  exact ⟨o.identified, Bus.identification?_of_carries carries known.consistent, known⟩

theorem append (sound : b.Sound past) (more : List (Bench σ)) : b.Sound (past ++ more) where
  held := sound.held.append more
  carried := by
    obtain ⟨o, carries, known⟩ := sound.carried
    exact ⟨o, carries, known.append more⟩
  promised := by
    obtain ⟨o, promises, known⟩ := sound.promised
    exact ⟨o, promises, known.append more⟩
  apart := sound.apart

theorem of_same (sound : b.Sound past) (stage : d.stage = b.stage) (bus : b.bus.Frame d.bus)
    (observed : d.tally.observed = b.tally.observed) : d.Sound past where
  held := stage ▸ sound.held
  carried := by
    obtain ⟨o, carries, known⟩ := sound.carried
    exact ⟨o, fun l value driven => (bus.levels l).trans (carries l value driven), known⟩
  promised := by
    obtain ⟨o, promises, known⟩ := sound.promised
    exact ⟨o, bus.promises promises, known⟩
  apart := (congrArg (·.coverage.crossHits true true) observed).trans sound.apart

theorem commit (sound : b.Sound past) : b.commit.Sound past where
  held := sound.held
  carried := by
    obtain ⟨o, promises, known⟩ := sound.promised
    exact ⟨o, promises.commit, known⟩
  promised := by
    obtain ⟨o, promises, known⟩ := sound.promised
    exact ⟨o, fun l value driven => (b.bus.next_commit l).trans (promises l value driven), known⟩
  apart := sound.apart

theorem held_of_answer (sound : b.Sound past) : Known (past ++ [b]) (b.stage.hold b.commit.bus.inputs) := by
  unfold Stage.hold
  split
  · exact .inl rfl
  · rename_i released
    split
    · rename_i enabled
      refine .inr ⟨b, by simp, b.commit.bus.inputs.word, ?_, rfl⟩
      rw [Stage.examined?, if_pos (by simp [released, enabled])]
    · exact sound.held.append [b]

theorem respond (sound : b.Sound past) :
    (b.commit.respond b.moved).1.Sound (past ++ [b]) := by
  have committed := sound.commit.append [b]
  unfold Bench.respond
  split
  · have answered : Known (past ++ [b]) (b.stage.hold b.commit.bus.inputs) := sound.held_of_answer
    refine ⟨answered, ?_, ⟨_, Bus.promises_drive _ _, answered⟩, sound.apart⟩
    obtain ⟨o, carries, known⟩ := committed.carried
    exact ⟨o, fun l value driven => (Bus.level_drive _ _ l).trans (carries l value driven), known⟩
  · exact committed

theorem observed (sound : b.Sound past) (t : Instant) :
    ∃ o, Observation.ofBus? t b.bus = some o ∧ o.identified.Consistent := by
  obtain ⟨d, read, known⟩ := sound.untorn
  refine ⟨⟨t, b.bus.inputs.word, b.bus.inputs.control, d, b.bus.stall.level⟩, ?_, known.consistent⟩
  unfold Observation.ofBus?
  rw [read]
  rfl

theorem rest_tally (sound : b.Sound past) (round : Nat) (due : Bool) :
    (b.rest round due).state.tally.observations = b.tally.observations + due.toNat ∧
      (b.rest round due).state.tally.coverage.crossHits true true = 0 := by
  cases due with
  | false => exact ⟨rfl, sound.apart⟩
  | true =>
    obtain ⟨o, seen, consistent⟩ := sound.observed b.now
    have recorded := (rest_of_some seen round).2
    constructor
    · exact (congrArg Tally.observations recorded).trans (Tally.observations_record _ o)
    · refine (congrArg (·.coverage.crossHits true true) recorded).trans ?_
      rw [Tally.crossHits_record, decide_eq_false consistent.2.2.2]
      exact sound.apart

theorem rest (sound : b.Sound past) (round : Nat) (due : Bool) :
    (b.rest round due).state.Sound past := by
  have apart := (sound.rest_tally round due).2
  rw [rest_state] at apart ⊢
  exact ⟨sound.held, sound.carried, sound.promised, apart⟩

end Sound

omit [WordSource σ] in
theorem respond_observed (b : Bench σ) (moved : LineSet) :
    (b.respond moved).1.tally.observed = b.tally.observed := by
  unfold respond
  split <;> rfl

theorem passEdge_same (b : Bench σ) (moved : LineSet) :
    (b.passEdge moved).state.stage = b.stage ∧ b.bus.Frame (b.passEdge moved).state.bus ∧
      (b.passEdge moved).state.tally.observed = b.tally.observed := by
  unfold passEdge
  split
  · dsimp only
    split
    · have frame := frame_resumeStimulus
        { b with awaitingEdge := false, tally.clockCycles := b.tally.clockCycles + 1 }
      refine ⟨frame.stage, frame.bus, ?_⟩
      rw [frame.tally]
      rfl
    · exact ⟨rfl, .refl _, rfl⟩
  · exact ⟨rfl, .refl _, rfl⟩

theorem react_state (b : Bench σ) :
    b.react.state = ((b.commit.respond b.moved).1.passEdge b.moved).state := by
  rw [react, Turn.done_andThen]

theorem react_observed (b : Bench σ) : b.react.state.tally.observed = b.tally.observed := by
  rw [react_state, (passEdge_same _ _).2.2, respond_observed]
  rfl

theorem Sound.react {past : List (Bench σ)} {b : Bench σ} (sound : b.Sound past) :
    b.react.state.Sound (past ++ [b]) := by
  obtain ⟨stage, bus, observed⟩ := passEdge_same (b.commit.respond b.moved).1 b.moved
  rw [react_state]
  exact sound.respond.of_same stage bus observed

/-- After each of these commits the outputs are not torn, given the commits before all of them. -/
def AllUntorn (past commits : List (Bench σ)) : Prop :=
  ∀ before c after, commits = before ++ c :: after → Untorn (past ++ before) c.commit.bus

section

variable {past l l' : List (Bench σ)} {b : Bench σ}

omit [WordSource σ]

theorem allUntorn_nil (past : List (Bench σ)) : AllUntorn past [] :=
  fun before c after empty => absurd empty.symm (by simp)

theorem AllUntorn.cons (first : Untorn past b.commit.bus) (rest : AllUntorn (past ++ [b]) l) :
    AllUntorn past (b :: l) := by
  intro before c after whole
  rcases List.cons_eq_append_iff.mp whole with ⟨rfl, same⟩ | ⟨before', rfl, same⟩
  · obtain ⟨rfl, rfl⟩ := List.cons.inj same
    rw [List.append_nil]
    exact first
  · have untorn := rest before' c after same
    rw [List.append_assoc] at untorn
    exact untorn

theorem AllUntorn.append (first : AllUntorn past l) (rest : AllUntorn (past ++ l) l') :
    AllUntorn past (l ++ l') := by
  intro before c after whole
  rcases List.append_eq_append_iff.mp whole with ⟨before', rfl, same⟩ | ⟨middle, rfl, same⟩
  · rw [← List.append_assoc]
    exact rest before' c after same
  · rcases List.cons_eq_append_iff.mp same with ⟨rfl, same⟩ | ⟨middle', rfl, _⟩
    · rw [List.append_nil] at rest
      have untorn := rest [] c after same.symm
      rw [List.append_nil] at untorn
      exact untorn
    · exact first before c middle' rfl

end

theorem Sound.settle {past : List (Bench σ)} {b : Bench σ} (sound : b.Sound past)
    (left round : Nat) (due : Bool) :
    (Bench.settle left round due b).state.Sound (past ++ committing left b) ∧
      AllUntorn past (committing left b) := by
  induction left generalizing past round due b with
  | zero =>
    rw [committing, List.append_nil]
    exact ⟨sound, allUntorn_nil past⟩
  | succ left ih =>
    have first : Untorn past b.commit.bus := sound.commit.untorn
    rw [settle_succ, committing]
    split
    · exact ⟨(sound.commit.append [b]).rest round due, .cons first (allUntorn_nil _)⟩
    · cases reacts : b.react.result with
      | error halt =>
        rw [Turn.andThen_of_error reacts]
        exact ⟨sound.react, .cons first (allUntorn_nil _)⟩
      | ok x =>
        rw [Turn.andThen_of_ok reacts]
        obtain ⟨settled, untorn⟩ := ih sound.react (round + 1)
          (due || b.moved.intersects Observation.triggers)
        rw [List.append_assoc] at settled
        exact ⟨settled, .cons first untorn⟩

/-- An instant that settles has its view taken if a commit has moved one of the lines that ask for it. -/
theorem Sound.observations_settle {past : List (Bench σ)} {b : Bench σ} (sound : b.Sound past)
    (left round : Nat) (due : Bool) :
    (Bench.settle left round due b).state.tally.observations = b.tally.observations +
      ((Bench.settle left round due b).result.isOk &&
        (due || (committing left b).any fun c => c.moved.intersects Observation.triggers)).toNat := by
  induction left generalizing past round due b with
  | zero => rfl
  | succ left ih =>
    rw [settle_succ, committing]
    split
    · rename_i empty
      rw [(sound.commit.rest_tally round due).1, rest_result, List.any_cons,
        not_intersects_of_isEmpty empty]
      cases due <;> rfl
    · have before : b.react.state.tally.observations = b.tally.observations :=
        (congrArg Tally.observations b.react_observed :)
      cases reacts : b.react.result with
      | error halt =>
        rw [Turn.andThen_of_error reacts]
        exact before
      | ok x =>
        rw [Turn.andThen_of_ok reacts, List.any_cons, ← Bool.or_assoc, ← before]
        exact ih sound.react (round + 1) (due || b.moved.intersects Observation.triggers)

section

variable {past : List (Bench σ)} {b : Bench σ}

theorem conclude_same (d : Bench σ) :
    d.conclude.state.stage = (settle d.maxRounds 0 false d).state.stage ∧
      d.conclude.state.bus = (settle d.maxRounds 0 false d).state.bus ∧
      d.conclude.state.tally.observed = (settle d.maxRounds 0 false d).state.tally.observed ∧
      d.conclude.result.isOk = (settle d.maxRounds 0 false d).result.isOk := by
  unfold conclude
  cases settles : (settle d.maxRounds 0 false d).result with
  | error halt =>
    rw [Turn.andThen_of_error settles]
    exact ⟨rfl, rfl, rfl, rfl⟩
  | ok x =>
    rw [Turn.andThen_of_ok settles]
    exact ⟨rfl, rfl, rfl, rfl⟩

omit [WordSource σ] in
theorem start_same (b : Bench σ) :
    b.start.stage = b.stage ∧ b.start.bus = b.bus ∧ b.start.tally = b.tally := by
  unfold start
  split <;> exact ⟨rfl, rfl, rfl⟩

theorem step_of_idle (idle : ¬b.Simulates) :
    b.step.state.stage = b.stage ∧ b.step.state.bus = b.bus ∧ b.step.state.tally = b.tally := by
  cases going : b.stopped with
  | true =>
    rw [step, stepWithin_of_stopped going]
    exact ⟨rfl, rfl, rfl⟩
  | false =>
    rcases stepWithin_cases going with ⟨_, step⟩ | ⟨_, _, _, _, _, _, step⟩ | simulates
    · rw [Bench.step, step]
      exact b.start_same
    · rw [Bench.step, step]
      exact b.start_same
    · exact absurd simulates idle

theorem drained_same (b : Bench σ) :
    b.drained.state.stage = b.stage ∧ b.bus.Frame b.drained.state.bus ∧
      b.drained.state.tally.observed = b.tally.observed := by
  obtain ⟨stage, bus, tally⟩ := b.start_same
  have frame : b.arrive.Frame b.drained.state := frame_drain _ _
  have lines : b.start.bus.Frame b.drained.state.bus := frame.bus
  refine ⟨frame.stage.trans stage, bus ▸ lines, ?_⟩
  rw [frame.tally, arrive, tally]
  rfl

theorem commits_of_idle (idle : ¬b.Simulates) : b.commits = [] :=
  if_neg fun both => idle both.1

theorem commits_of_drained {x : Unit} (simulates : b.Simulates) (drains : b.drained.result = .ok x) :
    b.commits = committing b.drained.state.maxRounds b.drained.state :=
  if_pos ⟨simulates, by rw [drains]; rfl⟩

theorem commits_of_halted {halt : Halt} (halts : b.drained.result = .error halt) : b.commits = [] :=
  if_neg fun both => by
    rw [halts] at both
    cases both.2

/-- A step keeps all this, and its commits do; and it counts the view it has to take. -/
theorem Sound.step (sound : b.Sound past) :
    b.step.state.Sound (past ++ b.commits) ∧ AllUntorn past b.commits ∧
      b.step.state.tally.observations = b.tally.observations +
        (b.step.result.isOk &&
          b.commits.any fun c => c.moved.intersects Observation.triggers).toNat := by
  by_cases simulates : b.Simulates
  · have step : b.step = b.drained.andThen fun d _ => d.conclude := stepWithin_of_simulates simulates _
    obtain ⟨stage, bus, observed⟩ := b.drained_same
    have drained : b.drained.state.Sound past := sound.of_same stage bus observed
    have before : b.drained.state.tally.observations = b.tally.observations :=
      (congrArg Tally.observations observed :)
    cases drains : b.drained.result with
    | error halt =>
      rw [step, Turn.andThen_of_error drains, commits_of_halted drains, List.append_nil]
      exact ⟨drained, allUntorn_nil past, before⟩
    | ok x =>
      obtain ⟨settled, untorn⟩ := drained.settle b.drained.state.maxRounds 0 false
      have counted := drained.observations_settle b.drained.state.maxRounds 0 false
      obtain ⟨stage, bus, observed, result⟩ := conclude_same b.drained.state
      have recorded : b.drained.state.conclude.state.tally.observations = _ :=
        (congrArg Tally.observations observed :)
      rw [step, Turn.andThen_of_ok drains, commits_of_drained simulates drains]
      refine ⟨settled.of_same stage ?_ observed, untorn, ?_⟩
      · rw [bus]
        exact .refl _
      · rw [← before, result]
        exact recorded.trans counted
  · obtain ⟨stage, bus, tally⟩ := step_of_idle simulates
    rw [commits_of_idle simulates, List.append_nil, tally, List.any_nil, Bool.and_false]
    refine ⟨sound.of_same stage ?_ (by rw [tally]), allUntorn_nil past, rfl⟩
    rw [bus]
    exact .refl _

end

omit [WordSource σ] in
theorem sound_new (s : Settings) (source : σ) : (new s source).Sound [] where
  held := .inl rfl
  carried := by
    refine ⟨.neutral, fun l value driven => ?_, .inl rfl⟩
    cases l <;> cases driven <;> rfl
  promised := by
    refine ⟨.neutral, fun l value driven => ?_, .inl rfl⟩
    cases l <;> cases driven <;> rfl
  apart := rfl

theorem sound_after (s : Settings) (source : σ) (n : Nat) :
    ((new s source).after n).Sound ((new s source).history n) ∧
      AllUntorn [] ((new s source).history n) := by
  induction n with
  | zero => exact ⟨sound_new s source, allUntorn_nil []⟩
  | succ n ih =>
    obtain ⟨stepped, untorn, _⟩ := ih.1.step
    exact ⟨stepped, ih.2.append untorn⟩

theorem after_after (b : Bench σ) (n m : Nat) : (b.after n).after m = b.after (n + m) := by
  induction m with
  | zero => rfl
  | succ m ih => rw [after, ih, ← Nat.add_assoc, after]

end Bench

namespace Recording

variable {σ κ : Type} [WordSource σ] [Sink κ]

inductive Call
  | step
  | run
  deriving DecidableEq

def call (r : Recording σ κ) : Call → Recording σ κ
  | .step => r.step.state
  | .run => r.run.state

theorem steps_bench (left : Nat) (r : Recording σ κ) (events : Array Event) :
    ∃ n, (steps left r events).state.bench = r.bench.after n := by
  induction left generalizing r events with
  | zero => exact ⟨0, rfl⟩
  | succ left ih =>
    have stepped : r.step.state.bench = r.bench.after 1 := step_bench r
    unfold steps
    dsimp only
    split
    · exact ⟨1, stepped⟩
    · obtain ⟨n, same⟩ := ih r.step.state (events ++ r.step.events.toArray)
      rw [stepped, Bench.after_after] at same
      exact ⟨1 + n, same⟩
    · exact ⟨1, stepped⟩

theorem run_bench (r : Recording σ κ) : ∃ n, r.run.state.bench = r.bench.after n := by
  have stepped := steps_bench maxSteps r #[.started r.bench.clock.period]
  unfold run Turn.andThen
  dsimp only
  split <;> exact stepped

theorem calls_bench (calls : List Call) (r : Recording σ κ) :
    ∃ n, (calls.foldl call r).bench = r.bench.after n := by
  induction calls generalizing r with
  | nil => exact ⟨0, rfl⟩
  | cons c rest ih =>
    obtain ⟨n, first⟩ : ∃ n, (r.call c).bench = r.bench.after n := by
      cases c with
      | step => exact ⟨1, step_bench r⟩
      | run => exact run_bench r
    obtain ⟨m, later⟩ := ih (r.call c)
    rw [first, Bench.after_after] at later
    exact ⟨n + m, later⟩

/-- The outputs are never torn, whatever is called and whatever fails: in every state, and after every
single commit, they tell about one identification, which is neutral or belongs to a word that was
committed before to the enabled stage out of reset. So an observer that looks at the lines sees something
every time, each view that is due is counted, and no observation finds both a branch and an operation. -/
theorem outputs_untorn (s : Settings) (source : σ) (waveform : Option Waveform) (out : κ) :
    let b := Bench.new s source
    (∀ calls : List Call,
      let r := calls.foldl call (fresh s source waveform out)
      ∃ n, r.bench = b.after n ∧ Bench.Untorn (b.history n) r.bench.bus ∧
        r.bench.tally.coverage.crossHits true true = 0) ∧
    (∀ n before c after, b.history n = before ++ c :: after →
      Bench.Untorn before c.commit.bus ∧
      ∀ (o : Observer) (t : Instant), (o.observe t c.commit.bus).2.1.isSome = true) ∧
    ∀ n, (b.after (n + 1)).tally.observations = (b.after n).tally.observations +
      ((b.after n).step.result.isOk &&
        (b.after n).commits.any fun c => c.moved.intersects Observation.triggers).toNat := by
  intro b
  refine ⟨?_, fun n before c after same => ?_, fun n => (Bench.sound_after s source n).1.step.2.2⟩
  · intro calls r
    obtain ⟨n, made⟩ := calls_bench calls (fresh s source waveform out)
    have sound := (Bench.sound_after s source n).1
    refine ⟨n, made, ?_⟩
    rw [show r.bench = b.after n from made]
    exact ⟨sound.untorn, sound.apart⟩
  · have untorn := (Bench.sound_after s source n).2 before c after same
    refine ⟨untorn, fun o t => ?_⟩
    obtain ⟨d, read, _⟩ := untorn
    unfold Observer.observe Observation.ofBus?
    rw [read]
    rfl

/-- One round is too few for the first two instants of this run to settle. -/
theorem untorn_after_overflow :
    ∃ r : Recording (List Word) Memory,
      r = fresh ((Settings.immediate 1).allowing 1) [0x48000000] none (.empty none) ∧
      r.step.result.isOk = false ∧ (r.after 1).step.result.isOk = false ∧
      (∃ n, Bench.Untorn (r.bench.history n) ([.step, .step, .run].foldl call r).bench.bus) ∧
      ∃ c after, r.bench.history 1 = c :: after ∧
        Bench.Untorn ([] : List (Bench (List Word))) c.commit.bus := by
  have untorn := outputs_untorn ((Settings.immediate 1).allowing 1) ([0x48000000] : List Word) none
    (Memory.empty none)
  obtain ⟨r, same⟩ : ∃ r : Recording (List Word) Memory,
      r = fresh ((Settings.immediate 1).allowing 1) [0x48000000] none (.empty none) := ⟨_, rfl⟩
  have bench : r.bench = .new ((Settings.immediate 1).allowing 1) [0x48000000] := by rw [same]; rfl
  dsimp only at untorn
  rw [← same, ← bench] at untorn
  obtain ⟨states, commits, _⟩ := untorn
  obtain ⟨n, _, kept, _⟩ := states [.step, .step, .run]
  have commits' : r.bench.history 1 ≠ [] := by
    have one : (r.bench.history 1).length = 1 := by
      rw [same]
      decide +kernel
    exact List.ne_nil_of_length_eq_add_one one
  obtain ⟨c, after, whole⟩ := List.exists_cons_of_ne_nil commits'
  refine ⟨r, same, ?_, ?_, ⟨n, kept⟩, c, after, whole, (commits 1 [] c after whole).1⟩
  · rw [same]
    decide +kernel
  · rw [same]
    decide +kernel

end Recording

end IdentifyBench

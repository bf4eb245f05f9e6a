import IdentifyBench.Proofs.Bus
import IdentifyBench.Proofs.Turn

/-! What waking processes leaves as it is. A process writes the stage's inputs and schedules wake-ups;
no level changes before a commit, and the stage, the observer and what they have told stay. -/
namespace IdentifyBench

/-- The lines differ in what is pending on the stage's inputs at most. -/
structure Bus.Frame (b d : Bus) : Prop where
  levels : ∀ l, d.level l = b.level l
  outputs : ∀ l ∉ Bench.stageInputs, d.get l = b.get l

namespace Bus.Frame

variable {b c d : Bus}

theorem refl (b : Bus) : b.Frame b := ⟨fun _ => rfl, fun _ _ => rfl⟩

theorem trans (first : b.Frame c) (second : c.Frame d) : b.Frame d where
  levels l := (second.levels l).trans (first.levels l)
  outputs l output := (second.outputs l output).trans (first.outputs l output)

theorem write (b : Bus) {l : Line} (input : l ∈ Bench.stageInputs) (value : l.Value) :
    b.Frame (b.write l value) where
  levels := fun k => level_write b l k value
  outputs := by
    intro k output
    apply get_write_of_ne
    rintro rfl
    exact output input

theorem inputs_eq (frame : b.Frame d) : d.inputs = b.inputs :=
  inputs_eq_of_levels fun l _ => frame.levels l

theorem promises (frame : b.Frame d) {o : StageOutputs} (promised : b.Promises o) :
    d.Promises o := by
  intro l value driven
  have output : l ∉ Bench.stageInputs := fun input => by
    rw [(o.on_eq_none_iff l).mpr input] at driven
    cases driven
  rw [next, frame.outputs l output]
  exact promised l value driven

end Bus.Frame

theorem Stimulus.resume_frame {σ : Type} [WordSource σ] (s : Stimulus σ) (now : Instant) (b : Bus) :
    b.Frame (s.resume now b).bus := by
  have word (b : Bus) (w : Word) := Bus.Frame.write b (l := .word) (by decide) w
  have full (b : Bus) (high : Bool) := Bus.Frame.write b (l := .arbiterFull) (by decide) high
  have reset (b : Bus) (high : Bool) := Bus.Frame.write b (l := .reset) (by decide) high
  have enable (b : Bus) (high : Bool) := Bus.Frame.write b (l := .enable) (by decide) high
  unfold resume
  split
  · exact (((word _ _).trans (full _ _)).trans (reset _ _)).trans (enable _ _)
  · exact reset _ _
  · exact enable _ _
  · exact .refl _
  · split
    · exact .refl _
    · exact (word _ _).trans (full _ _)
  · exact .refl _

namespace Bench

variable {σ : Type}

/-- The benches differ in the schedule, the stimulus and what is pending on the inputs at most. -/
structure Frame (b d : Bench σ) : Prop where
  now : d.now = b.now
  started : d.started = b.started
  limit : d.limit = b.limit
  maxRounds : d.maxRounds = b.maxRounds
  clock : d.clock = b.clock
  stage : d.stage = b.stage
  observer : d.observer = b.observer
  bus : b.bus.Frame d.bus
  tally : d.tally = { b.tally with wordsIssued := d.tally.wordsIssued }

namespace Frame

theorem refl (b : Bench σ) : b.Frame b := ⟨rfl, rfl, rfl, rfl, rfl, rfl, rfl, .refl _, rfl⟩

theorem trans {b c d : Bench σ} (first : b.Frame c) (second : c.Frame d) : b.Frame d where
  now := second.now.trans first.now
  started := second.started.trans first.started
  limit := second.limit.trans first.limit
  maxRounds := second.maxRounds.trans first.maxRounds
  clock := second.clock.trans first.clock
  stage := second.stage.trans first.stage
  observer := second.observer.trans first.observer
  bus := first.bus.trans second.bus
  tally := by
    rw [second.tally, first.tally]

end Frame

theorem frame_schedule (b : Bench σ) (delay : Nat) (process : Process) :
    b.Frame (b.schedule delay process) :=
  ⟨rfl, rfl, rfl, rfl, rfl, rfl, rfl, .refl _, rfl⟩

theorem frame_agenda (b : Bench σ) (agenda : Agenda) : b.Frame { b with agenda } :=
  ⟨rfl, rfl, rfl, rfl, rfl, rfl, rfl, .refl _, rfl⟩

theorem frame_toggleClock (b : Bench σ) : b.Frame b.toggleClock where
  now := rfl
  started := rfl
  limit := rfl
  maxRounds := rfl
  clock := rfl
  stage := rfl
  observer := rfl
  bus := Bus.Frame.write b.bus (l := .clock) (by decide) _
  tally := rfl

theorem frame_await (b : Bench σ) (wait : Wait) : b.Frame (b.await wait).1 := by
  cases wait with
  | delay time => exact frame_schedule b time .stimulus
  | risingEdge => exact ⟨rfl, rfl, rfl, rfl, rfl, rfl, rfl, .refl _, rfl⟩
  | stop => exact ⟨rfl, rfl, rfl, rfl, rfl, rfl, rfl, .refl _, rfl⟩

variable [WordSource σ]

theorem frame_resumeStimulus (b : Bench σ) : b.Frame b.resumeStimulus.state := by
  have resumed : b.Frame
      { b with
        stimulus := (b.stimulus.resume b.now b.bus).stimulus
        bus := (b.stimulus.resume b.now b.bus).bus } :=
    ⟨rfl, rfl, rfl, rfl, rfl, rfl, rfl, b.stimulus.resume_frame b.now b.bus, rfl⟩
  unfold resumeStimulus
  dsimp only
  split
  · exact resumed
  · rename_i wait _
    have awaited := resumed.trans (frame_await _ wait)
    exact ⟨awaited.now, awaited.started, awaited.limit, awaited.maxRounds, awaited.clock, awaited.stage,
      awaited.observer, awaited.bus, by simp only [Turn.done]; rw [awaited.tally]⟩

theorem frame_wake (b : Bench σ) (process : Process) : b.Frame (b.wake process).state := by
  cases process with
  | clock => exact frame_toggleClock b
  | stimulus => exact frame_resumeStimulus b

/-- What every wake-up that is due keeps holds once all of them are through, whether or not one fails. -/
theorem drain_keeps {P : Bench σ → Prop}
    (wakes : ∀ {b : Bench σ} {process : Process} {rest : Agenda},
      b.agenda = ⟨b.now, process⟩ :: rest → P b → P (wake { b with agenda := rest } process).state)
    {b : Bench σ} (holds : P b) (left : Nat) : P (drain left b).state := by
  induction left generalizing b with
  | zero =>
    unfold drain
    split
    · exact holds
    · split <;> exact holds
  | succ left ih =>
    unfold drain
    split
    · exact holds
    · rename_i first rest next
      split
      · rename_i due
        have next : b.agenda = ⟨b.now, first.process⟩ :: rest := by rw [next, ← due]
        exact Turn.state_andThen (wakes next holds) fun _ _ woken => ih woken
      · exact holds

theorem frame_drain (left : Nat) (b : Bench σ) : b.Frame (drain left b).state :=
  drain_keeps (P := b.Frame)
    (fun {c _ rest} _ frame => (frame.trans (frame_agenda c rest)).trans (frame_wake _ _)) (.refl b) left

end Bench

end IdentifyBench

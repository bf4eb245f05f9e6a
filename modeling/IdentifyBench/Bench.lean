import IdentifyBench.Agenda
import IdentifyBench.Clock
import IdentifyBench.Observer
import IdentifyBench.Stimulus
import IdentifyBench.Tally

/-! The bench around the stage: clock, stimulus and observer. Time goes from one scheduled wake-up
to the next. At an instant all processes due are woken, and their writes stay pending. Then rounds
of commits follow: a round commits the pending writes, lets the stage answer if one of its inputs
moved, and resumes a stimulus that waits for a rising clock edge. The first round that moves nothing
ends the instant, and the observer looks at the lines if one of those it minds has moved. -/
namespace IdentifyBench

structure Bench (σ : Type) where
  now : Instant
  agenda : Agenda
  started : Bool
  stopped : Bool
  limit : Option Instant
  maxRounds : Nat
  bus : Bus
  clock : Clock
  stimulus : Stimulus σ
  awaitingEdge : Bool
  stage : Stage
  observer : Observer
  tally : Tally

inductive Outcome
  | advanced (time : Instant)
  | stopped (time : Instant)
  deriving DecidableEq, Repr

/-- Why a run gives no outcome: something failed, or it goes on without end. -/
inductive Halt
  | failure (f : Failure)
  | endless
  deriving DecidableEq, Repr

/-- What a part of a run leads to. The state is meaningful after a halt too. -/
structure Turn (β α : Type) where
  state : β
  events : List Event
  result : Except Halt α

namespace Turn

variable {β α γ : Type}

def done (state : β) (events : List Event) : Turn β Unit := ⟨state, events, .ok ()⟩

def fail (state : β) (f : Failure) : Turn β α := ⟨state, [], .error (.failure f)⟩

def andThen (t : Turn β α) (next : β → α → Turn β γ) : Turn β γ :=
  match t.result with
  | .error halt => ⟨t.state, t.events, .error halt⟩
  | .ok x =>
    let u := next t.state x
    { u with events := t.events ++ u.events }

end Turn

namespace Bench

variable {σ : Type}

/-- The lines that make the stage answer anew. -/
def stageInputs : LineSet := .ofList [.clock, .reset, .enable, .word, .arbiterFull]

def new (s : Settings) (source : σ) : Bench σ where
  now := 0
  agenda := []
  started := false
  stopped := false
  limit := s.general.maxTime.map (·.toNat)
  maxRounds := s.general.maxDeltaRounds.toNat
  bus := .idle
  clock := .ofPeriod s.clock.period.toNat
  stimulus := .new s.stimulus source
  awaitingEdge := false
  stage := .new
  observer := .new s.general.logObservations s.general.keepObservations
  tally := .empty

def schedule (b : Bench σ) (delay : Nat) (process : Process) : Bench σ :=
  { b with agenda := b.agenda.add ⟨b.now.after delay, process⟩ }

def start (b : Bench σ) : Bench σ :=
  if b.started then b
  else { b with started := true, agenda := (b.agenda.add ⟨0, .clock⟩).add ⟨0, .stimulus⟩ }

def toggleClock (b : Bench σ) : Bench σ :=
  let (high, delay) := b.clock.toggle b.bus.clock.level
  { b with bus := b.bus.write .clock high }.schedule delay .clock

/-- Turns what the stimulus waits for into what will wake it. -/
def await (b : Bench σ) : Wait → Bench σ × List Event
  | .delay time => (b.schedule time .stimulus, [])
  | .risingEdge => ({ b with awaitingEdge := true }, [])
  | .stop => ({ b with stopped := true }, [.stopRequested b.now])

def observe (b : Bench σ) : Turn (Bench σ) Unit :=
  match b.observer.observe b.now b.bus with
  | (observer, none, events) => .done { b with observer } events
  | (observer, some observation, events) =>
    .done { b with observer, tally := b.tally.record observation } events

def respond (b : Bench σ) (moved : LineSet) : Bench σ × List Event :=
  if moved.intersects stageInputs then
    let inputs := b.bus.inputs
    let (stage, outputs) := b.stage.evaluate inputs
    ({ b with
        stage
        bus := b.bus.drive outputs
        tally.stageEvaluations := b.tally.stageEvaluations + 1 },
      match Stage.examined? inputs with
      | some word => [.identified word stage.held]
      | none => [])
  else (b, [])

variable [WordSource σ]

def resumeStimulus (b : Bench σ) : Turn (Bench σ) Unit :=
  let r := b.stimulus.resume b.now b.bus
  let b := { b with stimulus := r.stimulus, bus := r.bus }
  match r.wait with
  | .error f => ⟨b, r.events, .error (.failure f)⟩
  | .ok wait =>
    let (b, events) := b.await wait
    .done { b with tally.wordsIssued := b.stimulus.issued } (r.events ++ events)

def wake (b : Bench σ) : Process → Turn (Bench σ) Unit
  | .clock => .done b.toggleClock []
  | .stimulus => b.resumeStimulus

/-- Wakes what is due at this instant, also what comes due meanwhile, `left` wake-ups at most. -/
def drain : Nat → Bench σ → Turn (Bench σ) Unit
  | left, b =>
    match b.agenda with
    | [] => .done b []
    | first :: rest =>
      if first.time = b.now then
        match left with
        | 0 => ⟨b, [], .error .endless⟩
        | left + 1 =>
          (wake { b with agenda := rest } first.process).andThen fun b _ => drain left b
      else .done b []

/-- A rising edge counts as a clock cycle, and resumes a stimulus that waits for it. -/
def passEdge (b : Bench σ) (moved : LineSet) : Turn (Bench σ) Unit :=
  if moved.contains .clock && b.bus.clock.level then
    let b := { b with tally.clockCycles := b.tally.clockCycles + 1 }
    if b.awaitingEdge then resumeStimulus { b with awaitingEdge := false } else .done b []
  else .done b []

/-- Rounds of commits, `left` at most, after `round` of them. -/
def settle : Nat → Nat → Bool → Bench σ → Turn (Bench σ) Unit
  | 0, _, _, b => .fail b (.unsettled b.now b.maxRounds)
  | left + 1, round, due, b =>
    let (bus, moved) := b.bus.commit
    let b := { b with bus }
    if moved.isEmpty then
      let b := { b with tally.deltaRounds := max b.tally.deltaRounds round }
      if due then b.observe else .done b []
    else
      let (b, events) := b.respond moved
      (Turn.done b events).andThen fun b _ =>
        (b.passEdge moved).andThen fun b _ =>
          settle left (round + 1) (due || moved.intersects Observation.triggers) b

def instant (wakeups : Nat) (b : Bench σ) (first : Wakeup) : Turn (Bench σ) Outcome :=
  ((wake { b with now := first.time } first.process).andThen fun b _ =>
    drain wakeups b).andThen fun b _ =>
      (settle b.maxRounds 0 false b).andThen fun b _ =>
        let b := { b with tally.simTime := b.now }
        ⟨b, [], .ok (if b.stopped then .stopped b.now else .advanced b.now)⟩

def stepWithin (wakeups : Nat) (b : Bench σ) : Turn (Bench σ) Outcome :=
  if b.stopped then ⟨b, [], .ok (.stopped b.now)⟩
  else
    let b := b.start
    match b.agenda with
    | [] => .fail b (.starved b.now)
    | first :: rest =>
      let b := { b with agenda := rest }
      match b.limit.filter (· < first.time) with
      | some limit => .fail b (.timeLimit limit)
      | none => b.instant wakeups first

/-- More wake-ups than any instant needs before the last one of the timeline. At that one the clock
comes due again and again. -/
def maxWakeups : Nat := 1000

def step (b : Bench σ) : Turn (Bench σ) Outcome := b.stepWithin maxWakeups

end Bench

end IdentifyBench

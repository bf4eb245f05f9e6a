import IdentifyBench.Event
import IdentifyBench.Failure
import IdentifyBench.Source

/-! The process that drives the stage's inputs. It leads the stage through reset and enable, then
presents one word after each rising clock edge, and asks for the stop once it has presented all of
them. Between two resumptions it waits. -/
namespace IdentifyBench

inductive Wait
  | delay (time : Nat)
  | risingEdge
  | stop
  deriving DecidableEq, Repr

inductive Phase
  | reset
  | release
  | enable
  | awaitFetch
  | present
  | done
  deriving DecidableEq, Repr

structure Stimulus (σ : Type) where
  reset : Nat
  settle : Nat
  fetchDelay : Nat
  cycles : Nat
  arbiterFullEvery : Nat
  source : σ
  phase : Phase
  issued : Nat

structure Resumption (σ : Type) where
  stimulus : Stimulus σ
  bus : Bus
  wait : Except Failure Wait
  events : List Event

namespace Stimulus

variable {σ : Type}

def new (s : StimulusSettings) (source : σ) : Stimulus σ where
  reset := s.reset.toNat
  settle := s.settle.toNat
  fetchDelay := s.fetchDelay.toNat
  cycles := s.cycles.toNat
  arbiterFullEvery := s.arbiterFullEvery.toNat
  source
  phase := .reset
  issued := 0

def fullOn (s : Stimulus σ) (n : Nat) : Bool :=
  s.arbiterFullEvery != 0 && n % s.arbiterFullEvery == 0

def nextCycle (s : Stimulus σ) : Stimulus σ × Wait :=
  if s.cycles ≤ s.issued then ({ s with phase := .done }, .stop)
  else ({ s with phase := .awaitFetch }, .risingEdge)

def resume [WordSource σ] (s : Stimulus σ) (now : Instant) (b : Bus) : Resumption σ :=
  match s.phase with
  | .reset =>
    { stimulus := { s with phase := .release }
      bus := (((b.write .word (0 : Word)).write .arbiterFull false).write .reset true).write
        .enable false
      wait := .ok (.delay s.reset)
      events := [.resetAsserted now] }
  | .release =>
    { stimulus := { s with phase := .enable }
      bus := b.write .reset false
      wait := .ok (.delay s.settle)
      events := [.resetReleased now] }
  | .enable =>
    let (next, wait) := s.nextCycle
    { stimulus := next, bus := b.write .enable true, wait := .ok wait, events := [.enabled now] }
  | .awaitFetch =>
    { stimulus := { s with phase := .present }
      bus := b
      wait := .ok (.delay s.fetchDelay)
      events := [] }
  | .present =>
    match WordSource.next s.source with
    | (none, source) =>
      { stimulus := { s with source }
        bus := b
        wait := .error (.exhausted s.issued s.cycles)
        events := [] }
    | (some word, source) =>
      let issued := s.issued + 1
      let full := s.fullOn issued
      let (next, wait) := nextCycle { s with source, issued }
      { stimulus := next
        bus := (b.write .word word).write .arbiterFull full
        wait := .ok wait
        events := [.presented now word full] }
  | .done => { stimulus := s, bus := b, wait := .ok .stop, events := [] }

def isDone (s : Stimulus σ) : Bool := s.phase == .done

end Stimulus

end IdentifyBench

import IdentifyBench.Bench
import IdentifyBench.Waveform

/-! A bench whose lines may be recorded as a waveform. The recording follows the bench and never
acts back on it: where it fails, the step that was simulated is reported as failed. -/
namespace IdentifyBench

structure Recording (σ κ : Type) where
  bench : Bench σ
  waveform : Option Waveform
  out : κ

namespace Recording

variable {σ κ : Type} [Sink κ]

def plain (bench : Bench σ) (out : κ) : Recording σ κ := ⟨bench, none, out⟩

def sample (r : Recording σ κ) : Recording σ κ × Option StorageFault :=
  match r.waveform with
  | none => (r, none)
  | some w =>
    let (w, out, fault) := w.sample r.bench.now r.bench.bus r.out
    ({ r with waveform := some w, out }, fault)

/-- Once the bench has stopped, the waveform is passed on in full. -/
def finish (r : Recording σ κ) : Recording σ κ × Option StorageFault :=
  match r.waveform with
  | some _ =>
    if r.bench.stopped then
      let (out, fault) := Sink.flush r.out
      ({ r with out }, fault)
    else (r, none)
  | none => (r, none)

variable [WordSource σ]

def step (r : Recording σ κ) : Turn (Recording σ κ) Outcome :=
  let turn := r.bench.step
  let simulated := { r with bench := turn.state }
  let failed (r : Recording σ κ) (fault : StorageFault) : Turn (Recording σ κ) Outcome :=
    ⟨r, turn.events, .error (.failure (.traceWrite r.bench.now fault))⟩
  if r.bench.stopped || !turn.result.isOk then ⟨simulated, turn.events, turn.result⟩
  else
    match simulated.sample with
    | (sampled, some fault) => failed sampled fault
    | (sampled, none) =>
      match sampled.finish with
      | (finished, some fault) => failed finished fault
      | (finished, none) => ⟨finished, turn.events, turn.result⟩

def steps : Nat → Recording σ κ → Array Event → Turn (Recording σ κ) Unit
  | 0, r, events => ⟨r, events.toList, .error .endless⟩
  | left + 1, r, events =>
    let turn := r.step
    let events := events ++ turn.events.toArray
    match turn.result with
    | .error halt => ⟨turn.state, events.toList, .error halt⟩
    | .ok (.advanced _) => steps left turn.state events
    | .ok (.stopped _) => ⟨turn.state, events.toList, .ok ()⟩

/-- A run takes two steps at an instant at most, and there are no more than 2 ^ 64 instants. -/
def maxSteps : Nat := 4 * UInt64.size

def run (r : Recording σ κ) : Turn (Recording σ κ) Tally :=
  let turn := steps maxSteps r #[.started r.bench.clock.period]
  turn.andThen fun r _ =>
    ⟨r, r.bench.tally.coverage.holes.map .uncovered ++ [.stopped r.bench.now], .ok r.bench.tally⟩

end Recording

namespace Recording

variable {σ κ : Type} [Files κ]

def openTrace (r : Recording σ κ) (path : String) : Turn (Recording σ κ) Unit :=
  match Files.openStream r.out path with
  | .error fault => .fail r (.traceOpen path fault)
  | .ok opened =>
    match Waveform.start opened with
    | (_, some fault) => .fail r (.traceOpen path fault)
    | (out, none) => .done { r with waveform := some .blank, out } [.tracing path]

end Recording

end IdentifyBench

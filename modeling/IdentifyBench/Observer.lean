import IdentifyBench.Event
import IdentifyBench.Storage

/-! The observer looks at the settled lines, tells about what it sees, and keeps it if asked to. -/
namespace IdentifyBench

structure Observer where
  log : Bool
  keep : Bool
  records : Array Observation

namespace Observer

def new (log keep : Bool) : Observer := ⟨log, keep, #[]⟩

def observe (o : Observer) (time : Instant) (b : Bus) :
    Observer × Option Observation × List Event :=
  match Observation.ofBus? time b with
  | none => (o, none, [.inconsistent time b.flags])
  | some observation =>
    (if o.keep then { o with records := o.records.push observation } else o,
      some observation,
      if o.log then [.observed observation] else [])

def writeLines {κ : Type} [Sink κ] (o : Observer) (out : κ) : κ × Option StorageFault :=
  match Sink.putAll out (o.records.toList.flatMap fun observation => [observation.json, "\n"]) with
  | (out, none) => Sink.flush out
  | (out, some fault) => (out, some fault)

def exportTo {κ : Type} [Files κ] (o : Observer) (files : κ) (path : String) :
    κ × Except Failure Nat :=
  match Files.openBeside files path with
  | .error fault => (files, .error (.eventsWrite path fault))
  | .ok opened =>
    match o.writeLines opened with
    | (written, none) => (Files.resume files written, .ok o.records.size)
    | (written, some fault) => (Files.resume files written, .error (.eventsWrite path fault))

end Observer

end IdentifyBench

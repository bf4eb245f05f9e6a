import IdentifyBench.Bus
import IdentifyBench.Digits
import IdentifyBench.Instant
import IdentifyBench.Sink

/-! Waveforms as value change dumps. The header declares every line with its width and a code of
one character. The first sample gives all levels, each later one only those that changed, under a
stamp of its time. -/
namespace IdentifyBench

structure Waveform where
  last : LineTable fun _ => Option Level
  time : Option Instant

namespace Waveform

def blank : Waveform := ⟨.ofFn fun _ => none, none⟩

def code (l : Line) : String := String.singleton (.ofNat (33 + l.index))

def header : List String :=
  ["$version identify-core 0.3.0 $end\n",
   "$timescale 1 ps $end\n",
   "$scope module top $end\n"] ++
  Line.all.map (fun l =>
    "$var wire " ++ toString l.width ++ " " ++ code l ++ " " ++ l.name ++ " $end\n") ++
  ["$upscope $end\n",
   "$enddefinitions $end\n"]

/-- A part of a sample: the line it is about, and its text in the pieces that are sent. -/
structure Entry where
  line : Option Line
  pieces : List String
  deriving DecidableEq, Repr

def stamp (t : Instant) : List String := ["#", toString t, "\n"]

def change (l : Line) : Level → List String
  | .bit high => [Digits.bit high, code l, "\n"]
  | .vector value => ["b", Digits.binary value.toNat, " ", code l, "\n"]

def levelOf (b : Bus) (l : Line) : Level := l.level (b.level l)

def changed (w : Waveform) (b : Bus) : List Line :=
  Line.all.filter fun l => w.last.get l != some (levelOf b l)

def entries (w : Waveform) (t : Instant) (b : Bus) : List Entry :=
  let changes := (w.changed b).map fun l => Entry.mk (some l) (change l (levelOf b l))
  match w.time with
  | none => ⟨none, stamp t ++ ["$dumpvars\n"]⟩ :: changes ++ [⟨none, ["$end\n"]⟩]
  | some last =>
    if last = t then changes
    else
      match changes with
      | [] => []
      | first :: rest => { first with pieces := stamp t ++ first.pieces } :: rest

variable {κ : Type} [Sink κ]

/-- Sends entries and stops at the first that fails. A level counts as said once its entry is
begun. -/
def emit (w : Waveform) (b : Bus) (out : κ) : List Entry → Waveform × κ × Option StorageFault
  | [] => (w, out, none)
  | e :: rest =>
    let w := match e.line with
      | none => w
      | some l => { w with last := w.last.set l (some (levelOf b l)) }
    match Sink.putAll out e.pieces with
    | (out, none) => emit w b out rest
    | (out, some fault) => (w, out, some fault)

def sample (w : Waveform) (t : Instant) (b : Bus) (out : κ) :
    Waveform × κ × Option StorageFault :=
  let parts := w.entries t b
  match w.emit b out parts with
  | (w, out, none) => ({ w with time := if parts.isEmpty then w.time else some t }, out, none)
  | (w, out, some fault) => (w, out, some fault)

def start (out : κ) : κ × Option StorageFault := Sink.putAll out header

end Waveform

end IdentifyBench

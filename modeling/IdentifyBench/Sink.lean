import IdentifyBench.Failure

/-! Places that text is sent to. A sink takes a piece of text or reports why not, and keeps what it
took of the piece either way. -/
namespace IdentifyBench

class Sink (κ : Type) where
  put : κ → String → κ × Option StorageFault
  /-- Passes on what the sink still holds back. -/
  flush : κ → κ × Option StorageFault

namespace Sink

variable {κ : Type} [Sink κ]

def putAll (out : κ) : List String → κ × Option StorageFault
  | [] => (out, none)
  | piece :: rest =>
    match put out piece with
    | (out, none) => putAll out rest
    | (out, some fault) => (out, some fault)

end Sink

/-- A text in memory that takes characters up to a limit. Every text sent to it is plain ASCII, so
that a character is a byte. -/
structure Memory where
  text : String
  limit : Option Nat
  deriving DecidableEq, Repr

namespace Memory

def empty (limit : Option Nat) : Memory := ⟨"", limit⟩

def full : StorageFault := .other "limit reached"

instance : Sink Memory where
  put m piece :=
    match m.limit with
    | none => ({ m with text := m.text ++ piece }, none)
    | some limit =>
      let room := limit - m.text.length
      if piece.length ≤ room then ({ m with text := m.text ++ piece }, none)
      else ({ m with text := m.text ++ String.ofList (piece.toList.take room) }, some full)
  flush m := (m, none)

end Memory

end IdentifyBench

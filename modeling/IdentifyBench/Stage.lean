import IdentifyBench.Identification.Rule

/-! The stage itself: outputs follow the inputs within the same instant. Reset overrides everything
and clears what is held; while the stage is disabled it keeps answering with what it holds. The
stall toward the fetch arbiter repeats the arbiter's own line outside reset. -/
namespace IdentifyBench

structure Control where
  reset : Bool
  enable : Bool
  arbiterFull : Bool
  deriving DecidableEq, Repr

structure StageInputs where
  word : Word
  control : Control
  deriving DecidableEq, Repr

/-- Enabled, out of reset, and no stall. -/
def StageInputs.running (word : Word) : StageInputs := ⟨word, ⟨false, true, false⟩⟩

structure StageOutputs where
  identified : Identification
  stall : Bool
  deriving DecidableEq, Repr

def StageOutputs.neutral : StageOutputs := ⟨.neutral, false⟩

structure Stage where
  held : Identification
  evaluations : Nat
  deriving DecidableEq, Repr

namespace Stage

def new : Stage := ⟨.neutral, 0⟩

def hold (s : Stage) (inputs : StageInputs) : Identification :=
  if inputs.control.reset then .neutral
  else if inputs.control.enable then identify inputs.word
  else s.held

def evaluate (s : Stage) (inputs : StageInputs) : Stage × StageOutputs :=
  let held := s.hold inputs
  ({ held, evaluations := s.evaluations + 1 },
   { identified := held, stall := !inputs.control.reset && inputs.control.arbiterFull })

def examined? (inputs : StageInputs) : Option Word :=
  if !inputs.control.reset && inputs.control.enable then some inputs.word else none

end Stage

end IdentifyBench

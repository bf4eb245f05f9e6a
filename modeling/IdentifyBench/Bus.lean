import IdentifyBench.Identification.Flags
import IdentifyBench.Line.Table
import IdentifyBench.Stage
import IdentifyBench.Wire

/-! All wires around the stage. Processes write to them; a commit makes every pending write visible
at once and tells which lines moved. -/
namespace IdentifyBench

abbrev Bus := LineTable fun l => Wire l.Value

namespace Bus

def idle : Bus := .ofFn fun l => .holding (Payload.low l.carriesWord)

def level (b : Bus) (l : Line) : l.Value := (b.get l).level

def write (b : Bus) (l : Line) (value : l.Value) : Bus := b.set l ((b.get l).write value)

def commit (b : Bus) : Bus × LineSet :=
  (b.map fun _ w => w.commit, .ofList (Line.all.filter fun l => (b.get l).moves))

def inputs (b : Bus) : StageInputs where
  word := b.word.level
  control := ⟨b.reset.level, b.enable.level, b.arbiterFull.level⟩

def flags (b : Bus) : Flags where
  branch := b.branch.level
  iForm := b.iForm.level
  bForm := b.bForm.level
  lr := b.targetLr.level
  ctr := b.targetCtr.level
  tar := b.targetTar.level
  condition := b.condition.level
  ops
    | .crand => b.crand.level
    | .crnand => b.crnand.level
    | .cror => b.cror.level
    | .crxor => b.crxor.level
    | .crnor => b.crnor.level
    | .creqv => b.creqv.level
    | .crandc => b.crandc.level
    | .crorc => b.crorc.level
    | .mcrf => b.mcrf.level
  prefixed := b.prefixed.level

/-- The committed outputs read as an identification; `none` where the stage never drives such
levels. -/
def identification? (b : Bus) : Option Identification :=
  b.flags.identification? b.opcodeOut.level b.wordOut.level

end Bus

/-- What the stage drives on a line; `none` on lines that are not its own. -/
def StageOutputs.on (o : StageOutputs) : (l : Line) → Option l.Value
  | .clock => none
  | .reset => none
  | .enable => none
  | .word => none
  | .arbiterFull => none
  | .opcodeOut => some o.identified.opcode
  | .wordOut => some o.identified.word
  | .branch => some o.identified.flags.branch
  | .iForm => some o.identified.flags.iForm
  | .bForm => some o.identified.flags.bForm
  | .targetLr => some o.identified.flags.lr
  | .targetCtr => some o.identified.flags.ctr
  | .targetTar => some o.identified.flags.tar
  | .stall => some o.stall
  | .condition => some o.identified.flags.condition
  | .crand => some (o.identified.flags.ops .crand)
  | .crnand => some (o.identified.flags.ops .crnand)
  | .cror => some (o.identified.flags.ops .cror)
  | .crxor => some (o.identified.flags.ops .crxor)
  | .crnor => some (o.identified.flags.ops .crnor)
  | .creqv => some (o.identified.flags.ops .creqv)
  | .crandc => some (o.identified.flags.ops .crandc)
  | .crorc => some (o.identified.flags.ops .crorc)
  | .mcrf => some (o.identified.flags.ops .mcrf)
  | .prefixed => some o.identified.flags.prefixed

def Bus.drive (b : Bus) (o : StageOutputs) : Bus :=
  b.map fun l w => match o.on l with
    | some value => w.write value
    | none => w

end IdentifyBench

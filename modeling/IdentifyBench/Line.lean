import IdentifyBench.Identification

/-! The lines around the stage, in the order of the trace: the clock, the stage's inputs, and the
stage's outputs. Three of them carry a word, the others one bit. -/
namespace IdentifyBench

/-- The level of a line, whatever its width. -/
inductive Level
  | bit (high : Bool)
  | vector (value : Word)
  deriving DecidableEq, Repr

@[reducible] def Payload (isWord : Bool) : Type :=
  match isWord with
  | true => Word
  | false => Bool

namespace Payload

instance : (isWord : Bool) → DecidableEq (Payload isWord)
  | true => inferInstanceAs (DecidableEq Word)
  | false => inferInstanceAs (DecidableEq Bool)

def low : (isWord : Bool) → Payload isWord
  | true => (0 : Word)
  | false => false

def level : {isWord : Bool} → Payload isWord → Level
  | true, value => .vector value
  | false, high => .bit high

def ofLevel? : {isWord : Bool} → Level → Option (Payload isWord)
  | true, .vector value => some value
  | false, .bit high => some high
  | _, _ => none

end Payload

inductive Line
  | clock
  | reset
  | enable
  | word
  | arbiterFull
  | opcodeOut
  | wordOut
  | branch
  | iForm
  | bForm
  | targetLr
  | targetCtr
  | targetTar
  | stall
  | condition
  | crand
  | crnand
  | cror
  | crxor
  | crnor
  | creqv
  | crandc
  | crorc
  | mcrf
  | prefixed
  deriving DecidableEq, Repr

namespace Line

def all : List Line :=
  [clock, reset, enable, word, arbiterFull, opcodeOut, wordOut, branch, iForm, bForm, targetLr,
   targetCtr, targetTar, stall, condition, crand, crnand, cror, crxor, crnor, creqv, crandc, crorc,
   mcrf, prefixed]

theorem mem_all (l : Line) : l ∈ all := by cases l <;> decide

def index (l : Line) : Fin 25 := ⟨l.ctorIdx, by cases l <;> decide⟩

def name : Line → String
  | clock => "i_clk"
  | reset => "i_rst"
  | enable => "i_en"
  | word => "i_instr"
  | arbiterFull => "i_arb_full_mask"
  | opcodeOut => "o_instr_prefix"
  | wordOut => "o_instr_suffix"
  | branch => "o_branch_identified"
  | iForm => "o_branch_i_form"
  | bForm => "o_branch_b_form"
  | targetLr => "o_branch_cond_lr"
  | targetCtr => "o_branch_cond_ctr"
  | targetTar => "o_branch_cond_tar"
  | stall => "o_stall_fetch_arb"
  | condition => "o_condreg_identified"
  | crand => "o_condreg_crand"
  | crnand => "o_condreg_crnand"
  | cror => "o_condreg_cror"
  | crxor => "o_condreg_crxor"
  | crnor => "o_condreg_crnor"
  | creqv => "o_condreg_creqv"
  | crandc => "o_condreg_crandc"
  | crorc => "o_condreg_crorc"
  | mcrf => "o_condreg_mcrf"
  | prefixed => "dbg_is_prefixed"

def ofName? (text : String) : Option Line := all.find? (·.name == text)

def carriesWord : Line → Bool
  | word | opcodeOut | wordOut => true
  | _ => false

def width (l : Line) : Nat := if l.carriesWord then 32 else 1

@[reducible] def Value (l : Line) : Type := Payload l.carriesWord

def ofOp : ConditionOp → Line
  | .crand => crand
  | .crnand => crnand
  | .cror => cror
  | .crxor => crxor
  | .crnor => crnor
  | .creqv => creqv
  | .crandc => crandc
  | .crorc => crorc
  | .mcrf => mcrf

end Line

def Line.level (l : Line) (value : l.Value) : Level := Payload.level value

/-- A level read back as a value of the line, if the line is of that width. -/
def Line.value? (l : Line) (level : Level) : Option l.Value := Payload.ofLevel? level

end IdentifyBench

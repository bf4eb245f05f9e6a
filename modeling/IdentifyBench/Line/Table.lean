import IdentifyBench.Line

/-! A value for every line. The entry of a line may depend on what the line carries. -/
namespace IdentifyBench

structure LineTable (β : Line → Type) where
  clock : β .clock
  reset : β .reset
  enable : β .enable
  word : β .word
  arbiterFull : β .arbiterFull
  opcodeOut : β .opcodeOut
  wordOut : β .wordOut
  branch : β .branch
  iForm : β .iForm
  bForm : β .bForm
  targetLr : β .targetLr
  targetCtr : β .targetCtr
  targetTar : β .targetTar
  stall : β .stall
  condition : β .condition
  crand : β .crand
  crnand : β .crnand
  cror : β .cror
  crxor : β .crxor
  crnor : β .crnor
  creqv : β .creqv
  crandc : β .crandc
  crorc : β .crorc
  mcrf : β .mcrf
  prefixed : β .prefixed

namespace LineTable

variable {β γ : Line → Type}

def get (t : LineTable β) : (l : Line) → β l
  | .clock => t.clock
  | .reset => t.reset
  | .enable => t.enable
  | .word => t.word
  | .arbiterFull => t.arbiterFull
  | .opcodeOut => t.opcodeOut
  | .wordOut => t.wordOut
  | .branch => t.branch
  | .iForm => t.iForm
  | .bForm => t.bForm
  | .targetLr => t.targetLr
  | .targetCtr => t.targetCtr
  | .targetTar => t.targetTar
  | .stall => t.stall
  | .condition => t.condition
  | .crand => t.crand
  | .crnand => t.crnand
  | .cror => t.cror
  | .crxor => t.crxor
  | .crnor => t.crnor
  | .creqv => t.creqv
  | .crandc => t.crandc
  | .crorc => t.crorc
  | .mcrf => t.mcrf
  | .prefixed => t.prefixed

def ofFn (f : (l : Line) → β l) : LineTable β where
  clock := f .clock
  reset := f .reset
  enable := f .enable
  word := f .word
  arbiterFull := f .arbiterFull
  opcodeOut := f .opcodeOut
  wordOut := f .wordOut
  branch := f .branch
  iForm := f .iForm
  bForm := f .bForm
  targetLr := f .targetLr
  targetCtr := f .targetCtr
  targetTar := f .targetTar
  stall := f .stall
  condition := f .condition
  crand := f .crand
  crnand := f .crnand
  cror := f .cror
  crxor := f .crxor
  crnor := f .crnor
  creqv := f .creqv
  crandc := f .crandc
  crorc := f .crorc
  mcrf := f .mcrf
  prefixed := f .prefixed

def map (f : (l : Line) → β l → γ l) (t : LineTable β) : LineTable γ :=
  ofFn fun l => f l (t.get l)

def set (t : LineTable β) (l : Line) (x : β l) : LineTable β :=
  ofFn fun k => if same : l = k then same ▸ x else t.get k

@[simp] theorem get_ofFn (f : (l : Line) → β l) (l : Line) : (ofFn f).get l = f l := by
  cases l <;> rfl

@[simp] theorem get_map (f : (l : Line) → β l → γ l) (t : LineTable β) (l : Line) :
    (t.map f).get l = f l (t.get l) := get_ofFn _ _

@[simp] theorem get_set_self (t : LineTable β) (l : Line) (x : β l) : (t.set l x).get l = x := by
  simp [set]

theorem get_set_of_ne (t : LineTable β) {l k : Line} (x : β l) (h : l ≠ k) :
    (t.set l x).get k = t.get k := by
  simp [set, h]

theorem ofFn_get (t : LineTable β) : ofFn t.get = t := rfl

theorem ext_get {t u : LineTable β} (same : ∀ l, t.get l = u.get l) : t = u := by
  rw [← ofFn_get t, ← ofFn_get u, funext same]

end LineTable

end IdentifyBench

import IdentifyBench.Proofs.Reading
import IdentifyBench.Waveform
import Mathlib.Data.List.Induction

/-! The lines under any sequence of writes and commits. What is pending on a line is the last value that
was written to it since the last commit, and nothing else is remembered of the sequence. A commit brings
just that to the line, tells which levels it has changed, and until then none of the views of the lines
shows a write. -/
namespace IdentifyBench

theorem Payload.level_isBit_iff :
    {isWord : Bool} → (value : Payload isWord) → ((∃ high, value.level = .bit high) ↔ isWord = false)
  | true, _ => ⟨nofun, nofun⟩
  | false, value => ⟨fun _ => rfl, fun _ => ⟨value, rfl⟩⟩

theorem Payload.ofLevel?_eq_some_iff : {isWord : Bool} → {level : Level} → {value : Payload isWord} →
    (Payload.ofLevel? level = some value ↔ level = value.level)
  | true, .vector _, _ => by simp [ofLevel?, Payload.level]
  | false, .bit _, _ => by simp [ofLevel?, Payload.level]
  | true, .bit _, _ => ⟨nofun, nofun⟩
  | false, .vector _, _ => ⟨nofun, nofun⟩

namespace Line

theorem level_isBit_iff (l : Line) (value : l.Value) :
    (∃ high, l.level value = .bit high) ↔ l.width = 1 := by
  have narrow : l.width = 1 ↔ l.carriesWord = false := by
    unfold width
    cases l.carriesWord <;> decide
  exact (Payload.level_isBit_iff value).trans narrow.symm

/-- A level is a value of a line just if it has the line's width, and then it is the level of that value. -/
theorem value?_eq_some_iff {l : Line} {level : Level} {value : l.Value} :
    l.value? level = some value ↔ level = l.level value := Payload.ofLevel?_eq_some_iff

theorem level_injective {l : Line} {value value' : l.Value} (same : l.level value = l.level value') :
    value = value' := by
  have read : l.value? (l.level value) = some value' := value?_eq_some_iff.mpr same
  rw [value?_eq_some_iff.mpr rfl] at read
  exact Option.some.inj read

end Line

namespace Bus

inductive Action
  | write (l : Line) (value : l.Value)
  | drive (o : StageOutputs)
  | commit

def act (b : Bus) : Action → Bus
  | .write l value => b.write l value
  | .drive o => b.drive o
  | .commit => b.commit.1

namespace Action

def commits : Action → Bool
  | commit => true
  | _ => false

def value? (l : Line) : Action → Option l.Value
  | write k value => if same : k = l then some (same ▸ value) else none
  | drive o => o.on l
  | commit => none

theorem commits_of_ne {a : Action} (other : a ≠ commit) : a.commits = false := by
  cases a with
  | commit => exact absurd rfl other
  | _ => rfl

end Action

/-- The last value written to a line after the last of the commits, if there is one. -/
def lastWritten (actions : List Action) (l : Line) : Option l.Value :=
  (actions.reverse.takeWhile (!·.commits)).findSome? (Action.value? l)

theorem lastWritten_append_commit (actions : List Action) (l : Line) :
    lastWritten (actions ++ [.commit]) l = none := by
  simp [lastWritten, Action.commits]

theorem lastWritten_append {a : Action} (writes : a.commits = false) (actions : List Action) (l : Line) :
    lastWritten (actions ++ [a]) l = (a.value? l).or (lastWritten actions l) := by
  simp only [lastWritten, List.reverse_append, List.reverse_singleton, List.singleton_append,
    List.takeWhile_cons, writes, Bool.not_false, if_true, List.findSome?_cons]
  cases a.value? l <;> rfl

theorem level_act {a : Action} (writes : a.commits = false) (b : Bus) (l : Line) :
    (b.act a).level l = b.level l := by
  cases a with
  | write k value => exact level_write b k l value
  | drive o => exact level_drive b o l
  | commit => cases writes

theorem pending_act {a : Action} (writes : a.commits = false) (b : Bus) (l : Line) :
    ((b.act a).get l).pending = (a.value? l).or (b.get l).pending := by
  cases a with
  | write k value =>
    rw [act, Action.value?]
    by_cases same : k = l
    · subst same
      rw [get_write_self, dif_pos rfl]
      rfl
    · rw [get_write_of_ne b value same, dif_neg same]
      rfl
  | drive o =>
    rw [act, Action.value?, drive, LineTable.get_map]
    cases o.on l <;> rfl
  | commit => cases writes

/-- The bus remembers nothing of its writes but the last one on each line. -/
theorem pending_actions (actions : List Action) (l : Line) :
    ((actions.foldl act idle).get l).pending = lastWritten actions l := by
  -- The last action decides first, as in the search back.
  induction actions using List.reverseRecOn with
  | nil => rw [List.foldl_nil, idle, LineTable.get_ofFn]; rfl
  | append_singleton actions a ih =>
    rw [List.foldl_append, List.foldl_cons, List.foldl_nil]
    cases writes : a.commits with
    | true =>
      obtain rfl : a = .commit := by
        cases a with
        | commit => rfl
        | _ => cases writes
      rw [lastWritten_append_commit]
      exact commit_quiet _ l
    | false => rw [pending_act writes, lastWritten_append writes, ih]

/-- The level that each view of the lines gives for one of them: the snapshot of the inputs, the flags and
the slices of the word. -/
def viewed (b : Bus) : Line → Level
  | .clock => .bit b.clock.level
  | .reset => .bit b.inputs.control.reset
  | .enable => .bit b.inputs.control.enable
  | .word => .vector b.inputs.word
  | .arbiterFull => .bit b.inputs.control.arbiterFull
  | .opcodeOut => .vector b.opcodeOut.level
  | .wordOut => .vector b.wordOut.level
  | .branch => .bit b.flags.branch
  | .iForm => .bit b.flags.iForm
  | .bForm => .bit b.flags.bForm
  | .targetLr => .bit b.flags.lr
  | .targetCtr => .bit b.flags.ctr
  | .targetTar => .bit b.flags.tar
  | .stall => .bit b.stall.level
  | .condition => .bit b.flags.condition
  | .crand => .bit (b.flags.ops .crand)
  | .crnand => .bit (b.flags.ops .crnand)
  | .cror => .bit (b.flags.ops .cror)
  | .crxor => .bit (b.flags.ops .crxor)
  | .crnor => .bit (b.flags.ops .crnor)
  | .creqv => .bit (b.flags.ops .creqv)
  | .crandc => .bit (b.flags.ops .crandc)
  | .crorc => .bit (b.flags.ops .crorc)
  | .mcrf => .bit (b.flags.ops .mcrf)
  | .prefixed => .bit b.flags.prefixed

theorem viewed_eq (b : Bus) (l : Line) : b.viewed l = Waveform.levelOf b l := by
  cases l <;> rfl

theorem flags_eq_of_levels {b d : Bus} (same : ∀ l, d.level l = b.level l) : d.flags = b.flags := by
  have branch : d.branch.level = b.branch.level := same .branch
  have iForm : d.iForm.level = b.iForm.level := same .iForm
  have bForm : d.bForm.level = b.bForm.level := same .bForm
  have lr : d.targetLr.level = b.targetLr.level := same .targetLr
  have ctr : d.targetCtr.level = b.targetCtr.level := same .targetCtr
  have tar : d.targetTar.level = b.targetTar.level := same .targetTar
  have condition : d.condition.level = b.condition.level := same .condition
  have prefixed : d.prefixed.level = b.prefixed.level := same .prefixed
  have ops : d.flags.ops = b.flags.ops := by
    funext op
    have shown := same (.ofOp op)
    cases op <;> exact shown
  unfold flags at ops ⊢
  rw [branch, iForm, bForm, lr, ctr, tar, condition, prefixed]
  exact congrArg (fun ops => { b.flags with ops }) ops

theorem identification?_eq_of_levels {b d : Bus} (same : ∀ l, d.level l = b.level l) :
    d.identification? = b.identification? := by
  have opcode : d.opcodeOut.level = b.opcodeOut.level := same .opcodeOut
  have word : d.wordOut.level = b.wordOut.level := same .wordOut
  rw [identification?, identification?, flags_eq_of_levels same, opcode, word]

theorem level_actions {more : List Action} (uncommitted : .commit ∉ more) (b : Bus) (l : Line) :
    (more.foldl act b).level l = b.level l := by
  induction more generalizing b with
  | nil => rfl
  | cons a rest ih =>
    rw [List.mem_cons, not_or] at uncommitted
    obtain ⟨other, uncommitted⟩ := uncommitted
    rw [List.foldl_cons, ih uncommitted, level_act (Action.commits_of_ne (Ne.symm other))]

theorem next_eq (b : Bus) (l : Line) : b.next l = (b.get l).pending.getD (b.level l) := rfl

theorem Quiet.moved_eq {b : Bus} (quiet : b.Quiet) : b.commit.2 = .empty := by
  have still : b.commit.2.isEmpty = true := (LineSet.isEmpty_iff _).mpr quiet.not_mem_moved
  exact congrArg LineSet.mk (beq_iff_eq.mp still)

def commitLine (committed : Bus × LineSet) (l : Line) : Bus × LineSet :=
  let (w, moved) := (committed.1.get l).commitInto l committed.2
  (committed.1.set l w, moved)

theorem get_foldl_commitLine (lines : List Line) (b : Bus) (moved : LineSet) (k : Line) :
    (lines.foldl commitLine (b, moved)).1.get k = if k ∈ lines then (b.get k).commit else b.get k := by
  induction lines generalizing b moved with
  | nil => rfl
  | cons l rest ih =>
    have again : (b.get l).commit.commit = (b.get l).commit := Wire.commit_of_pending_none rfl
    rw [List.foldl_cons, commitLine, ih]
    by_cases same : l = k
    · subst same
      rw [LineTable.get_set_self, Wire.commitInto, again, ite_self, if_pos List.mem_cons_self]
    · rw [LineTable.get_set_of_ne _ _ same]
      simp [Ne.symm same]

theorem moved_foldl_commitLine {lines : List Line} (distinct : lines.Nodup) (b : Bus) (moved : LineSet) :
    (lines.foldl commitLine (b, moved)).2 =
      (lines.filter fun l => (b.get l).moves).foldl LineSet.insert moved := by
  induction lines generalizing b moved with
  | nil => rfl
  | cons l rest ih =>
    obtain ⟨new, distinct⟩ := List.nodup_cons.mp distinct
    have others (w : Wire l.Value) : rest.filter (fun k => ((b.set l w).get k).moves) =
        rest.filter fun k => (b.get k).moves := by
      apply List.filter_congr
      intro k inside
      have other : l ≠ k := fun same => new (same ▸ inside)
      rw [LineTable.get_set_of_ne _ _ other]
    rw [List.foldl_cons, commitLine, ih distinct, others, List.filter_cons, Wire.commitInto]
    split <;> rfl

/-- A commit takes the wires one by one, in the order of the trace. -/
theorem commit_eq_foldl (b : Bus) : b.commit = Line.all.foldl commitLine (b, .empty) := by
  apply Prod.ext
  · apply LineTable.ext_get
    intro l
    rw [get_commit, get_foldl_commitLine, if_pos l.mem_all]
  · rw [moved_foldl_commitLine (by decide)]
    rfl

theorem inputs_drive_commit (b : Bus) (o : StageOutputs) :
    (b.drive o).commit.1.inputs = b.commit.1.inputs := by
  apply inputs_eq_of_levels
  intro l input
  have undriven := (o.on_eq_none_iff l).mpr input
  rw [level_commit, level_commit, next, next, get_drive_of_input b o undriven]

/-- A commit does what the writes before it say, and tells what it has done. After any sequence of writes
and commits, a commit gives each line the last value that was written to it since the commit before, or
leaves it as it is; it names just the lines whose level differs from before; and one more commit finds
nothing to do. Until the commit a write is in none of the views. Each line has a wire of its own, which all
views agree on: a write to one line shows on that line alone, and what shows there is a bit unless the line
carries a word. To drive outputs is to write each of them to its own line. -/
theorem commit_reports_moves (actions : List Action) :
    let b := actions.foldl act idle
    (∀ l, b.commit.1.level l = (lastWritten actions l).getD (b.level l)) ∧
    (∀ l, l ∈ b.commit.2 ↔ Waveform.levelOf b.commit.1 l ≠ Waveform.levelOf b l) ∧
    b.commit.1.commit = (b.commit.1, .empty) ∧
    (∀ more : List Action, .commit ∉ more →
      let d := (actions ++ more).foldl act idle
      (∀ l, Waveform.levelOf d l = Waveform.levelOf b l) ∧ d.inputs = b.inputs ∧ d.flags = b.flags ∧
        d.identification? = b.identification?) ∧
    (∀ l, b.viewed l = Waveform.levelOf b l ∧
      ((∃ high, Waveform.levelOf b l = .bit high) ↔ l.width = 1)) ∧
    (∀ k value l, Waveform.levelOf (b.write k value).commit.1 l =
      if k = l then k.level value else Waveform.levelOf b.commit.1 l) ∧
    ∀ o, let d := (b.drive o).commit.1
      d.inputs = b.commit.1.inputs ∧ d.flags = o.identified.flags ∧
        d.level .opcodeOut = o.identified.opcode ∧ d.level .wordOut = o.identified.word ∧
        d.level .stall = o.stall := by
  intro b
  refine ⟨fun l => ?_, fun l => ?_, ?_, ?_, fun l => ⟨viewed_eq b l, l.level_isBit_iff _⟩,
    fun k value l => ?_, ?_⟩
  · rw [level_commit, next_eq, pending_actions]
  · rw [mem_moved, Waveform.levelOf, Waveform.levelOf, level_commit]
    exact not_congr ⟨congrArg l.level, Line.level_injective⟩
  · exact Prod.ext b.commit_quiet.commit_eq b.commit_quiet.moved_eq
  · intro more uncommitted d
    have levels (l : Line) : d.level l = b.level l := by
      rw [show d = more.foldl act b from List.foldl_append]
      exact level_actions uncommitted b l
    exact ⟨fun l => congrArg l.level (levels l), inputs_eq_of_levels fun l _ => levels l,
      flags_eq_of_levels levels, identification?_eq_of_levels levels⟩
  · rw [Waveform.levelOf, Waveform.levelOf, level_commit, level_commit]
    by_cases same : k = l
    · subst same
      rw [if_pos rfl, next, get_write_self, Wire.next_write]
    · rw [if_neg same, next, get_write_of_ne b value same, next]
  · intro o d
    have tells : d.Tells o := (promises_drive b o).commit.tells
    exact ⟨inputs_drive_commit b o, tells.flags, tells.opcode, tells.word, tells.stall⟩

/-- The word is written back before the commit, so that it does not move. -/
theorem moves_of_rewritten_word :
    ∃ actions : List Action, actions = [.write .word (5 : Word), .commit, .write .word (7 : Word),
        .write .reset true, .write .word (5 : Word)] ∧
      let b := actions.foldl act idle
      b.commit.1.level .word = (5 : Word) ∧ .word ∉ b.commit.2 ∧ .reset ∈ b.commit.2 ∧
      b.commit.1.commit = (b.commit.1, .empty) ∧ b.inputs = ⟨5, ⟨false, false, false⟩⟩ ∧
      (b.write .crand true).flags = b.flags ∧
      Waveform.levelOf (b.write .crand true).commit.1 .crand = .bit true := by
  obtain ⟨actions, same⟩ : ∃ actions : List Action, actions = [.write .word (5 : Word), .commit,
      .write .word (7 : Word), .write .reset true, .write .word (5 : Word)] := ⟨_, rfl⟩
  obtain ⟨last, moved, again, unseen, _, alone, _⟩ := commit_reports_moves actions
  have kept := unseen [.write .crand true] (by simp)
  rw [List.foldl_append] at kept
  refine ⟨actions, same, ?_, ?_, ?_, again, ?_, kept.2.2.1, alone .crand true .crand⟩
  · rw [last, same]
    rfl
  · rw [moved, same]
    decide
  · rw [moved, same]
    decide
  · rw [same]
    decide

end Bus

end IdentifyBench

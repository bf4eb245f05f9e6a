import IdentifyBench.Proofs.Capacity
import IdentifyBench.Proofs.Exporting

/-! Views as lines of JSON. Every value in a line ends where a comma or a brace follows, so that the text tells
which views were written, and a newline stands at the end of a line and nowhere else. -/
namespace IdentifyBench

namespace Observation

/-! ### Where a value ends -/

def Visible (text : String) : Prop := ∀ c ∈ text.toList, '!' ≤ c ∧ c ≤ '~'

theorem Visible.append {first second : String} (before : Visible first) (after : Visible second) :
    Visible (first ++ second) := by
  intro c inside
  rw [String.toList_append, List.mem_append] at inside
  exact inside.elim (before c) (after c)

theorem visible_intercalate {members : List String} (each : ∀ m ∈ members, Visible m) :
    Visible (",".intercalate members) := by
  induction members with
  | nil => simp [Visible]
  | cons m rest ih =>
    have others := ih fun n inside => each n (List.mem_cons_of_mem m inside)
    have comma : Visible "," := by simp [Visible]
    cases rest with
    | nil => simpa using each
    | cons n rest =>
      rw [String.intercalate_cons_cons]
      exact ((each m List.mem_cons_self).append comma).append others

/-- Values as texts that are visible, and that end where a comma or a brace follows. -/
structure Legible {α : Type} (text : α → String) : Prop where
  visible : ∀ x, Visible (text x)
  ends : ∀ c ∈ [',', '}'], ∀ x y rest rest',
    (text x).toList ++ c :: rest = (text y).toList ++ c :: rest' → text x = text y ∧ rest = rest'

def Bare (text : String) : Prop := Visible text ∧ ∀ c ∈ [',', '}'], c ∉ text.toList

section

variable {α : Type} {text : α → String} {texts : List (α → String)}

theorem legible_of_bare (bare : ∀ x, Bare (text x)) : Legible text where
  visible x := (bare x).1
  ends := by
    intro c ends x y rest rest' same
    have before (z : α) (tail : List Char) :
        ((text z).toList ++ c :: tail).takeWhile (· != c) = (text z).toList := by
      have inside : ∀ d ∈ (text z).toList, (d != c) = true := by
        intro d inside
        rw [bne_iff_ne]
        rintro rfl
        exact (bare z).2 d ends inside
      rw [List.takeWhile_append_of_pos inside, List.takeWhile_cons_of_neg (by simp), List.append_nil]
    have texts : (text x).toList = (text y).toList := by rw [← before x rest, same, before]
    rw [texts] at same
    exact ⟨String.toList_injective texts, (List.cons.inj (List.append_cancel_left same)).2⟩

theorem Legible.comp (legible : Legible text) {β : Type} (f : β → α) : Legible fun x => text (f x) where
  visible x := legible.visible (f x)
  ends c ends x y := legible.ends c ends (f x) (f y)

theorem Legible.member (legible : Legible text) {name : String} (named : Visible name) :
    Legible fun x => member name (text x) where
  visible x := by
    have quote : Visible "\"" := by simp [Visible]
    have colon : Visible "\":" := by simp [Visible]
    exact ((quote.append named).append colon).append (legible.visible x)
  ends := by
    intro c ends x y rest rest' same
    simp only [Observation.member, String.toList_append, List.append_assoc] at same
    have values := List.append_cancel_left (List.append_cancel_left (List.append_cancel_left same))
    obtain ⟨texts, rests⟩ := legible.ends c ends x y rest rest' values
    exact ⟨congrArg (Observation.member name) texts, rests⟩

theorem members_append_inj (each : ∀ t ∈ texts, Legible t) {x y : α} {rest rest' : List Char}
    (same : (",".intercalate (texts.map (· x))).toList ++ '}' :: rest =
      (",".intercalate (texts.map (· y))).toList ++ '}' :: rest') :
    (∀ t ∈ texts, t x = t y) ∧ rest = rest' := by
  induction texts with
  | nil => simpa using same
  | cons t others ih =>
    have first := each t List.mem_cons_self
    cases others with
    | nil =>
      simp only [List.map_cons, List.map_nil, String.intercalate_singleton] at same
      obtain ⟨texts, rests⟩ := first.ends '}' (by simp) x y rest rest' same
      exact ⟨List.forall_mem_singleton.mpr texts, rests⟩
    | cons u others =>
      simp only [List.map_cons, String.intercalate_cons_cons, String.toList_append,
        List.append_assoc] at same
      obtain ⟨texts, later⟩ := first.ends ',' (by simp) x y _ _ same
      obtain ⟨more, rests⟩ := ih (fun v inside => each v (List.mem_cons_of_mem t inside)) later
      exact ⟨List.forall_mem_cons.mpr ⟨texts, more⟩, rests⟩

theorem object_append_inj (each : ∀ t ∈ texts, Legible t) {x y : α} {rest rest' : List Char}
    (same : (object (texts.map (· x))).toList ++ rest = (object (texts.map (· y))).toList ++ rest') :
    (∀ t ∈ texts, t x = t y) ∧ rest = rest' := by
  simp only [object, String.toList_append, List.append_assoc] at same
  exact members_append_inj each (List.append_cancel_left same)

theorem legible_object (each : ∀ t ∈ texts, Legible t) :
    Legible fun x => object (texts.map (· x)) where
  visible x := by
    have opening : Visible "\x7b" := by simp [Visible]
    have closing : Visible "\x7d" := by simp [Visible]
    refine (opening.append (visible_intercalate ?_)).append closing
    intro m listed
    obtain ⟨t, inside, rfl⟩ := List.mem_map.mp listed
    exact (each t inside).visible x
  ends := by
    intro c _ x y rest rest' same
    obtain ⟨values, rests⟩ := object_append_inj each same
    exact ⟨congrArg object (List.map_congr_left values), (List.cons.inj rests).2⟩

theorem object_inj (each : ∀ t ∈ texts, Legible t) {x y : α}
    (same : object (texts.map (· x)) = object (texts.map (· y))) : ∀ t ∈ texts, t x = t y := by
  have whole : (object (texts.map (· x))).toList ++ [] = (object (texts.map (· y))).toList ++ [] :=
    congrArg (·.toList ++ []) same
  exact (object_append_inj each whole).1

end

/-! ### Scalars -/

theorem bare_toString (n : Nat) : Bare (toString n) := by
  have digit {c : Char} (inside : c ∈ (toString n).toList) : c.isDigit = true :=
    Nat.isDigit_of_mem_toDigits (by decide) (by decide) (Nat.toList_repr ▸ inside)
  constructor
  · intro c inside
    have bounds := digit inside
    rw [Char.isDigit, Bool.and_eq_true, decide_eq_true_eq, decide_eq_true_eq] at bounds
    exact ⟨UInt32.le_trans (by decide) bounds.1, UInt32.le_trans bounds.2 (by decide)⟩
  · intro c ends inside
    have wrong := digit inside
    simp only [List.mem_cons, List.not_mem_nil, or_false] at ends
    rcases ends with rfl | rfl <;> cases wrong

theorem bare_boolean (b : Bool) : Bare (Digits.boolean b) := by
  cases b <;> simp [Bare, Visible, Digits.boolean]

theorem bare_form (form : Option BranchForm) : Bare (quoted (BranchForm.tag form)) := by
  rcases form with _ | _ | _ <;> simp [Bare, Visible, quoted, BranchForm.tag]

theorem bare_target (target : Option TargetRegister) :
    Bare (quoted (TargetRegister.tag target)) := by
  rcases target with _ | _ | _ | _ <;> simp [Bare, Visible, quoted, TargetRegister.tag]

theorem bare_op (op : Option ConditionOp) : Bare (quoted (ConditionOp.tag op)) := by
  rcases op with _ | op
  · simp [Bare, Visible, quoted, ConditionOp.tag]
  · cases op <;> simp [Bare, Visible, quoted, ConditionOp.tag]

@[simp] theorem member_inj {name value value' : String} :
    member name value = member name value' ↔ value = value' := by
  simp [member]

@[simp] theorem quoted_inj {text text' : String} : quoted text = quoted text' ↔ text = text' := by
  simp [quoted]

@[simp] theorem number_inj {v w : Word} : number v = number w ↔ v = w := by
  simp [number, BitVec.toNat_inj]

@[simp] theorem boolean_inj {a b : Bool} : Digits.boolean a = Digits.boolean b ↔ a = b := by
  cases a <;> cases b <;> simp [Digits.boolean]

@[simp] theorem form_inj {f g : Option BranchForm} :
    BranchForm.tag f = BranchForm.tag g ↔ f = g := by
  rcases f with _ | _ | _ <;> rcases g with _ | _ | _ <;> simp [BranchForm.tag]

@[simp] theorem target_inj {s t : Option TargetRegister} :
    TargetRegister.tag s = TargetRegister.tag t ↔ s = t := by
  rcases s with _ | _ | _ | _ <;> rcases t with _ | _ | _ | _ <;> simp [TargetRegister.tag]

@[simp] theorem op_inj {p q : Option ConditionOp} :
    ConditionOp.tag p = ConditionOp.tag q ↔ p = q := by
  rcases p with _ | p <;> rcases q with _ | q
  · simp
  · cases q <;> simp [ConditionOp.tag]
  · cases p <;> simp [ConditionOp.tag]
  · cases p <;> cases q <;> simp [ConditionOp.tag]

theorem legible_number : Legible number := legible_of_bare fun w => bare_toString w.toNat

/-! ### Lines -/

def controlMembers : List (Control → String) :=
  [fun c => member "reset" (Digits.boolean c.reset),
   fun c => member "enable" (Digits.boolean c.enable),
   fun c => member "arbiter_full" (Digits.boolean c.arbiterFull)]

def identificationMembers : List (Identification → String) :=
  [fun d => member "branch_identified" (Digits.boolean d.branch),
   fun d => member "branch_form" (quoted (BranchForm.tag d.form)),
   fun d => member "branch_condition" (quoted (TargetRegister.tag d.target)),
   fun d => member "condreg_identified" (Digits.boolean d.condition),
   fun d => member "condreg_op" (quoted (ConditionOp.tag d.op)),
   fun d => member "prefixed" (Digits.boolean d.prefixed),
   fun d => member "instr_prefix" (number d.opcode),
   fun d => member "instr_suffix" (number d.word)]

def members : List (Observation → String) :=
  [fun o => member "time" (toString o.time),
   fun o => member "word" (number o.word),
   fun o => member "control" (object (controlMembers.map (· o.control))),
   fun o => member "decode" (object (identificationMembers.map (· o.identified))),
   fun o => member "stall_fetch" (Digits.boolean o.stall)]

theorem json_eq_object (o : Observation) : o.json = object (members.map (· o)) := rfl

theorem legible_control : ∀ t ∈ controlMembers, Legible t := by
  have flag := legible_of_bare bare_boolean
  simp only [controlMembers, List.forall_mem_cons]
  refine ⟨(flag.comp Control.reset).member ?_, (flag.comp Control.enable).member ?_,
    (flag.comp Control.arbiterFull).member ?_, List.forall_mem_nil _⟩ <;> simp [Visible]

theorem legible_identification : ∀ t ∈ identificationMembers, Legible t := by
  have flag := legible_of_bare bare_boolean
  simp only [identificationMembers, List.forall_mem_cons]
  refine ⟨(flag.comp Identification.branch).member ?_,
    ((legible_of_bare bare_form).comp Identification.form).member ?_,
    ((legible_of_bare bare_target).comp Identification.target).member ?_,
    (flag.comp Identification.condition).member ?_,
    ((legible_of_bare bare_op).comp Identification.op).member ?_,
    (flag.comp Identification.prefixed).member ?_,
    (legible_number.comp Identification.opcode).member ?_,
    (legible_number.comp Identification.word).member ?_, List.forall_mem_nil _⟩ <;> simp [Visible]

theorem legible_members : ∀ t ∈ members, Legible t := by
  have flag := legible_of_bare bare_boolean
  have time : Legible fun t : Instant => toString t := legible_of_bare bare_toString
  simp only [members, List.forall_mem_cons]
  refine ⟨(time.comp Observation.time).member ?_, (legible_number.comp Observation.word).member ?_,
    ((legible_object legible_control).comp Observation.control).member ?_,
    ((legible_object legible_identification).comp Observation.identified).member ?_,
    (flag.comp Observation.stall).member ?_, List.forall_mem_nil _⟩ <;> simp [Visible]

theorem control_eq {c d : Control} (same : ∀ t ∈ controlMembers, t c = t d) : c = d := by
  obtain ⟨reset, enable, arbiterFull⟩ := c
  obtain ⟨reset', enable', arbiterFull'⟩ := d
  simpa [controlMembers] using same

theorem identification_eq {d e : Identification} (same : ∀ t ∈ identificationMembers, t d = t e) :
    d = e := by
  obtain ⟨branch, form, target, condition, op, prefixed, opcode, word⟩ := d
  obtain ⟨branch', form', target', condition', op', prefixed', opcode', word'⟩ := e
  simpa [identificationMembers] using same

theorem observation_eq {o p : Observation} (same : ∀ t ∈ members, t o = t p) : o = p := by
  obtain ⟨time, word, control, identified, stall⟩ := o
  obtain ⟨time', word', control', identified', stall'⟩ := p
  simp only [members, List.forall_mem_cons, member_inj, number_inj, boolean_inj] at same
  obtain ⟨times, words, controls, identifications, stalls, -⟩ := same
  have sameTime := Nat.repr_inj.mp times
  have sameControl := control_eq (object_inj legible_control controls)
  have sameIdentified := identification_eq (object_inj legible_identification identifications)
  rw [sameTime, words, sameControl, sameIdentified, stalls]

/-- A line tells which view it was written for, and where it ends. -/
theorem json_append_inj {o p : Observation} {rest rest' : List Char}
    (same : o.json.toList ++ rest = p.json.toList ++ rest') : o = p ∧ rest = rest' := by
  rw [json_eq_object, json_eq_object] at same
  obtain ⟨values, rests⟩ := object_append_inj legible_members same
  exact ⟨observation_eq values, rests⟩

theorem visible_json (o : Observation) : Visible o.json :=
  (legible_object legible_members).visible o

theorem jsonLines_cons (o : Observation) (rest : List Observation) :
    (jsonLines (o :: rest)).toList = o.json.toList ++ '\n' :: (jsonLines rest).toList := by
  simp [jsonLines]

theorem jsonLines_cons_ne (o : Observation) (rest : List Observation) : jsonLines (o :: rest) ≠ "" := by
  intro empty
  have text := jsonLines_cons o rest
  simp [empty] at text

theorem jsonLines_inj {views views' : List Observation} :
    jsonLines views = jsonLines views' ↔ views = views' := by
  refine ⟨fun same => ?_, congrArg jsonLines⟩
  induction views generalizing views' with
  | nil =>
    cases views' with
    | nil => rfl
    | cons p others => exact absurd same.symm (jsonLines_cons_ne p others)
  | cons o rest ih =>
    cases views' with
    | nil => exact absurd same (jsonLines_cons_ne o rest)
    | cons p others =>
      have text := congrArg String.toList same
      rw [jsonLines_cons, jsonLines_cons] at text
      obtain ⟨rfl, later⟩ := json_append_inj text
      rw [ih (String.toList_injective (List.cons.inj later).2)]

theorem utf8Size_of_mem_jsonLines {views : List Observation} {c : Char}
    (inside : c ∈ (jsonLines views).toList) : c.utf8Size = 1 := by
  induction views with
  | nil => simp [jsonLines] at inside
  | cons o rest ih =>
    rw [jsonLines_cons, List.mem_append, List.mem_cons] at inside
    rcases inside with shown | rfl | later
    · exact Char.utf8Size_eq_one_iff.mpr (UInt32.le_trans (o.visible_json c shown).2 (by decide))
    · rfl
    · exact ih later

end Observation

/-- A text is made up of lines, each with a newline at its end and none before. -/
structure Lined (text : String) (lines : List String) : Prop where
  whole : text = String.join (lines.map (· ++ "\n"))
  single : ∀ line ∈ lines, '\n' ∉ line.toList

theorem Observation.lined_jsonLines (views : List Observation) :
    Lined (jsonLines views) (views.map json) where
  whole := by rw [jsonLines, List.map_map]; rfl
  single := by
    intro line listed newline
    obtain ⟨o, _, rfl⟩ := List.mem_map.mp listed
    exact absurd (o.visible_json _ newline).1 (by decide)

theorem Observer.writeLines_eq_put (o : Observer) (m : Memory) :
    o.writeLines m = Sink.put m (Observation.jsonLines o.records.toList) := by
  have whole : String.join (o.records.toList.flatMap fun view => [view.json, "\n"]) =
      Observation.jsonLines o.records.toList := by
    apply String.toList_injective
    rw [String.toList_join, Observation.jsonLines_pieces]
  rw [writeLines, Memory.putAll_eq_put, whole]
  rcases Sink.put m (Observation.jsonLines o.records.toList) with ⟨out, _ | fault⟩ <;> rfl

/-- With room for everything the text has one line for each view that was kept, and tells which views they are.
With room for so many bytes it is cut off there, wherever that is, and whether it is cut off is told. -/
theorem Observer.lines_faithful (o : Observer) :
    let text := (o.writeLines (Memory.empty none)).1.text
    (o.writeLines (Memory.empty none)).2 = none ∧
    Lined text (o.records.toList.map Observation.json) ∧
    (∀ p : Observer, (p.writeLines (Memory.empty none)).1.text = text ↔ p.records = o.records) ∧
    ∀ n : Nat,
      let cut := o.writeLines (Memory.empty (some n))
      (cut.2 = none ↔ text.toUTF8.size ≤ n) ∧ (cut.2 = none ∨ cut.2 = some Memory.full) ∧
      cut.1.text.toUTF8 = text.toUTF8.extract 0 (min n text.toUTF8.size) := by
  have plenty (p : Observer) : p.writeLines (Memory.empty none) =
      (⟨Observation.jsonLines p.records.toList, none⟩, none) := by
    rw [p.writeLines_eq_put]
    simp [Memory.empty, Sink.put]
  have single : ∀ c ∈ (Observation.jsonLines o.records.toList).toList, c.utf8Size = 1 :=
    fun _ => Observation.utf8Size_of_mem_jsonLines
  simp only [plenty, true_and]
  refine ⟨Observation.lined_jsonLines _, fun p => ?_, fun n => ?_⟩
  · rw [Observation.jsonLines_inj, Array.toList_inj]
  · rw [o.writeLines_eq_put, Memory.empty, Memory.put_limited, size_toUTF8 single]
    refine ⟨?_, ?_, ?_⟩
    · simp
    · by_cases room : (Observation.jsonLines o.records.toList).length ≤ n <;> simp [room]
    · rw [← size_toUTF8 single, ← toUTF8_take single]
      simp

end IdentifyBench

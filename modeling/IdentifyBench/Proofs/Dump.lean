import IdentifyBench.Instant
import IdentifyBench.Proofs.Numerals
import Mathlib.Data.List.Basic

/-! Value change dumps read back. A dump consists of words between blanks: sections of declarations
up to the end of the definitions, then stamps and changes. A change holds from the stamp before it. -/
namespace IdentifyBench

structure Variable where
  name : String
  width : Nat
  code : String
  deriving DecidableEq, Repr

/-- What stands in a dump after its declarations. -/
inductive Item
  | stamp (t : Instant)
  | opened
  | closed
  | scalar (high : Bool) (code : String)
  | vector (value : Nat) (code : String)
  deriving DecidableEq, Repr

namespace Item

def stamp? : Item → Option Instant
  | stamp t => some t
  | _ => none

def change? : Item → Option (String × Nat)
  | scalar high code => some (code, high.toNat)
  | vector value code => some (code, value)
  | _ => none

end Item

structure Dump where
  declared : List Variable
  items : List Item
  deriving DecidableEq, Repr

namespace Dump

/-- The level of a variable, as wide as it is declared. -/
structure Reading where
  width : Nat
  value : Nat
  deriving DecidableEq, Repr

def words (text : List Char) : List String :=
  ((text.splitOnP Char.isWhitespace).filter (· ≠ [])).map String.ofList

/-- The variables that are declared, and the words after the definitions. A section is read once its
end is reached. -/
def declarations? (opened : List String) : List String → Option (List Variable × List String)
  | [] => none
  | word :: rest =>
    if word = "$end" then
      match opened with
      | ["$enddefinitions"] => some ([], rest)
      | ["$var", _, width, code, name] => do
        let width ← CommandLine.digits? 10 width.toList
        let (declared, rest) ← declarations? [] rest
        return (⟨name, width, code⟩ :: declared, rest)
      | _ => declarations? [] rest
    else declarations? (opened ++ [word]) rest

def item? (word : String) : Option Item :=
  match word.toList with
  | '#' :: digits => (CommandLine.digits? 10 digits).map .stamp
  | '0' :: code => some (.scalar false (String.ofList code))
  | '1' :: code => some (.scalar true (String.ofList code))
  | _ => if word = "$dumpvars" then some .opened else if word = "$end" then some .closed else none

def items? : List String → Option (List Item)
  | [] => some []
  | word :: rest =>
    match word.toList, rest with
    | 'b' :: digits, code :: rest => do
      let value ← CommandLine.digits? 2 digits
      return .vector value code :: (← items? rest)
    | _, rest => do return (← item? word) :: (← items? rest)

def read? (text : String) : Option Dump := do
  let (declared, rest) ← declarations? [] (words text.toList)
  return ⟨declared, ← items? rest⟩

def stamps (items : List Item) : List Instant := items.filterMap Item.stamp?

def changes (t : Instant) (due : Bool) : List Item → List (String × Nat)
  | [] => []
  | i :: rest =>
    match i.stamp? with
    | some s => changes t (s ≤ t) rest
    | none => (if due then i.change?.toList else []) ++ changes t due rest

def latest (code : String) (changes : List (String × Nat)) : Option Nat :=
  ((changes.filter (·.1 == code)).getLast?).map (·.2)

def Stamped : List Item → Prop
  | [] => True
  | i :: rest => (i.stamp?.isSome → rest.head?.any (·.change?.isSome) = true) ∧ Stamped rest

def value? (d : Dump) (name : String) (t : Instant) : Option Reading := do
  let v ← d.declared.find? (·.name == name)
  return ⟨v.width, ← latest v.code (changes t true d.items)⟩

theorem stamps_append (items more : List Item) :
    stamps (items ++ more) = stamps items ++ stamps more :=
  List.filterMap_append

/-- What is added to a dump counts from the last stamp in it. -/
theorem changes_append (t : Instant) (due : Bool) (items more : List Item) :
    changes t due (items ++ more) =
      changes t due items ++ changes t ((stamps items).getLast?.elim due (· ≤ t)) more := by
  -- A stamp among the items replaces what was due before, so the induction is for any such start.
  induction items generalizing due with
  | nil => rfl
  | cons i items ih =>
    rw [List.cons_append, changes, changes, stamps]
    cases stamped : i.stamp? with
    | none =>
      simp only [ih, stamped, List.append_assoc, List.filterMap_cons_none]
      rfl
    | some s =>
      simp only [ih, List.filterMap_cons_some stamped, List.getLast?_cons]
      unfold stamps
      cases (items.filterMap Item.stamp?).getLast? <;> rfl

theorem changes_of_unstamped (t : Instant) (due : Bool) {items : List Item}
    (unstamped : ∀ i ∈ items, i.stamp? = none) :
    changes t due items = if due then items.filterMap Item.change? else [] := by
  induction items with
  | nil => cases due <;> rfl
  | cons i items ih =>
    rw [changes, unstamped i (.head _), ih fun j listed => unstamped j (.tail _ listed)]
    cases due with
    | false => rfl
    | true => cases changed : i.change? <;> simp [changed]

theorem changes_stamp (t s : Instant) (due : Bool) {items : List Item}
    (unstamped : ∀ i ∈ items, i.stamp? = none) :
    changes t due (.stamp s :: items) =
      if s ≤ t then (Item.stamp s :: items).filterMap Item.change? else [] := by
  rw [List.filterMap_cons_none rfl]
  show changes t (decide (s ≤ t)) items = _
  rw [changes_of_unstamped t _ unstamped]
  simp only [decide_eq_true_eq]

theorem Stamped.append {items more : List Item} (first : Stamped items) (second : Stamped more) :
    Stamped (items ++ more) := by
  induction items with
  | nil => exact second
  | cons i items ih =>
    refine ⟨fun stamped => ?_, ih first.2⟩
    have followed := first.1 stamped
    cases items with
    | nil => cases followed
    | cons j items => exact followed

theorem stamped_of_unstamped {items : List Item} (unstamped : ∀ i ∈ items, i.stamp? = none) :
    Stamped items := by
  induction items with
  | nil => exact trivial
  | cons i items ih =>
    refine ⟨fun stamped => ?_, ih fun j listed => unstamped j (.tail _ listed)⟩
    rw [unstamped i (.head _)] at stamped
    cases stamped

theorem latest_append (code : String) (changes more : List (String × Nat)) :
    latest code (changes ++ more) = (latest code more).or (latest code changes) := by
  unfold latest
  rw [List.filter_append, List.getLast?_append, Option.map_or]

theorem words_nil : words [] = [] := by
  unfold words
  rw [List.splitOnP_nil]
  rfl

def Solid (word : List Char) : Prop := word ≠ [] ∧ ∀ c ∈ word, c.isWhitespace = false

instance (word : List Char) : Decidable (Solid word) :=
  decidable_of_iff (word ≠ [] ∧ (word.all fun c => !c.isWhitespace) = true)
    (and_congr_right fun _ => by simp)

theorem words_append {word : List Char} (solid : Solid word) {c : Char}
    (blank : c.isWhitespace = true) (rest : List Char) :
    words (word ++ c :: rest) = String.ofList word :: words rest := by
  have kept : decide (word ≠ []) = true := decide_eq_true solid.1
  unfold words
  rw [List.splitOnP_append_cons word rest blank, List.splitOnP_eq_singleton solid.2,
    List.filter_append, List.filter_singleton, kept]
  rfl

theorem digit_solid (d : Nat) : (Nat.digitChar d).isWhitespace = false := by
  simp [Char.isWhitespace, Nat.digitChar_ne]

theorem numeral_solid {base : Nat} (more : 1 < base) (n : Nat) : Solid (Nat.toDigits base n) := by
  refine ⟨Nat.toDigits_ne_nil, fun c inside => ?_⟩
  obtain ⟨d, rfl⟩ := CommandLine.exists_digit more inside
  exact digit_solid d

theorem Solid.cons {word : List Char} (solid : Solid word) {c : Char}
    (visible : c.isWhitespace = false) : Solid (c :: word) :=
  ⟨List.cons_ne_nil _ _, List.forall_mem_cons.mpr ⟨visible, solid.2⟩⟩

def line : List String → List Char
  | [] => []
  | [word] => word.toList ++ ['\n']
  | word :: next :: rest => word.toList ++ ' ' :: line (next :: rest)

theorem words_line {parts : List String} (solid : ∀ word ∈ parts, Solid word.toList)
    (rest : List Char) : words (line parts ++ rest) = parts ++ words rest := by
  induction parts with
  | nil => rfl
  | cons word parts ih =>
    have own := solid word (.head _)
    cases parts with
    | nil =>
      unfold line
      rw [List.append_assoc, List.singleton_append, words_append own rfl, String.ofList_toList]
      rfl
    | cons next parts =>
      unfold line
      rw [List.append_assoc, List.cons_append, words_append own rfl,
        ih fun other listed => solid other (.tail _ listed), String.ofList_toList]
      rfl

theorem words_lines {lines : List (List String)}
    (solid : ∀ parts ∈ lines, ∀ word ∈ parts, Solid word.toList) (rest : List Char) :
    words (lines.flatMap line ++ rest) = lines.flatten ++ words rest := by
  induction lines with
  | nil => rfl
  | cons parts lines ih =>
    rw [List.flatMap_cons, List.append_assoc, words_line (solid parts (.head _)),
      ih fun other listed => solid other (.tail _ listed), List.flatten_cons, List.append_assoc]

theorem items?_single {word : String} {c : Char} {tail : List Char}
    (starts : word.toList = c :: tail) (other : c ≠ 'b') (rest : List String) :
    items? (word :: rest) = do return (← item? word) :: (← items? rest) := by
  conv_lhs => unfold items?
  rw [starts]
  -- Only the digits of a number take the next word with them.
  split
  · rename_i same
    exact absurd (List.cons.inj same).1 other
  · rfl

theorem declarations?_append (opened rest : List String) {words : List String}
    (inside : "$end" ∉ words) :
    declarations? opened (words ++ rest) = declarations? (opened ++ words) rest := by
  induction words generalizing opened with
  | nil => rw [List.append_nil, List.nil_append]
  | cons word words ih =>
    have other : word ≠ "$end" := fun same => inside (same ▸ .head _)
    have later : "$end" ∉ words := fun listed => inside (.tail _ listed)
    have step : declarations? opened (word :: (words ++ rest)) =
        declarations? (opened ++ [word]) (words ++ rest) := by
      conv_lhs => unfold declarations?
      exact if_neg other
    rw [List.cons_append, step, ih _ later, List.append_assoc, List.singleton_append]

theorem declarations?_skip {word : String} {words : List String} (inside : "$end" ∉ word :: words)
    (notVariable : word ≠ "$var") (notEnd : word ≠ "$enddefinitions") (rest : List String) :
    declarations? [] (word :: words ++ "$end" :: rest) = declarations? [] rest := by
  rw [declarations?_append _ _ inside, List.nil_append]
  conv_lhs => unfold declarations?
  rw [if_pos rfl]
  split
  · rename_i ends
    exact absurd (List.cons.inj ends).1 notEnd
  · rename_i declares
    exact absurd (List.cons.inj declares).1 notVariable
  · rfl

end Dump

namespace Item

open Dump

def parts : Item → List String
  | stamp t => [String.ofList ('#' :: Nat.toDigits 10 t)]
  | opened => ["$dumpvars"]
  | closed => ["$end"]
  | scalar high code => [String.ofList ((if high then '1' else '0') :: code.toList)]
  | vector value code => [String.ofList ('b' :: Nat.toDigits 2 value), code]

/-- If it changes anything, then under a code that is a word. -/
def Coded (i : Item) : Prop := ∀ change ∈ i.change?, Solid change.1.toList

theorem Coded.solid {i : Item} (coded : i.Coded) : ∀ word ∈ i.parts, Solid word.toList := by
  cases i with
  | stamp t =>
    have solid : Solid ('#' :: Nat.toDigits 10 t) := Solid.cons (numeral_solid (by omega) t) rfl
    exact List.forall_mem_singleton.mpr (String.toList_ofList ▸ solid)
  | opened => decide
  | closed => decide
  | scalar high code =>
    have solid : Solid ((if high then '1' else '0') :: code.toList) :=
      (coded (code, high.toNat) rfl).cons (by cases high <;> rfl)
    exact List.forall_mem_singleton.mpr (String.toList_ofList ▸ solid)
  | vector value code =>
    have solid : Solid ('b' :: Nat.toDigits 2 value) :=
      Solid.cons (numeral_solid (by omega) value) rfl
    refine List.forall_mem_cons.mpr ⟨String.toList_ofList ▸ solid, ?_⟩
    exact List.forall_mem_singleton.mpr (coded (code, value) rfl)

theorem items?_parts (i : Item) (rest : List String) :
    items? (i.parts ++ rest) = (items? rest).map (i :: ·) := by
  unfold parts
  cases i with
  | stamp t =>
    have read : item? (String.ofList ('#' :: Nat.toDigits 10 t)) = some (.stamp t) := by
      unfold item?
      rw [String.toList_ofList]
      simp [CommandLine.digits?_toDigits]
    rw [List.singleton_append, items?_single String.toList_ofList (by decide), read]
    cases items? rest <;> rfl
  | opened =>
    have starts : "$dumpvars".toList = '$' :: "dumpvars".toList := by decide
    rw [List.singleton_append, items?_single starts (by decide)]
    cases items? rest <;> rfl
  | closed =>
    have starts : "$end".toList = '$' :: "end".toList := by decide
    rw [List.singleton_append, items?_single starts (by decide)]
    cases items? rest <;> rfl
  | scalar high code =>
    have read : item? (String.ofList ((if high then '1' else '0') :: code.toList)) =
        some (.scalar high code) := by
      unfold item?
      rw [String.toList_ofList]
      cases high <;> simp
    rw [List.singleton_append, items?_single String.toList_ofList (by cases high <;> decide), read]
    cases items? rest <;> rfl
  | vector value code =>
    rw [List.cons_append, List.singleton_append]
    conv_lhs => unfold items?
    rw [String.toList_ofList]
    simp [CommandLine.digits?_toDigits]
    cases items? rest <;> rfl

theorem items?_lines {items : List Item} (coded : ∀ i ∈ items, i.Coded) :
    items? (words (items.flatMap (line ·.parts))) = some items := by
  induction items with
  | nil => rw [List.flatMap_nil, words_nil, items?]
  | cons i rest ih =>
    rw [List.flatMap_cons, words_line (coded i (.head _)).solid, items?_parts,
      ih fun j listed => coded j (.tail _ listed)]
    rfl

end Item

namespace Variable

open Dump

def parts (v : Variable) : List String :=
  ["$var", "wire", String.ofList (Nat.toDigits 10 v.width), v.code, v.name, "$end"]

/-- Its code and its name are words that do not end the declaration. -/
structure Named (v : Variable) : Prop where
  code : Solid v.code.toList
  codeOpen : v.code ≠ "$end"
  name : Solid v.name.toList
  nameOpen : v.name ≠ "$end"

theorem Named.solid {v : Variable} (named : v.Named) : ∀ word ∈ v.parts, Solid word.toList := by
  have width : Solid (String.ofList (Nat.toDigits 10 v.width)).toList :=
    String.toList_ofList ▸ numeral_solid (by omega) v.width
  unfold parts
  simp only [List.forall_mem_cons]
  exact ⟨by decide, by decide, width, named.code, named.name, by decide, List.forall_mem_nil _⟩

theorem numeral_ne_end (n : Nat) : String.ofList (Nat.toDigits 10 n) ≠ "$end" := by
  intro same
  have mark : '$' ∈ Nat.toDigits 10 n := by
    rw [← String.toList_ofList (l := Nat.toDigits 10 n), same]
    decide
  obtain ⟨d, digit⟩ := CommandLine.exists_digit (by omega) mark
  exact Nat.digitChar_ne '$' (by decide) digit.symm

section

variable {rest after : List String} {more : List Variable}
  (later : declarations? [] rest = some (more, after))

include later

theorem declarations?_parts {v : Variable} (named : v.Named) :
    declarations? [] (v.parts ++ rest) = some (v :: more, after) := by
  have inside : "$end" ∉
      ["$var", "wire", String.ofList (Nat.toDigits 10 v.width), v.code, v.name] := by
    simp [(numeral_ne_end v.width).symm, named.codeOpen.symm, named.nameOpen.symm]
  have apart : v.parts ++ rest =
      ["$var", "wire", String.ofList (Nat.toDigits 10 v.width), v.code, v.name] ++
        "$end" :: rest := rfl
  rw [apart, declarations?_append _ _ inside, List.nil_append, declarations?, if_pos rfl]
  simp [later, CommandLine.digits?_toDigits]

theorem declarations?_all {declared : List Variable} (named : ∀ v ∈ declared, v.Named) :
    declarations? [] (declared.flatMap parts ++ rest) = some (declared ++ more, after) := by
  induction declared with
  | nil => exact later
  | cons v declared ih =>
    rw [List.flatMap_cons, List.append_assoc]
    have rest := ih fun other listed => named other (.tail _ listed)
    exact declarations?_parts rest (named v (.head _))

end

end Variable

end IdentifyBench

import IdentifyBench.Assembly
import IdentifyBench.Proofs.Encoding
import IdentifyBench.Proofs.Numerals

/-! Assembler text read back. A line is a mnemonic with its suffixes, a blank, and operands between
commas; the encoder of the mnemonic's format builds the word again. -/
namespace IdentifyBench

namespace Format

/-- The instruction may set the link register, which an `l` says. -/
def links : Format → Bool
  | unconditional | conditional | register => true
  | logical | move => false

def absolutes : Format → Bool
  | unconditional | conditional => true
  | register | logical | move => false

/-- The encoder of the format on operands as they stand in a line. -/
def encode? (f : Format) (extended : Word) (link absolute : Bool) (operands : List Word) :
    Option Word :=
  match f, operands with
  | unconditional, [x] => some (.iForm x absolute link)
  | conditional, [bo, bi, x] => some (.bForm bo bi x absolute link)
  | register, [bo, bi, bh] => some (.xlBranch bo bi bh extended link)
  | logical, [bt, ba, bb] => some (.xlLogical bt ba bb extended)
  | move, [bf, bfa] => some (.moveField bf bfa)
  | _, _ => none

end Format

/-- A rule's name with the suffixes that its format defines. -/
structure Mnemonic where
  rule : Rule
  link : Bool
  absolute : Bool
  deriving DecidableEq, Repr

namespace Mnemonic

def spelling (m : Mnemonic) : String :=
  m.rule.mnemonic ++ (if m.link then "l" else "") ++ (if m.absolute then "a" else "")

def ofWord (r : Rule) (w : Word) : Mnemonic :=
  ⟨r, r.format.links && w.link, r.format.absolutes && w.absolute⟩

def choices (free : Bool) : List Bool := if free then [false, true] else [false]

def all : List Mnemonic :=
  Rule.table.flatMap fun r =>
    (choices r.format.links).flatMap fun link =>
      (choices r.format.absolutes).map fun absolute => ⟨r, link, absolute⟩

def find? (text : String) : Option Mnemonic := all.find? (·.spelling == text)

def encode? (m : Mnemonic) (operands : List Word) : Option Word :=
  m.rule.format.encode? (m.rule.pattern.extendedOpcode.setWidth 32) m.link m.absolute operands

theorem mem_choices {free b : Bool} : (free && b) ∈ choices free := by
  cases free <;> cases b <;> decide

theorem ofWord_mem_all {r : Rule} (listed : r ∈ Rule.table) (w : Word) : ofWord r w ∈ all :=
  List.mem_flatMap.mpr ⟨r, listed, List.mem_flatMap.mpr ⟨_, mem_choices,
    List.mem_map.mpr ⟨_, mem_choices, rfl⟩⟩⟩

/-- No two mnemonics are spelled the same, so that none is mistaken for another with suffixes. -/
theorem find?_spelling {m : Mnemonic} (listed : m ∈ all) : find? m.spelling = some m := by
  revert m
  decide

theorem solid_spelling {m : Mnemonic} (listed : m ∈ all) : ' ' ∉ m.spelling.toList := by
  revert m
  decide

theorem spelling_ne_data {m : Mnemonic} (listed : m ∈ all) : m.spelling ≠ ".long" := by
  revert m
  decide

theorem head_spelling {m : Mnemonic} (listed : m ∈ all) :
    ∃ c rest, m.spelling.toList = c :: rest ∧ c ≠ '.' := by
  have start : ∀ m ∈ all, m.spelling.toList.head?.any (· != '.') = true := by decide
  have begun := start m listed
  cases spelled : m.spelling.toList with
  | nil =>
    rw [spelled] at begun
    cases begun
  | cons c rest =>
    rw [spelled] at begun
    exact ⟨c, rest, rfl, bne_iff_ne.mp begun⟩

end Mnemonic

/-- An operand as it is printed: a field in decimal, a displacement in hexadecimal, or a whole word. -/
inductive Operand
  | field (n : Nat)
  | displacement (d : Word)
  | word (w : Word)

namespace Operand

def text : Operand → List Char
  | field n => Nat.toDigits 10 n
  | displacement d => '0' :: 'x' :: Nat.toDigits 16 d.toNat
  | word w => (Digits.word w).toList

def value : Operand → Word
  | field n => .ofNat 32 n
  | displacement d => d
  | word w => w

end Operand

namespace Assembler

def operand? (text : List Char) : Option Word :=
  let value := match text with
    | '0' :: 'x' :: digits => CommandLine.digits? 16 digits
    | digits => CommandLine.digits? 10 digits
  value.map (BitVec.ofNat 32)

def operands? (text : List Char) : Option (List Word) :=
  ((text.filter (· != ' ')).splitOn ',').mapM operand?

def firstToken (text : String) : String := String.ofList (text.toList.takeWhile (· != ' '))

def afterToken (text : String) : List Char := text.toList.dropWhile (· != ' ')

/-- The word that a line of assembler text stands for. -/
def assemble? (text : String) : Option Word := do
  let operands ← operands? (afterToken text)
  if firstToken text = ".long" then
    match operands with
    | [w] => some w
    | _ => none
  else
    let mnemonic ← Mnemonic.find? (firstToken text)
    mnemonic.encode? operands

theorem operand?_marked (digits : List Char) :
    operand? ('0' :: 'x' :: digits) = (CommandLine.digits? 16 digits).map (BitVec.ofNat 32) := rfl

theorem operand?_plain {text : List Char} (plain : 'x' ∉ text) :
    operand? text = (CommandLine.digits? 10 text).map (BitVec.ofNat 32) := by
  unfold operand?
  split
  · exact absurd (.tail _ (.head _)) plain
  · rfl

theorem digitChar_ne_comma (d : Nat) : Nat.digitChar d ≠ ',' := Nat.digitChar_ne ',' (by decide)

theorem digitChar_ne_blank (d : Nat) : Nat.digitChar d ≠ ' ' := Nat.digitChar_ne ' ' (by decide)

theorem digitChar_ne_x (d : Nat) : Nat.digitChar d ≠ 'x' := Nat.digitChar_ne 'x' (by decide)

end Assembler

open Assembler

namespace Operand

theorem word_text (w : Word) : (word w).text = '0' :: 'x' ::
    (List.replicate (8 - (Nat.toDigits 16 w.toNat).length) '0' ++ Nat.toDigits 16 w.toNat) := by
  show (Digits.word w).toList = _
  unfold Digits.word
  exact (String.toList_append).trans (congrArg ("0x".toList ++ ·) String.toList_ofList)

theorem char_of_mem_text {o : Operand} {c : Char} (inside : c ∈ o.text) :
    c = 'x' ∨ ∃ d, c = Nat.digitChar d := by
  cases o with
  | field n => exact .inr (CommandLine.exists_digit (by omega) inside)
  | displacement d =>
    rcases List.mem_cons.mp inside with zero | inside
    · exact .inr ⟨0, zero⟩
    · rcases List.mem_cons.mp inside with mark | inside
      · exact .inl mark
      · exact .inr (CommandLine.exists_digit (by omega) inside)
  | word w =>
    rw [word_text] at inside
    rcases List.mem_cons.mp inside with zero | inside
    · exact .inr ⟨0, zero⟩
    · rcases List.mem_cons.mp inside with mark | inside
      · exact .inl mark
      · rcases List.mem_append.mp inside with pad | inside
        · exact .inr ⟨0, List.eq_of_mem_replicate pad⟩
        · exact .inr (CommandLine.exists_digit (by omega) inside)

theorem comma_not_mem_text (o : Operand) : ',' ∉ o.text := by
  intro inside
  rcases char_of_mem_text inside with mark | ⟨d, digit⟩
  · exact absurd mark (by decide)
  · exact digitChar_ne_comma d digit.symm

theorem blank_not_mem_text (o : Operand) : ' ' ∉ o.text := by
  intro inside
  rcases char_of_mem_text inside with mark | ⟨d, digit⟩
  · exact absurd mark (by decide)
  · exact digitChar_ne_blank d digit.symm

theorem operand?_text (o : Operand) : operand? o.text = some o.value := by
  cases o with
  | field n =>
    have plain : 'x' ∉ Nat.toDigits 10 n := by
      intro inside
      obtain ⟨d, digit⟩ := CommandLine.exists_digit (by omega) inside
      exact digitChar_ne_x d digit.symm
    rw [text, operand?_plain plain, CommandLine.digits?_toDigits (by omega) (by omega)]
    rfl
  | displacement d =>
    rw [text, operand?_marked, CommandLine.digits?_toDigits (by omega) (by omega), Option.map_some,
      BitVec.ofNat_toNat, BitVec.setWidth_eq]
    rfl
  | word w =>
    rw [word_text, operand?_marked, CommandLine.digits?_padded (by omega) (by omega),
      Option.map_some, BitVec.ofNat_toNat, BitVec.setWidth_eq]
    rfl

end Operand

namespace Assembler

def listing (operands : List Operand) : List Char :=
  List.intercalate [',', ' '] (operands.map Operand.text)

theorem filter_listing (operands : List Operand) :
    (listing operands).filter (· != ' ') = List.intercalate [','] (operands.map Operand.text) := by
  have solid (o : Operand) : o.text.filter (· != ' ') = o.text := by
    rw [List.filter_eq_self]
    intro c inside
    exact bne_iff_ne.mpr fun blank => o.blank_not_mem_text (blank ▸ inside)
  unfold listing
  induction operands with
  | nil => rfl
  | cons o rest ih =>
    cases rest with
    | nil => simpa using solid o
    | cons p rest =>
      rw [List.map_cons, List.map_cons, List.intercalate_cons_cons, List.intercalate_cons_cons,
        List.filter_append, List.filter_append, solid, ← List.map_cons, ih]
      rfl

theorem operands?_listing {operands : List Operand} (nonempty : operands ≠ []) :
    operands? (' ' :: listing operands) = some (operands.map Operand.value) := by
  have apart : ∀ text ∈ operands.map Operand.text, ',' ∉ text := by
    intro text listed
    obtain ⟨o, _, rfl⟩ := List.mem_map.mp listed
    exact o.comma_not_mem_text
  have split := List.splitOn_intercalate ',' apart (List.map_eq_nil_iff.not.mpr nonempty)
  unfold operands?
  rw [List.filter_cons_of_neg (by decide), filter_listing, split]
  clear split apart nonempty
  induction operands with
  | nil => rfl
  | cons o rest ih => rw [List.map_cons, List.mapM_cons, o.operand?_text, ih]; rfl

section

variable {text head : String} {operands : List Operand}
  (shape : text.toList = head.toList ++ ' ' :: listing operands) (solid : ' ' ∉ head.toList)

include shape solid

theorem firstToken_of_shape : firstToken text = head := by
  have whole : ∀ c ∈ head.toList, (c != ' ') = true := fun c inside =>
    bne_iff_ne.mpr fun blank => solid (blank ▸ inside)
  unfold firstToken
  rw [shape, List.takeWhile_append_of_pos whole, List.takeWhile_cons_of_neg (by decide),
    List.append_nil, String.ofList_toList]

theorem afterToken_of_shape : afterToken text = ' ' :: listing operands := by
  have whole : ∀ c ∈ head.toList, (c != ' ') = true := fun c inside =>
    bne_iff_ne.mpr fun blank => solid (blank ▸ inside)
  unfold afterToken
  rw [shape, List.dropWhile_append_of_pos whole, List.dropWhile_cons_of_neg (by decide)]

end

theorem assemble?_data {text : String} {w : Word}
    (shape : text.toList = ".long".toList ++ ' ' :: listing [.word w]) : assemble? text = some w := by
  have solid : ' ' ∉ ".long".toList := by decide
  unfold assemble?
  rw [firstToken_of_shape shape solid, afterToken_of_shape shape solid,
    operands?_listing (List.cons_ne_nil _ _)]
  rfl

theorem assemble?_instruction {text : String} {m : Mnemonic} {operands : List Operand}
    (listed : m ∈ Mnemonic.all) (nonempty : operands ≠ [])
    (shape : text.toList = m.spelling.toList ++ ' ' :: listing operands) :
    assemble? text = m.encode? (operands.map Operand.value) := by
  have solid := Mnemonic.solid_spelling listed
  unfold assemble?
  rw [firstToken_of_shape shape solid, afterToken_of_shape shape solid, operands?_listing nonempty]
  simp only [Option.bind_eq_bind, Option.bind_some, if_neg (Mnemonic.spelling_ne_data listed),
    Mnemonic.find?_spelling listed]

end Assembler

end IdentifyBench

import IdentifyBench.Proofs.Disassembly
import Mathlib.Data.List.Forall2
import Mathlib.Data.List.TakeWhile
import Mathlib.Data.Nat.Digits.Defs

/-! Words as they are written on the command line. A grammar says what stands for which word, and the
reader accepts exactly that, whatever white space is around it. So a word is read back from its digits in
either notation, with zeros before them, in either case and with underscores between them, and from the
text that shows it as data. -/
namespace IdentifyBench.CommandLine

def WhiteSpace (c : Char) : Prop :=
  9 ≤ c.toNat ∧ c.toNat ≤ 13 ∨ 0x2000 ≤ c.toNat ∧ c.toNat ≤ 0x200a ∨
    c.toNat ∈ [0x20, 0x85, 0xa0, 0x1680, 0x2028, 0x2029, 0x202f, 0x205f, 0x3000]

theorem isBlank_iff (c : Char) : isBlank c = true ↔ WhiteSpace c := by
  have same (d : Char) : c = d ↔ c.toNat = d.toNat :=
    ⟨congrArg Char.toNat, fun numbers => Char.ext (UInt32.toNat_inj.mp numbers)⟩
  simp only [isBlank, blanks, List.contains_eq_mem, decide_eq_true_eq, List.mem_cons, List.not_mem_nil,
    or_false, same, WhiteSpace, Char.reduceToNat]
  omega

/-- White space stands around a text that neither begins nor ends with any. -/
structure Trimmed (text inner : List Char) : Prop where
  around : ∃ before after, text = before ++ inner ++ after ∧ (∀ c ∈ before, WhiteSpace c) ∧
    ∀ c ∈ after, WhiteSpace c
  first : ∀ c ∈ inner.head?, ¬WhiteSpace c
  last : ∀ c ∈ inner.getLast?, ¬WhiteSpace c

theorem dropWhile_blank {before rest : List Char} (blank : ∀ c ∈ before, WhiteSpace c)
    (first : ∀ c ∈ rest.head?, ¬WhiteSpace c) : (before ++ rest).dropWhile isBlank = rest := by
  rw [List.dropWhile_append_of_pos fun c inside => (isBlank_iff c).mpr (blank c inside)]
  cases rest with
  | nil => rfl
  | cons c rest =>
    apply List.dropWhile_cons_of_neg
    rw [isBlank_iff]
    exact first c rfl

theorem head?_dropWhile_blank {text : List Char} {c : Char}
    (first : c ∈ (text.dropWhile isBlank).head?) : ¬WhiteSpace c := by
  rw [← isBlank_iff, Bool.not_eq_true]
  have stops := List.head?_dropWhile_not isBlank text
  rw [Option.mem_def.mp first] at stops
  exact stops

theorem exists_blank_before (text : List Char) :
    ∃ before, text = before ++ text.dropWhile isBlank ∧ ∀ c ∈ before, WhiteSpace c := by
  refine ⟨text.takeWhile isBlank, List.takeWhile_append_dropWhile.symm, ?_⟩
  intro c inside
  rw [← isBlank_iff]
  exact List.mem_takeWhile_imp inside

theorem trimmed_trim (text : List Char) : Trimmed text (trim text) := by
  obtain ⟨before, split, blank⟩ := exists_blank_before text
  obtain ⟨after, split', blank'⟩ := exists_blank_before (text.dropWhile isBlank).reverse
  have whole : text.dropWhile isBlank = trim text ++ after.reverse := by
    rw [← List.reverse_inj, List.reverse_append, List.reverse_reverse, split', trim, List.reverse_reverse]
  refine ⟨⟨before, after.reverse, ?_, blank, ?_⟩, ?_, ?_⟩
  · rw [List.append_assoc, ← whole]
    exact split
  · intro c inside
    exact blank' c (List.mem_reverse.mp inside)
  · intro c first
    have before : c ∈ (text.dropWhile isBlank).head? := by
      rw [whole, List.head?_append, Option.mem_def.mp first]
      rfl
    exact head?_dropWhile_blank before
  · intro c last
    rw [trim, List.getLast?_reverse] at last
    exact head?_dropWhile_blank last

theorem trim_of_trimmed {text inner : List Char} (trimmed : Trimmed text inner) : trim text = inner := by
  obtain ⟨⟨before, after, rfl, blank, blank'⟩, first, last⟩ := trimmed
  have blank'' : ∀ c ∈ after.reverse, WhiteSpace c := fun c inside => blank' c (List.mem_reverse.mp inside)
  have last' : ∀ c ∈ inner.reverse.head?, ¬WhiteSpace c := by
    rw [List.head?_reverse]
    exact last
  rw [trim, List.append_assoc]
  cases inner with
  | nil =>
    have all : ∀ c ∈ before ++ after, WhiteSpace c := by
      intro c inside
      exact (List.mem_append.mp inside).elim (blank c) (blank' c)
    have nothing : (before ++ after ++ []).dropWhile isBlank = [] := dropWhile_blank all (by simp)
    rw [List.append_nil] at nothing
    rw [List.nil_append, nothing]
    rfl
  | cons c inner =>
    rw [dropWhile_blank blank (by simpa using first), List.reverse_append, dropWhile_blank blank'' last',
      List.reverse_reverse]

/-- The character is a digit of the base with this value, in either case. -/
def IsDigit (base : Nat) (c : Char) (d : Nat) : Prop := d < base ∧ c.toLower = Nat.digitChar d

theorem digit?_toLower (base : Nat) (c : Char) : digit? base c.toLower = digit? base c := by
  by_cases upper : 65 ≤ c.toNat ∧ c.toNat ≤ 90
  · rw [← Char.ofNat_toNat c]
    generalize c.toNat = n at upper
    obtain ⟨above, below⟩ := upper
    interval_cases n <;> rfl
  · have kept : c.toLower = c := dif_neg upper
    rw [kept]

theorem digit?_cases {base : Nat} {c : Char} {d : Nat} (read : digit? base c = some d) :
    d < base ∧ (d ≤ 9 ∧ c.toNat = d + 48 ∨ 10 ≤ d ∧ d ≤ 35 ∧ (c.toNat = d + 87 ∨ c.toNat = d + 55)) := by
  unfold digit? at read
  obtain ⟨value, below⟩ := Option.filter_eq_some_iff.mp read
  refine ⟨of_decide_eq_true below, ?_⟩
  split at value
  · rename_i decimal
    have inside : 48 ≤ c.toNat ∧ c.toNat ≤ 57 := Char.isDigit_iff_toNat.mp decimal
    have same : c.toNat - 48 = d := Option.some.inj value
    omega
  · split at value
    · rename_i letter
      have inside : 97 ≤ c.toNat ∧ c.toNat ≤ 122 := letter
      have same : c.toNat - 97 + 10 = d := Option.some.inj value
      omega
    · split at value
      · rename_i letter
        have inside : 65 ≤ c.toNat ∧ c.toNat ≤ 90 := letter
        have same : c.toNat - 65 + 10 = d := Option.some.inj value
        omega
      · cases value

theorem digit?_eq_some_iff {base : Nat} (known : base ≤ 16) (c : Char) (d : Nat) :
    digit? base c = some d ↔ IsDigit base c d := by
  constructor
  · intro read
    obtain ⟨below, place⟩ := digit?_cases read
    refine ⟨below, ?_⟩
    rw [← Char.ofNat_toNat c]
    rcases place with ⟨small, same⟩ | ⟨large, _, same | same⟩
    · rw [same]
      interval_cases d <;> rfl
    · have small : d < 16 := Nat.lt_of_lt_of_le below known
      rw [same]
      interval_cases d <;> rfl
    · have small : d < 16 := Nat.lt_of_lt_of_le below known
      rw [same]
      interval_cases d <;> rfl
  · rintro ⟨below, lower⟩
    rw [← digit?_toLower, lower]
    exact digit?_digitChar known below

theorem not_whiteSpace_of_digit? {base : Nat} {c : Char} {d : Nat} (digit : digit? base c = some d) :
    ¬WhiteSpace c := by
  have place := (digit?_cases digit).2
  simp only [WhiteSpace, List.mem_cons, List.not_mem_nil, or_false]
  omega

/-- Digits, of which the first one counts most. -/
def Numeral (base : Nat) (text : List Char) (n : Nat) : Prop :=
  text ≠ [] ∧ ∃ ds, List.Forall₂ (IsDigit base) text ds ∧ n = Nat.ofDigits base ds.reverse

theorem readOn_eq_some_iff {base : Nat} (known : base ≤ 16) (text : List Char) (m n : Nat) :
    readOn base m text = some n ↔ ∃ ds, List.Forall₂ (IsDigit base) text ds ∧
      n = base ^ ds.length * m + Nat.ofDigits base ds.reverse := by
  induction text generalizing m with
  | nil =>
    simp [readOn, eq_comm]
  | cons c rest ih =>
    have step : readOn base m (c :: rest) =
        (digit? base c).bind fun d => readOn base (base * m + d) rest := by
      rw [readOn, List.foldlM_cons]
      cases digit? base c <;> rfl
    have value (d : Nat) (ds : List Nat) :
        base ^ ds.length * (base * m + d) + Nat.ofDigits base ds.reverse =
          base ^ (d :: ds).length * m + Nat.ofDigits base (d :: ds).reverse := by
      rw [List.reverse_cons, Nat.ofDigits_append, Nat.ofDigits_singleton, List.length_reverse,
        List.length_cons]
      ring
    rw [step, Option.bind_eq_some_iff]
    constructor
    · rintro ⟨d, digit, further⟩
      obtain ⟨ds, digits, rfl⟩ := (ih _).mp further
      exact ⟨d :: ds, .cons ((digit?_eq_some_iff known c d).mp digit) digits, value d ds⟩
    · rintro ⟨_, digits, total⟩
      obtain _ | ⟨digit, digits⟩ := digits
      rename_i d ds
      exact ⟨d, (digit?_eq_some_iff known c d).mpr digit, (ih _).mpr ⟨ds, digits, total.trans (value d ds).symm⟩⟩

theorem digits?_eq_some_iff {base : Nat} (known : base ≤ 16) (text : List Char) (n : Nat) :
    digits? base text = some n ↔ Numeral base text n := by
  by_cases empty : text = []
  · rw [empty]
    exact iff_of_false nofun fun numeral => numeral.1 rfl
  · rw [digits?_of_ne_nil base empty, readOn_eq_some_iff known]
    simp [Numeral, empty]

def Signed (base : Nat) (text : List Char) (n : Nat) : Prop :=
  ∃ digits, (text = digits ∨ text = '+' :: digits) ∧ Numeral base digits n

theorem not_numeral_plus (base : Nat) (rest : List Char) (n : Nat) : ¬Numeral base ('+' :: rest) n := by
  rintro ⟨_, _, digits, _⟩
  obtain _ | ⟨digit, _⟩ := digits
  exact Nat.digitChar_ne '+' (by decide) digit.2.symm

theorem number?_eq_some_iff {base : Nat} (known : base ≤ 16) (limit : Nat) (text : List Char) (n : Nat) :
    number? base limit text = some n ↔ Signed base text n ∧ n < limit := by
  unfold number?
  rw [Option.filter_eq_some_iff, digits?_eq_some_iff known, decide_eq_true_eq]
  refine and_congr_left fun _ => ?_
  split
  · rename_i rest
    constructor
    · intro numeral
      exact ⟨rest, .inr rfl, numeral⟩
    · rintro ⟨digits, rfl | same, numeral⟩
      · exact absurd numeral (not_numeral_plus base rest n)
      · rwa [List.tail_eq_of_cons_eq same]
  · rename_i bare
    constructor
    · intro numeral
      exact ⟨text, .inl rfl, numeral⟩
    · rintro ⟨digits, rfl | signed, numeral⟩
      · exact numeral
      · exact absurd signed (bare digits)

/-- What stands for a number: hexadecimal after `0x`, with underscores anywhere, and decimal otherwise. -/
inductive Literal : List Char → Nat → Prop
  | hexadecimal {mark : Char} {rest : List Char} {n : Nat} (marked : mark = 'x' ∨ mark = 'X')
      (number : Signed 16 (rest.filter (· != '_')) n) : Literal ('0' :: mark :: rest) n
  | decimal {text : List Char} {n : Nat} (unmarked : ∀ rest, text ≠ '0' :: 'x' :: rest ∧ text ≠ '0' :: 'X' :: rest)
      (number : Signed 10 text n) : Literal text n

theorem literal_marked_iff {mark : Char} (marked : mark = 'x' ∨ mark = 'X') (rest : List Char) (n : Nat) :
    Literal ('0' :: mark :: rest) n ↔ Signed 16 (rest.filter (· != '_')) n := by
  refine ⟨?_, .hexadecimal marked⟩
  intro literal
  cases literal with
  | hexadecimal _ number => exact number
  | decimal unmarked _ =>
    rcases marked with rfl | rfl
    · exact absurd rfl (unmarked rest).1
    · exact absurd rfl (unmarked rest).2

theorem literal_unmarked_iff {text : List Char}
    (unmarked : ∀ rest, text ≠ '0' :: 'x' :: rest ∧ text ≠ '0' :: 'X' :: rest) (n : Nat) :
    Literal text n ↔ Signed 10 text n := by
  refine ⟨?_, .decimal unmarked⟩
  intro literal
  cases literal with
  | hexadecimal marked _ =>
    rcases marked with rfl | rfl
    · exact absurd rfl (unmarked _).1
    · exact absurd rfl (unmarked _).2
  | decimal _ number => exact number

theorem word?_eq_some_iff (text : String) (w : Word) :
    word? text = some w ↔ Literal (trim text.toList) w.toNat := by
  have whole (n : Nat) : (n < UInt32.size ∧ BitVec.ofNat 32 n = w) ↔ n = w.toNat := by
    constructor
    · rintro ⟨small, rfl⟩
      exact (Nat.mod_eq_of_lt small).symm
    · rintro rfl
      exact ⟨w.isLt, by simp⟩
  have number (base : Nat) (known : base ≤ 16) (digits : List Char) :
      (number? base UInt32.size digits).map (BitVec.ofNat 32) = some w ↔ Signed base digits w.toNat := by
    simp [Option.map_eq_some_iff, number?_eq_some_iff known, and_assoc, whole]
  unfold word?
  generalize trim text.toList = inner
  dsimp only
  split
  · rename_i rest
    rw [number 16 (Nat.le_refl _), literal_marked_iff (.inl rfl)]
  · rename_i rest
    rw [number 16 (Nat.le_refl _), literal_marked_iff (.inr rfl)]
  · rename_i lower upper
    rw [number 10 (by decide), literal_unmarked_iff fun rest => ⟨lower rest, upper rest⟩]

theorem trimmed_of_solid {inner : List Char} (solid : ∀ c ∈ inner, ¬WhiteSpace c) : Trimmed inner inner where
  around := ⟨[], [], by simp, by simp, by simp⟩
  first c first := solid c (List.mem_of_mem_head? first)
  last c last := solid c (List.mem_of_getLast? last)

theorem digits?_map_toLower (base : Nat) (text : List Char) :
    digits? base (text.map Char.toLower) = digits? base text := by
  cases text with
  | nil => rfl
  | cons c rest =>
    rw [List.map_cons, digits?_of_ne_nil base (List.cons_ne_nil _ _), digits?_of_ne_nil base (List.cons_ne_nil _ _),
      ← List.map_cons, readOn, List.foldlM_map]
    simp only [digit?_toLower]
    rfl

theorem solid_of_numeral {base : Nat} (known : base ≤ 16) {text : List Char} {n : Nat}
    (numeral : Numeral base text n) : ∀ c ∈ text, ¬WhiteSpace c := by
  obtain ⟨_, ds, digits, _⟩ := numeral
  clear * - known digits
  intro c inside
  induction digits with
  | nil => cases inside
  | cons digit _ ih =>
    rcases List.mem_cons.mp inside with rfl | inside
    · exact not_whiteSpace_of_digit? ((digit?_eq_some_iff known _ _).mpr digit)
    · exact ih inside

theorem word?_hexadecimal {mark : Char} {body : List Char} {w : Word} (marked : mark = 'x' ∨ mark = 'X')
    (value : digits? 16 (body.filter (· != '_')) = some w.toNat) :
    word? (String.ofList ('0' :: mark :: body)) = some w := by
  have numeral := (digits?_eq_some_iff (Nat.le_refl 16) _ _).mp value
  have solid : ∀ c ∈ '0' :: mark :: body, ¬WhiteSpace c := by
    intro c inside
    rcases List.mem_cons.mp inside with rfl | inside
    · simp [WhiteSpace]
    · rcases List.mem_cons.mp inside with rfl | inside
      · rcases marked with rfl | rfl <;> simp [WhiteSpace]
      · by_cases underscore : c = '_'
        · simp [underscore, WhiteSpace]
        · exact solid_of_numeral (Nat.le_refl 16) numeral c (List.mem_filter.mpr ⟨inside, by simpa using underscore⟩)
  rw [word?_eq_some_iff, String.toList_ofList, trim_of_trimmed (trimmed_of_solid solid)]
  exact .hexadecimal marked ⟨_, .inl rfl, numeral⟩

theorem word?_decimal {text : List Char} {w : Word} (value : digits? 10 text = some w.toNat) :
    word? (String.ofList text) = some w := by
  have numeral := (digits?_eq_some_iff (by decide : 10 ≤ 16) _ _).mp value
  rw [word?_eq_some_iff, String.toList_ofList,
    trim_of_trimmed (trimmed_of_solid (solid_of_numeral (by decide) numeral))]
  refine .decimal ?_ ⟨text, .inl rfl, numeral⟩
  obtain ⟨_, ds, digits, _⟩ := numeral
  have unmarked (mark : Char) (rest : List Char) (letter : digit? 10 mark = none) :
      text ≠ '0' :: mark :: rest := by
    rintro rfl
    obtain _ | ⟨_, _ | ⟨digit, _⟩⟩ := digits
    rw [← digit?_eq_some_iff (by decide), letter] at digit
    cases digit
  exact fun rest => ⟨unmarked 'x' rest rfl, unmarked 'X' rest rfl⟩

/-- Only a word that no rule accepts is shown as data, since no mnemonic begins with a dot. -/
theorem word?_data {w : Word} {text : String} (data : disassemble w = ".long " ++ text) :
    word? text = some w := by
  have dotted : ".long".toList <+: (disassemble w).toList := by
    rw [data]
    exact ⟨' ' :: text.toList, by simp⟩
  cases found : Rule.find? w with
  | some r =>
    have recognized : ((Identification.plain w).classified r.kind).unrecognized = false := by
      cases r.kind <;> rfl
    rw [Assembler.starts_as_data_iff] at dotted
    unfold identify at dotted
    rw [found] at dotted
    exact absurd (recognized.symm.trans dotted) Bool.false_ne_true
  | none =>
    have same := Assembler.disassemble_of_missing found
    have spelled : text = String.ofList (Operand.word w).text := by
      apply String.toList_injective
      rw [data] at same
      simpa [Assembler.listing] using same
    have plain (digits : List Char) (inside : ∀ c ∈ digits, ∃ d, c = Nat.digitChar d) :
        digits.filter (· != '_') = digits := by
      rw [List.filter_eq_self]
      intro c member
      obtain ⟨d, rfl⟩ := inside c member
      exact bne_iff_ne.mpr (Nat.digitChar_ne '_' (by decide))
    rw [spelled, Operand.word_text]
    apply word?_hexadecimal (.inl rfl)
    rw [plain, digits?_padded (by decide) (by decide)]
    intro c member
    rcases List.mem_append.mp member with zero | digit
    · exact ⟨0, List.eq_of_mem_replicate zero⟩
    · exact exists_digit (by decide) digit

/-- Exactly the literals are read. In particular a word is read back from its digits, hexadecimal ones in
either case and with underscores among them, with zeros before them, and from the text that shows it as
data. -/
theorem literals_read :
    (∀ (text : String) (w : Word),
      word? text = some w ↔ ∃ inner, Trimmed text.toList inner ∧ Literal inner w.toNat) ∧
    (∀ (w : Word) (k : Nat) (mark : Char) (body : List Char), mark = 'x' ∨ mark = 'X' →
      (body.filter (· != '_')).map Char.toLower = List.replicate k '0' ++ Nat.toDigits 16 w.toNat →
      word? (String.ofList ('0' :: mark :: body)) = some w) ∧
    (∀ (w : Word) (k : Nat),
      word? (String.ofList (List.replicate k '0' ++ Nat.toDigits 10 w.toNat)) = some w) ∧
    ∀ (w : Word) (text : String), disassemble w = ".long " ++ text → word? text = some w := by
  refine ⟨?_, ?_, ?_, fun w text => word?_data⟩
  · intro text w
    rw [word?_eq_some_iff]
    constructor
    · intro literal
      exact ⟨_, trimmed_trim _, literal⟩
    · rintro ⟨inner, trimmed, literal⟩
      rwa [trim_of_trimmed trimmed]
  · intro w k mark body marked spelled
    apply word?_hexadecimal marked
    rw [← digits?_map_toLower, spelled, digits?_padded (by decide) (by decide)]
  · intro w k
    exact word?_decimal (digits?_padded (by decide) (by decide) k w.toNat)

/-- White space outside, digits in both cases, torn apart or with zeros before them, and a word shown as
data. -/
theorem literals_read_of_branch :
    (∃ inner, Trimmed "\t0X0_4cE4_1421 \u3000".toList inner ∧ Literal inner 0x4ce41421) ∧
      word? "0x__4Ce41421_" = some 0x4ce41421 ∧ word? "001290015777" = some 0x4ce41421 ∧
      disassemble 7 = ".long 0x00000007" ∧ word? "0x00000007" = some 7 := by
  obtain ⟨read, hexadecimal, decimal, data⟩ := literals_read
  have spaced : word? "\t0X0_4cE4_1421 \u3000" = some 0x4ce41421 := by decide
  have shown : disassemble 7 = ".long 0x00000007" := by decide
  exact ⟨(read _ _).mp spaced, hexadecimal _ 0 'x' "__4Ce41421_".toList (.inl rfl) (by decide),
    decimal 0x4ce41421 2, shown, data 7 _ shown⟩

end IdentifyBench.CommandLine

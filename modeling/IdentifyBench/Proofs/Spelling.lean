import IdentifyBench.Document.Token
import Mathlib.Data.Nat.Digits.Defs
import Mathlib.Tactic.IntervalCases

/-! How the tokens of a JSON text are written, whatever stands between them and however a text in
quotes is escaped, and that each is read as what it is. A reader that skips a token takes more: any
number, and escapes that stand for no character. -/
namespace IdentifyBench.Document

/-- White space, which may stand around any token. -/
def Blank (text : List Char) : Prop := ∀ c ∈ text, c ∈ [' ', '\n', '\t', '\r']

/-- What can follow a value: nothing, white space, a comma or a closing bracket. -/
def Apart (rest : List Char) : Prop :=
  ∀ c ∈ rest.head?, c ∈ [' ', '\n', '\t', '\r', ',', ']', '}']

theorem apart_cons {c : Char} (rest : List Char) (ends : c ∈ [',', ']', '}']) :
    Apart (c :: rest) := by
  intro d first
  cases Option.mem_some.mp first
  exact List.mem_append_right [' ', '\n', '\t', '\r'] ends

theorem Apart.of_blank {blank rest : List Char} (space : Blank blank) (apart : Apart rest) :
    Apart (blank ++ rest) := by
  cases blank with
  | nil => exact apart
  | cons c blank =>
    intro d first
    cases Option.mem_some.mp first
    exact List.mem_append_left [',', ']', '}'] (space c List.mem_cons_self)

/-! ### Tokens one after another -/

theorem tokens_cons {c : Char} {rest : List Char} {token : Token} {n : Nat}
    (solid : isBlank c = false) (read : tokenFrom c rest = (token, n))
    (readable : token.unreadable = false) : tokens (c :: rest) = token :: tokens (rest.drop n) := by
  rw [tokens, solid, read]
  simp [readable]

theorem tokens_blank {blank : List Char} (space : Blank blank) (rest : List Char) :
    tokens (blank ++ rest) = tokens rest := by
  induction blank with
  | nil => rfl
  | cons c blank ih =>
    have white : isBlank c = true := by
      have one := space c List.mem_cons_self
      simpa [isBlank, or_assoc] using one
    rw [List.cons_append, tokens, if_pos white]
    exact ih fun d inside => space d (List.mem_cons_of_mem c inside)

theorem tokens_null (rest : List Char) :
    tokens ("null".toList ++ rest) = .literal (.value .null) :: tokens rest :=
  tokens_cons rfl rfl rfl

theorem tokens_true (rest : List Char) :
    tokens ("true".toList ++ rest) = .literal (.value (.bool true)) :: tokens rest :=
  tokens_cons rfl rfl rfl

theorem tokens_false (rest : List Char) :
    tokens ("false".toList ++ rest) = .literal (.value (.bool false)) :: tokens rest :=
  tokens_cons rfl rfl rfl

/-! ### Texts in quotes -/

/-- The characters that may follow a backslash, and what they stand for. -/
def escapes : List (Char × Char) :=
  [('"', '"'), ('\\', '\\'), ('/', '/'), ('b', '\x08'), ('f', '\x0c'), ('n', '\n'), ('r', '\r'),
    ('t', '\t')]

def HexDigit (c : Char) (n : Nat) : Prop :=
  n < 16 ∧ (c = Nat.digitChar n ∨ c = (Nat.digitChar n).toUpper)

inductive Hex : List Char → Nat → Prop
  | four {a b c d : Char} {i j k l : Nat} (first : HexDigit a i) (second : HexDigit b j)
      (third : HexDigit c k) (fourth : HexDigit d l) :
      Hex [a, b, c, d] (((i * 16 + j) * 16 + k) * 16 + l)

/-- A character that stands for itself in a text. -/
def Plain (c : Char) : Prop := 0x20 ≤ c.toNat ∧ c ≠ '"' ∧ c ≠ '\\'

/-- How a text can be written between its quotes: each character as itself, escaped, or by the one
or two units that encode it. -/
inductive Spells : List Char → List Char → Prop
  | nil : Spells [] []
  | plain {c : Char} {chars text : List Char} (plain : Plain c) (rest : Spells chars text) :
      Spells (c :: chars) (c :: text)
  | escape {c d : Char} {chars text : List Char} (escape : (c, d) ∈ escapes)
      (rest : Spells chars text) : Spells (d :: chars) ('\\' :: c :: text)
  | unit {hex chars text : List Char} {unit : Nat} (four : Hex hex unit)
      (alone : unit < 0xd800 ∨ 0xdfff < unit) (rest : Spells chars text) :
      Spells (.ofNat unit :: chars) ('\\' :: 'u' :: (hex ++ text))
  | pair {high low chars text : List Char} {first second : Nat} (four : Hex high first)
      (again : Hex low second) (firstHalf : 0xd800 ≤ first ∧ first ≤ 0xdbff)
      (secondHalf : 0xdc00 ≤ second ∧ second ≤ 0xdfff) (rest : Spells chars text) :
      Spells (.ofNat ((first - 0xd800) * 0x400 + (second - 0xdc00) + 0x10000) :: chars)
        ('\\' :: 'u' :: (high ++ '\\' :: 'u' :: (low ++ text)))

inductive Body : List Char → Prop
  | nil : Body []
  | plain {c : Char} {text : List Char} (plain : Plain c) (rest : Body text) : Body (c :: text)
  | escape {c d : Char} {text : List Char} (escape : (c, d) ∈ escapes) (rest : Body text) :
      Body ('\\' :: c :: text)
  | unit {hex text : List Char} {unit : Nat} (four : Hex hex unit) (rest : Body text) :
      Body ('\\' :: 'u' :: (hex ++ text))

theorem spells_plain {chars : List Char} (plain : ∀ c ∈ chars, Plain c) : Spells chars chars := by
  induction chars with
  | nil => exact .nil
  | cons c chars ih =>
    obtain ⟨first, plain⟩ := List.forall_mem_cons.mp plain
    exact .plain first (ih plain)

theorem Spells.body {chars text : List Char} (spells : Spells chars text) : Body text := by
  induction spells with
  | nil => exact .nil
  | plain plain _ ih => exact .plain plain ih
  | escape escape _ ih => exact .escape escape ih
  | unit four _ _ ih => exact .unit four ih
  | pair four again _ _ _ ih => exact .unit four (.unit again ih)

theorem HexDigit.read {c : Char} {n : Nat} (digit : HexDigit c n) : hexDigit? c = some n := by
  obtain ⟨below, rfl | rfl⟩ := digit <;> interval_cases n <;> rfl

theorem Hex.read {hex : List Char} {unit : Nat} (four : Hex hex unit) (rest : List Char) :
    hexUnit (hex ++ rest) = .ok unit := by
  cases four with
  | four first second third fourth =>
    simp [hexUnit, first.read, second.read, third.read, fourth.read]

theorem Hex.length {hex : List Char} {unit : Nat} (four : Hex hex unit) : hex.length = 4 := by
  cases four
  rfl

theorem quotedFrom_plain {c : Char} (plain : Plain c) (text : List Char) :
    quotedFrom 0 (c :: text) = (quotedFrom 0 text).cons c 1 := by
  obtain ⟨printable, quote, backslash⟩ := plain
  rw [quotedFrom, if_neg (Nat.not_lt.mpr printable)] <;> simp_all

theorem quotedFrom_escape {c d : Char} (escape : (c, d) ∈ escapes) (text : List Char) :
    quotedFrom 0 ('\\' :: c :: text) = (quotedFrom 0 text).cons d 2 := by
  simp only [escapes, List.mem_cons, Prod.mk.injEq, List.not_mem_nil, or_false] at escape
  rcases escape with ⟨rfl, rfl⟩ | ⟨rfl, rfl⟩ | ⟨rfl, rfl⟩ | ⟨rfl, rfl⟩ | ⟨rfl, rfl⟩ | ⟨rfl, rfl⟩ |
    ⟨rfl, rfl⟩ | ⟨rfl, rfl⟩ <;> rfl

section

variable {hex : List Char} {unit : Nat} (four : Hex hex unit) (text : List Char)

include four

theorem quotedFrom_hex : quotedFrom 4 (hex ++ text) = quotedFrom 0 text := by
  cases four
  rfl

theorem quotedFrom_hex_escape : quotedFrom 6 ('\\' :: 'u' :: (hex ++ text)) = quotedFrom 0 text := by
  cases four
  rfl

theorem quotedFrom_single (alone : unit < 0xd800 ∨ 0xdfff < unit) :
    quotedFrom 0 ('\\' :: 'u' :: (hex ++ text)) = (quotedFrom 0 text).cons (.ofNat unit) 6 := by
  rw [quotedFrom, four.read]
  dsimp only
  rw [if_neg (by omega), if_neg (by omega), quotedFrom_hex four]

theorem quotedFrom_low (half : 0xdc00 ≤ unit ∧ unit ≤ 0xdfff) :
    quotedFrom 0 ('\\' :: 'u' :: (hex ++ text)) = (quotedFrom 0 text).refuse .malformed 6 := by
  rw [quotedFrom, four.read]
  dsimp only
  rw [if_pos half, quotedFrom_hex four]

variable (half : 0xd800 ≤ unit ∧ unit ≤ 0xdbff)

include half

theorem quotedFrom_pair {c : Char} (paired : secondHalf unit text = .ok c) :
    quotedFrom 0 ('\\' :: 'u' :: (hex ++ text)) = (quotedFrom 6 text).cons c 12 := by
  have next : (hex ++ text).drop 4 = text := List.drop_left' four.length
  rw [quotedFrom, four.read]
  dsimp only
  rw [if_neg (by omega), if_pos half, next, paired]
  cases four
  rfl

theorem quotedFrom_high {f : Fault} (unpaired : secondHalf unit text = .error f) :
    quotedFrom 0 ('\\' :: 'u' :: (hex ++ text)) = (quotedFrom 0 text).refuse f 6 := by
  have next : (hex ++ text).drop 4 = text := List.drop_left' four.length
  rw [quotedFrom, four.read]
  dsimp only
  rw [if_neg (by omega), if_pos half, next, unpaired, ← quotedFrom_hex four]

end

theorem secondHalf_unit {hex : List Char} {first second : Nat} (four : Hex hex second)
    (half : 0xdc00 ≤ second ∧ second ≤ 0xdfff) (text : List Char) :
    secondHalf first ('\\' :: 'u' :: (hex ++ text)) =
      .ok (.ofNat ((first - 0xd800) * 0x400 + (second - 0xdc00) + 0x10000)) := by
  rw [secondHalf, four.read]
  exact if_pos half

theorem Spells.read {chars text : List Char} (spells : Spells chars text) (rest : List Char) :
    quotedFrom 0 (text ++ '"' :: rest) = ⟨.ok chars, .ok (), text.length + 1⟩ := by
  induction spells with
  | nil => rfl
  | plain plain _ ih =>
    rw [List.cons_append, quotedFrom_plain plain, ih]
    rfl
  | escape escape _ ih =>
    rw [List.cons_append, List.cons_append, quotedFrom_escape escape, ih]
    rfl
  | unit four alone _ ih =>
    rw [List.cons_append, List.cons_append, List.append_assoc, quotedFrom_single four _ alone, ih]
    simp [Quoted.cons, Except.map, four.length]
    omega
  | @pair high low chars text first second four again firstHalf half _ ih =>
    rw [List.cons_append, List.cons_append, List.append_assoc, List.cons_append, List.cons_append,
      List.append_assoc, quotedFrom_pair four _ firstHalf (secondHalf_unit again half _),
      quotedFrom_hex_escape again, ih]
    simp [Quoted.cons, Except.map, four.length, again.length]
    omega

theorem exists_unit_of_secondHalf {text rest : List Char} {first : Nat} {c : Char}
    (body : Body text) (read : secondHalf first (text ++ '"' :: rest) = .ok c) :
    ∃ low second after, Hex low second ∧ text = '\\' :: 'u' :: (low ++ after) := by
  cases body with
  | nil => cases read
  | plain plain _ =>
    rw [List.cons_append, secondHalf] at read
    · cases read
    all_goals simp [plain.2.2]
  | escape escape _ =>
    rw [List.cons_append, List.cons_append, secondHalf] at read
    · cases read
    · simp
    · rintro same
      simp at same
    · rintro _ same
      simp at same
      simp [escapes, same] at escape
  | unit four _ => exact ⟨_, _, _, four, rfl⟩

/-- A reader that skips a text finds its end, also past a half of a pair that stands alone. -/
theorem Body.skipped {text : List Char} (body : Body text) (rest : List Char) :
    (quotedFrom 0 (text ++ '"' :: rest)).skipped = .ok () ∧
      (quotedFrom 0 (text ++ '"' :: rest)).size = text.length + 1 := by
  -- A pair is read at once, so the text after the next escape is accounted for as well.
  suffices both : ((quotedFrom 0 (text ++ '"' :: rest)).skipped = .ok () ∧
      (quotedFrom 0 (text ++ '"' :: rest)).size = text.length + 1) ∧
      ∀ hex unit after, Hex hex unit → text = '\\' :: 'u' :: (hex ++ after) →
        (quotedFrom 0 (after ++ '"' :: rest)).skipped = .ok () ∧
          (quotedFrom 0 (after ++ '"' :: rest)).size = after.length + 1 from both.1
  induction body with
  | nil =>
    refine ⟨⟨rfl, rfl⟩, ?_⟩
    intro hex unit after _ same
    exact absurd same (List.cons_ne_nil _ _).symm
  | plain plain _ ih =>
    refine ⟨?_, ?_⟩
    · rw [List.cons_append, quotedFrom_plain plain]
      simp [Quoted.cons, ih.1]
    · intro hex unit after _ same
      exact absurd (List.cons.inj same).1 plain.2.2
  | escape escape _ ih =>
    refine ⟨?_, ?_⟩
    · rw [List.cons_append, List.cons_append, quotedFrom_escape escape]
      simp [Quoted.cons, ih.1]
    · intro hex unit after _ same
      simp at same
      simp [escapes, same] at escape
  | @unit hex text unit four body ih =>
    have single : text.length + 1 + 6 = hex.length + text.length + 2 + 1 := by
      have := four.length
      omega
    refine ⟨?_, ?_⟩
    · rw [List.cons_append, List.cons_append, List.append_assoc]
      by_cases low : 0xdc00 ≤ unit ∧ unit ≤ 0xdfff
      · rw [quotedFrom_low four _ low]
        simp [Quoted.refuse, ih.1, single]
      · by_cases high : 0xd800 ≤ unit ∧ unit ≤ 0xdbff
        · cases read : secondHalf unit (text ++ '"' :: rest) with
          | error f =>
            rw [quotedFrom_high four _ high read]
            simp [Quoted.refuse, ih.1, single]
          | ok c =>
            obtain ⟨second, value, after, again, rfl⟩ := exists_unit_of_secondHalf body read
            have covered := ih.2 second value after again rfl
            rw [quotedFrom_pair four _ high read]
            simp [Quoted.cons, quotedFrom_hex_escape again, covered]
            have := four.length
            have := again.length
            omega
        · rw [quotedFrom_single four _ (by omega)]
          simp [Quoted.cons, ih.1, single]
    · intro hex' unit' after four' same
      have parts := List.append_inj (List.cons.inj (List.cons.inj same).2).2
        (four.length.trans four'.length.symm)
      rw [← parts.2]
      exact ih.1

theorem tokens_text {chars text : List Char} (spells : Spells chars text) (rest : List Char) :
    tokens ('"' :: (text ++ '"' :: rest)) = .text (.value (String.ofList chars)) :: tokens rest := by
  have read : tokenFrom '"' (text ++ '"' :: rest) =
      (.text (.value (String.ofList chars)), text.length + 1) := by
    show quoted _ = _
    rw [quoted, spells.read]
    rfl
  rw [tokens_cons rfl read rfl]
  simp

theorem tokens_body {text : List Char} (body : Body text) (rest : List Char) :
    ∃ strict, tokens ('"' :: (text ++ '"' :: rest)) = .text ⟨strict, .ok ()⟩ :: tokens rest := by
  obtain ⟨skipped, size⟩ := body.skipped rest
  have read : tokenFrom '"' (text ++ '"' :: rest) =
      (.text ⟨(quotedFrom 0 (text ++ '"' :: rest)).strict.map String.ofList, .ok ()⟩,
        text.length + 1) := by
    show quoted _ = _
    rw [quoted, skipped, size]
  rw [tokens_cons rfl read rfl]
  simp

/-! ### Numbers -/

def Digits (digits : List Char) : Prop := digits ≠ [] ∧ ∀ c ∈ digits, c.isDigit = true

inductive Fraction : List Char → Option (List Char) → Prop
  | none : Fraction [] none
  | point {ds : List Char} (digits : Digits ds) : Fraction ('.' :: ds) (some ds)

inductive Sign : List Char → Bool → Prop
  | none : Sign [] false
  | plus : Sign ['+'] false
  | minus : Sign ['-'] true

inductive Exponent : List Char → Option (Bool × List Char) → Prop
  | none : Exponent [] none
  | power {e : Char} {sign ds : List Char} {negative : Bool} (letter : e = 'e' ∨ e = 'E')
      (signed : Sign sign negative) (digits : Digits ds) :
      Exponent (e :: (sign ++ ds)) (some (negative, ds))

inductive Numeric : List Char → Prop
  | positive {n : Nat} {fraction exponent : List Char} {f : Option (List Char)}
      {e : Option (Bool × List Char)} (decimals : Fraction fraction f) (power : Exponent exponent e) :
      Numeric (Nat.toDigits 10 n ++ (fraction ++ exponent))
  | negative {n : Nat} {fraction exponent : List Char} {f : Option (List Char)}
      {e : Option (Bool × List Char)} (decimals : Fraction fraction f) (power : Exponent exponent e) :
      Numeric ('-' :: (Nat.toDigits 10 n ++ (fraction ++ exponent)))

theorem digits_toDigits (n : Nat) : Digits (Nat.toDigits 10 n) :=
  ⟨Nat.toDigits_ne_nil, fun _ => Nat.isDigit_of_mem_toDigits (by omega) (by omega)⟩

theorem toDigits_zero_head {n : Nat} {rest : List Char}
    (zero : Nat.toDigits 10 n = '0' :: rest) : rest = [] := by
  induction n using Nat.strongRecOn generalizing rest with
  | ind n ih =>
    rw [Nat.toDigits_eq_if (by omega)] at zero
    split at zero
    · exact (List.cons.inj zero).2.symm
    · rename_i large
      cases high : Nat.toDigits 10 (n / 10) with
      | nil => exact absurd high Nat.toDigits_ne_nil
      | cons c more =>
        rw [high, List.cons_append] at zero
        obtain ⟨rfl, _⟩ := List.cons.inj zero
        have alone := ih (n / 10) (by omega) high
        have single : n / 10 = 0 := by
          rw [← Nat.ofDigitChars_ten_toDigits (n := n / 10), high, alone]
          rfl
        omega

def Stops (rest : List Char) : Prop := ∀ c ∈ rest.head?, c.isDigit = false

theorem digitsOf_append {digits rest : List Char} (inside : ∀ c ∈ digits, c.isDigit = true)
    (stops : Stops rest) : digitsOf (digits ++ rest) = digits := by
  have nothing : rest.takeWhile Char.isDigit = [] := by
    cases rest with
    | nil => rfl
    | cons c rest => simp [stops c rfl]
  rw [digitsOf, List.takeWhile_append_of_pos inside, nothing, List.append_nil]

theorem Apart.first {rest : List Char} (apart : Apart rest) :
    ∀ c ∈ rest.head?, c.isDigit = false ∧ c ∉ ['.', 'e', 'E'] := by
  intro c first
  have ends := apart c first
  simp at ends
  rcases ends with rfl | rfl | rfl | rfl | rfl | rfl | rfl <;> decide

theorem exponentOf_digits {sign ds rest : List Char} {below : Bool} (signed : Sign sign below)
    (digits : Digits ds) (stops : Stops rest) (n : Numeral) (used : Nat) :
    exponentOf n used (sign ++ (ds ++ rest)) =
      (.number { n with exponent := some (below, ds) }.reading,
        used + sign.length + ds.length) := by
  have read := digitsOf_append digits.2 stops
  obtain ⟨c, cs, rfl⟩ := List.exists_cons_of_ne_nil digits.1
  rw [List.cons_append] at read
  cases signed with
  | none =>
    have digit := digits.2 c List.mem_cons_self
    have plus : c ≠ '+' := by
      rintro rfl
      cases digit
    have minus : c ≠ '-' := by
      rintro rfl
      cases digit
    unfold exponentOf
    split
    rename_i split
    split at split <;> simp_all
  | plus =>
    unfold exponentOf
    simp [read]
  | minus =>
    unfold exponentOf
    simp [read]

theorem afterDigits_exponent {exponent rest : List Char} {e : Option (Bool × List Char)}
    (power : Exponent exponent e) (apart : Apart rest) (negative : Bool) (whole : List Char)
    (fraction : Option (List Char)) (used : Nat) :
    afterDigits ⟨negative, whole, fraction, none⟩ used (exponent ++ rest) =
      (.number (Numeral.reading ⟨negative, whole, fraction, e⟩), used + exponent.length) := by
  cases power with
  | none =>
    unfold afterDigits
    split
    · rename_i same
      rw [List.nil_append] at same
      exact absurd (apart 'e' (by simp [same])) (by decide)
    · rename_i same
      rw [List.nil_append] at same
      exact absurd (apart 'E' (by simp [same])) (by decide)
    · rfl
  | @power letter sign ds below either signed digits =>
    have read := exponentOf_digits signed digits (fun c first => (apart.first c first).1)
      ⟨negative, whole, fraction, none⟩ (used + 1)
    have size : used + 1 + sign.length + ds.length = used + (letter :: (sign ++ ds)).length := by
      simp
      omega
    rw [List.cons_append, List.append_assoc, ← size, ← read]
    rcases either with rfl | rfl <;> rfl

theorem Exponent.first {exponent rest : List Char} {e : Option (Bool × List Char)}
    (power : Exponent exponent e) (apart : Apart rest) :
    ∀ c ∈ (exponent ++ rest).head?, c.isDigit = false ∧ c ≠ '.' := by
  intro c first
  cases power with
  | none => exact ⟨(apart.first c first).1, fun point => (apart.first c first).2 (by simp [point])⟩
  | power letter _ _ =>
    cases Option.mem_some.mp first
    rcases letter with rfl | rfl <;> decide

theorem digitsFrom_numeral {fraction exponent rest : List Char} {f : Option (List Char)}
    {e : Option (Bool × List Char)} (decimals : Fraction fraction f) (power : Exponent exponent e)
    (apart : Apart rest) (negative : Bool) (n : Nat) :
    digitsFrom negative 0 (Nat.toDigits 10 n ++ (fraction ++ (exponent ++ rest))) =
      (.number (Numeral.reading ⟨negative, Nat.toDigits 10 n, f, e⟩),
        (Nat.toDigits 10 n ++ (fraction ++ exponent)).length) := by
  have stops : Stops (fraction ++ (exponent ++ rest)) := by
    cases decimals with
    | none => exact fun c first => (power.first apart c first).1
    | point _ =>
      intro c first
      cases Option.mem_some.mp first
      rfl
  have whole := digitsOf_append (digits_toDigits n).2 stops
  unfold digitsFrom
  rw [whole]
  dsimp only
  rw [List.drop_left]
  split
  · rename_i empty
    exact absurd empty Nat.toDigits_ne_nil
  · rename_i zeros
    exact absurd (toDigits_zero_head zeros) (List.cons_ne_nil _ _)
  · cases decimals with
    | none =>
      have read := afterDigits_exponent power apart negative (Nat.toDigits 10 n) none
        (0 + (Nat.toDigits 10 n).length)
      split
      · rename_i same
        rw [List.nil_append] at same
        exact absurd rfl (power.first apart '.' (by simp [same])).2
      · simpa using read
    | @point ds digits =>
      have read := digitsOf_append digits.2 fun c first => (power.first apart c first).1
      have done := afterDigits_exponent power apart negative (Nat.toDigits 10 n) (some ds)
        (0 + (Nat.toDigits 10 n).length + 1 + ds.length)
      simp only [List.cons_append, read]
      split
      · exact absurd rfl digits.1
      · rw [List.drop_left]
        simpa [Nat.add_assoc, Nat.add_comm, Nat.add_left_comm] using done

theorem tokenFrom_digit {c : Char} (digit : c.isDigit = true) (text : List Char) :
    tokenFrom c text = ((digitsFrom false 0 (c :: text)).1, (digitsFrom false 0 (c :: text)).2 - 1) := by
  unfold tokenFrom
  split <;> first | cases digit | exact if_pos digit

theorem isBlank_digit {c : Char} (digit : c.isDigit = true) : isBlank c = false := by
  rw [Bool.eq_false_iff]
  intro white
  simp [isBlank] at white
  rcases white with ((rfl | rfl) | rfl) | rfl <;> cases digit

section

variable {fraction exponent rest : List Char} {f : Option (List Char)}
  {e : Option (Bool × List Char)} (decimals : Fraction fraction f) (power : Exponent exponent e)
  (apart : Apart rest) (n : Nat)

include decimals power apart

theorem tokens_positive :
    tokens (Nat.toDigits 10 n ++ (fraction ++ (exponent ++ rest))) =
      .number (Numeral.reading ⟨false, Nat.toDigits 10 n, f, e⟩) :: tokens rest := by
  have read := digitsFrom_numeral decimals power apart false n
  have digits := digits_toDigits n
  revert read digits
  cases Nat.toDigits 10 n with
  | nil => exact fun _ digits => absurd rfl digits.1
  | cons c cs =>
    intro read digits
    have digit := digits.2 c List.mem_cons_self
    rw [List.cons_append] at read ⊢
    have start := tokenFrom_digit digit (cs ++ (fraction ++ (exponent ++ rest)))
    rw [read] at start
    rw [tokens_cons (isBlank_digit digit) start rfl]
    simp [← List.append_assoc]

theorem tokens_negative :
    tokens ('-' :: (Nat.toDigits 10 n ++ (fraction ++ (exponent ++ rest)))) =
      .number (Numeral.reading ⟨true, Nat.toDigits 10 n, f, e⟩) :: tokens rest := by
  have read : tokenFrom '-' (Nat.toDigits 10 n ++ (fraction ++ (exponent ++ rest))) = _ :=
    digitsFrom_numeral decimals power apart true n
  rw [tokens_cons rfl read rfl]
  simp [← List.append_assoc]

end

theorem tokens_natural (n : UInt64) {rest : List Char} (apart : Apart rest) :
    tokens (Nat.toDigits 10 n.toNat ++ rest) = .number (.value (some n)) :: tokens rest := by
  have value : valueOf (Nat.toDigits 10 n.toNat) = n.toNat := Nat.ofDigitChars_ten_toDigits
  have natural : Numeral.natural? ⟨false, Nat.toDigits 10 n.toNat, none, none⟩ = some n := by
    unfold Numeral.natural?
    rw [if_neg (by simp), value, if_pos n.toNat_lt_size]
    simp
  have read : Numeral.reading ⟨false, Nat.toDigits 10 n.toNat, none, none⟩ = .value (some n) := by
    rw [Numeral.reading, natural]
    rfl
  rw [← read]
  exact tokens_positive .none .none apart n.toNat

theorem tokens_numeric {text rest : List Char} (numeric : Numeric text) (apart : Apart rest) :
    ∃ strict, tokens (text ++ rest) = .number ⟨strict, .ok ()⟩ :: tokens rest := by
  cases numeric with
  | positive decimals power =>
    rw [List.append_assoc, List.append_assoc, tokens_positive decimals power apart]
    exact ⟨_, rfl⟩
  | negative decimals power =>
    rw [List.cons_append, List.append_assoc, List.append_assoc,
      tokens_negative decimals power apart]
    exact ⟨_, rfl⟩

end IdentifyBench.Document

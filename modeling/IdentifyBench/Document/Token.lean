/-! Tokens of a JSON text. A token that is not well formed stays a token: what is wrong with it
counts only once a reader wants its value, and a strict reader minds more than one that skips the
value. After a token that nobody can read, the text is not looked at any further. -/
namespace IdentifyBench.Document

/-- Why a text cannot be read: it is not JSON, it breaks off, or it says something else than what
is asked for. -/
inductive Fault
  | malformed
  | truncated
  | mismatch
  deriving DecidableEq, Repr

inductive Literal
  | null
  | bool (value : Bool)
  deriving DecidableEq, Repr

/-- A scalar as strict readers and as skipping readers see it. A number that is no natural number
of 64 bits has no value here. -/
structure Reading (α : Type) where
  strict : Except Fault α
  skipped : Except Fault Unit

namespace Reading

variable {α : Type}

def value (x : α) : Reading α := ⟨.ok x, .ok ()⟩

def fault (f : Fault) : Reading α := ⟨.error f, .error f⟩

end Reading

inductive Token
  | openObject
  | closeObject
  | openList
  | closeList
  | comma
  | colon
  | literal (reading : Reading Literal)
  | number (reading : Reading (Option UInt64))
  | text (reading : Reading String)
  | stray

def isBlank (c : Char) : Bool := c == ' ' || c == '\n' || c == '\t' || c == '\r'

/-- Reads the rest of a literal after its first letter, with the number of letters read. -/
def literal (value : Literal) : List Char → List Char → Token × Nat
  | [], _ => (.literal (.value value), 0)
  | _ :: _, [] => (.literal (.fault .truncated), 0)
  | c :: rest, d :: text =>
    if c = d then
      let (token, n) := literal value rest text
      (token, n + 1)
    else (.literal (.fault .malformed), 0)

/-! ### Texts in quotes -/

def hexDigit? (c : Char) : Option Nat :=
  if '0' ≤ c ∧ c ≤ '9' then some (c.toNat - '0'.toNat)
  else if 'a' ≤ c ∧ c ≤ 'f' then some (c.toNat - 'a'.toNat + 10)
  else if 'A' ≤ c ∧ c ≤ 'F' then some (c.toNat - 'A'.toNat + 10)
  else none

/-- The number written by the next four characters. The text breaks off where fewer than four bytes
are left, whatever they are. -/
def hexUnit (text : List Char) : Except Fault Nat :=
  match text with
  | a :: b :: c :: d :: _ =>
    match hexDigit? a, hexDigit? b, hexDigit? c, hexDigit? d with
    | some a, some b, some c, some d => .ok (((a * 16 + b) * 16 + c) * 16 + d)
    | _, _, _, _ => .error .malformed
  | short => if (String.ofList short).utf8ByteSize < 4 then .error .truncated else .error .malformed

/-- The rest of a quoted text as it is read: what a strict reader has so far, and how many
characters it takes. -/
structure Quoted where
  strict : Except Fault (List Char)
  skipped : Except Fault Unit
  size : Nat

namespace Quoted

def closed : Quoted := ⟨.ok [], .ok (), 1⟩

def fault (f : Fault) : Quoted := ⟨.error f, .error f, 0⟩

def cons (c : Char) (n : Nat) (q : Quoted) : Quoted :=
  { q with strict := q.strict.map (c :: ·), size := q.size + n }

/-- A strict reader stops here, a skipping one goes on after `n` more characters. -/
def refuse (f : Fault) (n : Nat) (q : Quoted) : Quoted :=
  { q with strict := .error f, size := q.size + n }

end Quoted

def simpleEscape? (c : Char) : Option Char :=
  match c with
  | '"' => some '"'
  | '\\' => some '\\'
  | '/' => some '/'
  | 'b' => some '\x08'
  | 'f' => some '\x0c'
  | 'n' => some '\n'
  | 'r' => some '\r'
  | 't' => some '\t'
  | _ => none

/-- What stands for the character of a surrogate pair, or the fault of a strict reader, given the
first half and the text that follows it. -/
def secondHalf (first : Nat) (text : List Char) : Except Fault Char :=
  match text with
  | [] => .error .truncated
  | '\\' :: [] => .error .truncated
  | '\\' :: 'u' :: rest => do
    let second ← hexUnit rest
    if 0xdc00 ≤ second ∧ second ≤ 0xdfff then
      return .ofNat ((first - 0xd800) * 0x400 + (second - 0xdc00) + 0x10000)
    else throw .malformed
  | _ => .error .malformed

/-- Reads a text in quotes after its opening quote. The characters still covered by an escape that
was read ahead are counted by `covered` and passed over. -/
def quotedFrom : Nat → List Char → Quoted
  | _, [] => .fault .truncated
  | covered + 1, _ :: text => quotedFrom covered text
  | 0, '"' :: _ => .closed
  | 0, '\\' :: [] => .fault .truncated
  | 0, '\\' :: 'u' :: text =>
    match hexUnit text with
    | .error f => .fault f
    | .ok unit =>
      if 0xdc00 ≤ unit ∧ unit ≤ 0xdfff then (quotedFrom 4 text).refuse .malformed 6
      else if 0xd800 ≤ unit ∧ unit ≤ 0xdbff then
        match secondHalf unit (text.drop 4) with
        | .ok c => (quotedFrom 10 text).cons c 12
        | .error f => (quotedFrom 4 text).refuse f 6
      else (quotedFrom 4 text).cons (.ofNat unit) 6
  | 0, '\\' :: c :: text =>
    match simpleEscape? c with
    | some d => (quotedFrom 0 text).cons d 2
    | none => .fault .malformed
  | 0, c :: text =>
    if c.toNat < 0x20 then .fault .malformed else (quotedFrom 0 text).cons c 1

def quoted (text : List Char) : Token × Nat :=
  let q := quotedFrom 0 text
  (.text ⟨q.strict.map String.ofList, q.skipped⟩, q.size)

/-! ### Numbers -/

def digitsOf (text : List Char) : List Char := text.takeWhile Char.isDigit

def valueOf (digits : List Char) : Nat :=
  digits.foldl (fun n c => 10 * n + (c.toNat - '0'.toNat)) 0

/-- A decimal significand of at most 64 bits. Digits that no longer fit raise the exponent where
they stand before the point, and are dropped after it. -/
structure Significand where
  value : Nat
  exponent : Int
  full : Bool

namespace Significand

def fits (s : Significand) (digit : Nat) : Bool := s.value * 10 + digit < UInt64.size

def wholeDigit (s : Significand) (c : Char) : Significand :=
  let digit := c.toNat - '0'.toNat
  if !s.full && s.fits digit then { s with value := s.value * 10 + digit }
  else { s with exponent := s.exponent + 1, full := true }

def fractionDigit (s : Significand) (c : Char) : Significand :=
  let digit := c.toNat - '0'.toNat
  if !s.full && s.fits digit then
    { s with value := s.value * 10 + digit, exponent := s.exponent - 1 }
  else { s with full := true }

def ofDigits (whole fraction : List Char) : Significand :=
  fraction.foldl fractionDigit { whole.foldl wholeDigit ⟨0, 0, false⟩ with full := false }

def tooLarge (s : Significand) (shift : Int) : Bool :=
  let exponent := s.exponent + shift
  s.value ≠ 0 && 0 ≤ exponent &&
    (308 < exponent ||
      (s.value.toUInt64.toFloat * Float.ofScientific 1 false exponent.toNat).isInf)

end Significand

structure Numeral where
  negative : Bool
  whole : List Char
  fraction : Option (List Char)
  exponent : Option (Bool × List Char)

namespace Numeral

/-- A natural number is written without sign, point and exponent. -/
def natural? (n : Numeral) : Option UInt64 :=
  if n.negative || n.fraction.isSome || n.exponent.isSome then none
  else if valueOf n.whole < UInt64.size then some (valueOf n.whole).toUInt64
  else none

def tooLarge (n : Numeral) : Bool :=
  let significand := Significand.ofDigits n.whole (n.fraction.getD [])
  significand.tooLarge <|
    match n.exponent with
    | none => 0
    | some (false, digits) => valueOf digits
    | some (true, digits) => -valueOf digits

/-- Only a number that is no natural number of 64 bits can be too large. -/
def reading (n : Numeral) : Reading (Option UInt64) where
  strict :=
    match n.natural? with
    | some value => .ok (some value)
    | none => if n.tooLarge then .error .malformed else .ok none
  skipped := .ok ()

end Numeral

/-- A digit was expected before `text`: a strict reader calls a text that ends here truncated. -/
def missingDigit (text : List Char) : Token :=
  .number ⟨.error (if text.isEmpty then .truncated else .malformed), .error .malformed⟩

def exponentOf (n : Numeral) (used : Nat) (text : List Char) : Token × Nat :=
  let (negative, signs, text) :=
    match text with
    | '+' :: rest => (false, 1, rest)
    | '-' :: rest => (true, 1, rest)
    | rest => (false, 0, rest)
  match digitsOf text with
  | [] => (missingDigit text, 0)
  | digits =>
    (.number { n with exponent := some (negative, digits) }.reading, used + signs + digits.length)

def afterDigits (n : Numeral) (used : Nat) (text : List Char) : Token × Nat :=
  match text with
  | 'e' :: rest => exponentOf n (used + 1) rest
  | 'E' :: rest => exponentOf n (used + 1) rest
  | _ => (.number n.reading, used)

def digitsFrom (negative : Bool) (used : Nat) (text : List Char) : Token × Nat :=
  let whole := digitsOf text
  let rest := text.drop whole.length
  let used := used + whole.length
  match whole with
  | [] => (missingDigit text, 0)
  | '0' :: _ :: _ => (.number (.fault .malformed), 0)
  | _ =>
    match rest with
    | '.' :: rest =>
      match digitsOf rest with
      | [] => (missingDigit rest, 0)
      | fraction =>
        afterDigits ⟨negative, whole, some fraction, none⟩ (used + 1 + fraction.length)
          (rest.drop fraction.length)
    | _ => afterDigits ⟨negative, whole, none, none⟩ used rest

/-! ### The whole text -/

/-- The token that starts with `c`, and how many characters after `c` belong to it. -/
def tokenFrom (c : Char) (text : List Char) : Token × Nat :=
  match c with
  | '{' => (.openObject, 0)
  | '}' => (.closeObject, 0)
  | '[' => (.openList, 0)
  | ']' => (.closeList, 0)
  | ',' => (.comma, 0)
  | ':' => (.colon, 0)
  | '"' => quoted text
  | 'n' => literal .null ['u', 'l', 'l'] text
  | 't' => literal (.bool true) ['r', 'u', 'e'] text
  | 'f' => literal (.bool false) ['a', 'l', 's', 'e'] text
  | '-' => digitsFrom true 0 text
  | _ =>
    if c.isDigit then
      let (token, n) := digitsFrom false 0 (c :: text)
      (token, n - 1)
    else (.stray, 0)

def Token.unreadable : Token → Bool
  | .literal r => !r.skipped.isOk
  | .number r => !r.skipped.isOk
  | .text r => !r.skipped.isOk
  | _ => false

def tokens (text : List Char) : List Token :=
  match text with
  | [] => []
  | c :: rest =>
    if isBlank c then tokens rest
    else
      let (token, n) := tokenFrom c rest
      if token.unreadable then [token] else token :: tokens (rest.drop n)
  termination_by text.length
  decreasing_by all_goals simp_wf; try omega

end IdentifyBench.Document

import IdentifyBench.Word.Fields

/-! Numbers as they are written on the command line. -/
namespace IdentifyBench.CommandLine

/-- The characters of the Unicode property White_Space. -/
def blanks : List Char :=
  ['\t', '\n', '\x0b', '\x0c', '\r', ' ', '\u0085', '\u00a0', '\u1680', '\u2000', '\u2001',
   '\u2002', '\u2003', '\u2004', '\u2005', '\u2006', '\u2007', '\u2008', '\u2009', '\u200a',
   '\u2028', '\u2029', '\u202f', '\u205f', '\u3000']

def isBlank (c : Char) : Bool := blanks.contains c

def trim (text : List Char) : List Char :=
  ((text.dropWhile isBlank).reverse.dropWhile isBlank).reverse

def digit? (base : Nat) (c : Char) : Option Nat :=
  let value :=
    if c.isDigit then some (c.toNat - '0'.toNat)
    else if 'a' ≤ c ∧ c ≤ 'z' then some (c.toNat - 'a'.toNat + 10)
    else if 'A' ≤ c ∧ c ≤ 'Z' then some (c.toNat - 'A'.toNat + 10)
    else none
  value.filter (· < base)

def digits? (base : Nat) : List Char → Option Nat
  | [] => none
  | text => text.foldlM (fun n c => return base * n + (← digit? base c)) 0

/-- Digits that may follow a plus sign, with a value below a limit. -/
def number? (base limit : Nat) (text : List Char) : Option Nat :=
  let digits := match text with
    | '+' :: rest => rest
    | text => text
  (digits? base digits).filter (· < limit)

/-- Hexadecimal after `0x`, with underscores anywhere, and decimal otherwise. -/
def word? (text : String) : Option Word :=
  let value := match trim text.toList with
    | '0' :: 'x' :: rest => number? 16 UInt32.size (rest.filter (· != '_'))
    | '0' :: 'X' :: rest => number? 16 UInt32.size (rest.filter (· != '_'))
    | text => number? 10 UInt32.size text
  value.map (BitVec.ofNat 32)

def count? (text : String) : Option UInt64 := (number? 10 UInt64.size text.toList).map Nat.toUInt64

end IdentifyBench.CommandLine

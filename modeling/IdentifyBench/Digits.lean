import IdentifyBench.Word.Fields

/-! Numbers as text: bases other than ten, and columns of fixed width. -/
namespace IdentifyBench.Digits

def hex (n : Nat) : String := String.ofList (Nat.toDigits 16 n)

def binary (n : Nat) : String := String.ofList (Nat.toDigits 2 n)

def word (w : Word) : String :=
  let digits := Nat.toDigits 16 w.toNat
  "0x" ++ String.ofList (List.replicate (8 - digits.length) '0' ++ digits)

/-- Fills up with blanks on the right; a longer text stays whole. -/
def column (width : Nat) (text : String) : String :=
  text ++ String.ofList (List.replicate (width - text.length) ' ')

def boolean (b : Bool) : String := if b then "true" else "false"

def bit (b : Bool) : String := if b then "1" else "0"

end IdentifyBench.Digits

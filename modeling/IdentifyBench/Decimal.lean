/-! Two decimal places of a binary floating point number, rounded from its exact value. A half goes
to the even neighbour. -/
namespace IdentifyBench.Decimal

def roundHalfEven (numerator denominator : Nat) : Nat :=
  let floor := numerator / denominator
  let rest := 2 * (numerator % denominator)
  if rest < denominator ∨ (rest = denominator ∧ floor % 2 = 0) then floor else floor + 1

/-- Hundredths of the finite number with this significand and binary exponent. -/
def hundredths (significand : Nat) (exponent : Int) : Nat :=
  match exponent with
  | .ofNat up => (significand * 100) <<< up
  | .negSucc down => roundHalfEven (significand * 100) (1 <<< (down + 1))

/-- Finite numbers that are not negative have no other form. -/
def twoPlaces (x : Float) : String :=
  let bits : Nat := x.toBits.toNat
  let biased : Nat := (bits >>> 52) % 0x800
  let fraction : Nat := bits % 0x10000000000000
  let n :=
    if biased = 0 then hundredths fraction (-1074)
    else hundredths (0x10000000000000 + fraction) ((biased : Int) - 1075)
  let cents := toString (n % 100)
  toString (n / 100) ++ "." ++ (if cents.length < 2 then "0" ++ cents else cents)

def bits (x : Float) : String :=
  let digits := Nat.toDigits 16 x.toBits.toNat
  String.ofList (List.replicate (16 - digits.length) '0' ++ digits)

end IdentifyBench.Decimal

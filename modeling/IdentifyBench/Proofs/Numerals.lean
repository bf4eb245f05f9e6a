import IdentifyBench.CommandLine.Number
import IdentifyBench.Digits
import Mathlib.Tactic.IntervalCases

/-! Numerals read back. The digits of a number in any base up to sixteen are read as that number,
whatever zeros stand before them, and nothing that separates words can be one of them. -/
namespace IdentifyBench.CommandLine

theorem digit?_digitChar {base d : Nat} (known : base ≤ 16) (below : d < base) :
    digit? base (Nat.digitChar d) = some d := by
  have value (n : Nat) (least : n < 16) : digit? 16 (Nat.digitChar n) = some n := by
    interval_cases n <;> rfl
  have read := value d (Nat.lt_of_lt_of_le below known)
  unfold digit? at read ⊢
  rw [Option.filter_eq_some_iff] at read ⊢
  exact ⟨read.1, decide_eq_true below⟩

def readOn (base n : Nat) (text : List Char) : Option Nat :=
  text.foldlM (fun n c => return base * n + (← digit? base c)) n

theorem digits?_of_ne_nil (base : Nat) {text : List Char} (nonempty : text ≠ []) :
    digits? base text = readOn base 0 text := by
  cases text with
  | nil => exact absurd rfl nonempty
  | cons c rest => rfl

theorem readOn_append (base n : Nat) (left right : List Char) :
    readOn base n (left ++ right) = (readOn base n left).bind fun m => readOn base m right :=
  List.foldlM_append

theorem readOn_digit {base d : Nat} (known : base ≤ 16) (below : d < base) (n : Nat) :
    readOn base n [Nat.digitChar d] = some (base * n + d) := by
  unfold readOn
  rw [List.foldlM_cons, digit?_digitChar known below]
  rfl

section

variable {base : Nat} (more : 1 < base) (known : base ≤ 16)

include more known

theorem readOn_toDigits (n : Nat) : readOn base 0 (Nat.toDigits base n) = some n := by
  induction n using Nat.strongRecOn with
  | ind n ih =>
    rw [Nat.toDigits_eq_if more]
    split
    · rename_i below
      rw [readOn_digit known below, Nat.mul_zero, Nat.zero_add]
    · rename_i above
      have smaller : n / base < n := Nat.div_lt_self (by omega) more
      rw [readOn_append, ih _ smaller, Option.bind_some,
        readOn_digit known (Nat.mod_lt n (by omega)), Nat.div_add_mod]

theorem readOn_zeros (k : Nat) : readOn base 0 (List.replicate k '0') = some 0 := by
  induction k with
  | zero => rfl
  | succ k ih =>
    have zero : readOn base 0 ['0'] = some (base * 0 + 0) :=
      readOn_digit known (Nat.zero_lt_of_lt more) 0
    rw [List.replicate_succ, ← List.singleton_append, readOn_append, zero]
    exact ih

theorem digits?_padded (k n : Nat) :
    digits? base (List.replicate k '0' ++ Nat.toDigits base n) = some n := by
  rw [digits?_of_ne_nil base (List.append_ne_nil_of_right_ne_nil _ Nat.toDigits_ne_nil),
    readOn_append, readOn_zeros more known, Option.bind_some, readOn_toDigits more known]

theorem digits?_toDigits (n : Nat) : digits? base (Nat.toDigits base n) = some n :=
  digits?_padded more known 0 n

end

theorem exists_digit {base : Nat} (more : 1 < base) {n : Nat} {c : Char}
    (inside : c ∈ Nat.toDigits base n) : ∃ d, c = Nat.digitChar d := by
  induction n using Nat.strongRecOn with
  | ind n ih =>
    rw [Nat.toDigits_eq_if more] at inside
    split at inside
    · exact ⟨n, List.mem_singleton.mp inside⟩
    · rename_i above
      rcases List.mem_append.mp inside with earlier | final
      · exact ih _ (Nat.div_lt_self (by omega) more) earlier
      · exact ⟨n % base, List.mem_singleton.mp final⟩

end IdentifyBench.CommandLine

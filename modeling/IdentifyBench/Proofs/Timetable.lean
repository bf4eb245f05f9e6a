import IdentifyBench.Settings
import IdentifyBench.Clock
import IdentifyBench.Stimulus
import Mathlib.Algebra.Order.Floor.Div

/-! When things happen in a run, as plain arithmetic. The stage is enabled once the reset pulse and
the time to settle are over. The edge after that fetches the first word, and from then on words are
fetched at equal distances: at every edge, or where the fetch delay spans edges, at the first edge
that is not before the word fetched last is presented. -/
namespace IdentifyBench

structure Timetable where
  period : Nat
  reset : Nat
  settle : Nat
  fetch : Nat
  cycles : Nat

def Settings.timetable (s : Settings) : Timetable where
  period := s.clock.period.toNat
  reset := s.stimulus.reset.toNat
  settle := s.stimulus.settle.toNat
  fetch := s.stimulus.fetchDelay.toNat
  cycles := s.stimulus.cycles.toNat

namespace Timetable

variable (p : Timetable)

def enable : Nat := p.reset + p.settle

def stride : Nat := max 1 (p.fetch ⌈/⌉ p.period) * p.period

/-- The rising edge that fetches the word after the `n`-th. -/
def edge (n : Nat) : Nat := (p.enable ⌈/⌉ p.period) * p.period + n * p.stride

/-- The instant at which the `n`-th word is presented, counted from one. Before the first word there
is the instant at which the stage is enabled. -/
def word : Nat → Nat
  | 0 => p.enable
  | n + 1 => p.edge n + p.fetch

def stop : Nat := p.word p.cycles

variable {p}

theorem le_ceilDiv_mul (positive : 0 < p.period) (t : Nat) : t ≤ (t ⌈/⌉ p.period) * p.period := by
  rw [Nat.mul_comm, ← smul_eq_mul]
  exact le_smul_ceilDiv positive

theorem ceilDiv_mul_lt (positive : 0 < p.period) (t : Nat) :
    (t ⌈/⌉ p.period) * p.period < t + p.period := by
  rw [Nat.ceilDiv_eq_add_pred_div]
  have rounded := Nat.div_mul_le_self (t + p.period - 1) p.period
  omega

theorem edge_succ (n : Nat) : p.edge (n + 1) = p.edge n + p.stride := by
  rw [edge, edge, Nat.succ_mul, Nat.add_assoc]

theorem dvd_stride : p.period ∣ p.stride := Dvd.intro_left _ rfl

theorem dvd_edge (n : Nat) : p.period ∣ p.edge n :=
  Nat.dvd_add (Dvd.intro_left _ rfl) (Dvd.dvd.mul_left dvd_stride n)

theorem period_le_stride : p.period ≤ p.stride :=
  Nat.le_mul_of_pos_left _ (Nat.lt_of_lt_of_le Nat.one_pos (Nat.le_max_left _ _))

theorem stride_of_fetch_zero (immediate : p.fetch = 0) : p.stride = p.period := by
  simp [stride, immediate]

theorem stride_of_fetch_pos (positive : 0 < p.period) (delayed : 0 < p.fetch) :
    p.stride = (p.fetch ⌈/⌉ p.period) * p.period := by
  have spans : 1 ≤ p.fetch ⌈/⌉ p.period := by
    have enough := le_ceilDiv_mul positive p.fetch
    by_contra instant
    have zero : p.fetch ⌈/⌉ p.period = 0 := by omega
    rw [zero] at enough
    omega
  rw [stride, Nat.max_eq_right spans]

theorem fetch_le_stride (positive : 0 < p.period) : p.fetch ≤ p.stride := by
  rcases Nat.eq_zero_or_pos p.fetch with immediate | delayed
  · omega
  · rw [stride_of_fetch_pos positive delayed]
    exact le_ceilDiv_mul positive _

theorem stride_lt (positive : 0 < p.period) (delayed : 0 < p.fetch) :
    p.stride < p.fetch + p.period := by
  rw [stride_of_fetch_pos positive delayed]
  exact ceilDiv_mul_lt positive _

theorem reset_le_enable : p.reset ≤ p.enable := Nat.le_add_right _ _

theorem enable_le_edge_zero (positive : 0 < p.period) : p.enable ≤ p.edge 0 := by
  rw [edge, Nat.zero_mul, Nat.add_zero]
  exact le_ceilDiv_mul positive _

theorem edge_zero_lt (positive : 0 < p.period) : p.edge 0 < p.enable + p.period := by
  rw [edge, Nat.zero_mul, Nat.add_zero]
  exact ceilDiv_mul_lt positive _

theorem word_le_edge (positive : 0 < p.period) (n : Nat) : p.word n ≤ p.edge n := by
  cases n with
  | zero => exact enable_le_edge_zero positive
  | succ n =>
    rw [edge_succ]
    exact Nat.add_le_add_left (fetch_le_stride positive) _

theorem word_le_word_succ (positive : 0 < p.period) (n : Nat) : p.word n ≤ p.word (n + 1) :=
  Nat.le_trans (word_le_edge positive n) (Nat.le_add_right _ _)

theorem word_mono (positive : 0 < p.period) : Monotone p.word :=
  monotone_nat_of_le_succ (word_le_word_succ positive)

theorem word_succ_lt (positive : 0 < p.period) (n : Nat) : p.word (n + 1) < p.word (n + 2) := by
  have apart := period_le_stride (p := p)
  simp only [word, edge_succ]
  omega

theorem enable_le_word (positive : 0 < p.period) (n : Nat) : p.enable ≤ p.word n :=
  word_mono positive (Nat.zero_le n)

end Timetable

end IdentifyBench

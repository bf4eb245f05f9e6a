import IdentifyBench.Source
import IdentifyBench.Stimulus

/-! The words that a source supplies, by their number, and what a stimulus shows on the lines after
so many of them. -/
namespace IdentifyBench

namespace WordSource

variable {σ : Type} [WordSource σ]

def drop (source : σ) : Nat → σ
  | 0 => source
  | n + 1 => (next (drop source n)).2

/-- The answer to the request after the `n`-th. -/
def word? (source : σ) (n : Nat) : Option Word := (next (drop source n)).1

/-- The `n`-th word that is drawn, counted from one. The lines start with the word zero. -/
def drawn (source : σ) : Nat → Word
  | 0 => 0
  | n + 1 => (word? source n).getD 0

theorem drawn_of_word? {source : σ} {n : Nat} {word : Word} (supplied : word? source n = some word) :
    drawn source (n + 1) = word := by
  rw [drawn, supplied, Option.getD_some]

theorem drop_next (source : σ) (n : Nat) : drop (next source).2 n = drop source (n + 1) := by
  induction n with
  | zero => rfl
  | succ n ih => rw [drop, ih, ← drop]

theorem word?_next (source : σ) (n : Nat) : word? (next source).2 n = word? source (n + 1) := by
  rw [word?, drop_next, word?]

theorem drop_add (source : σ) (n k : Nat) : drop (drop source n) k = drop source (n + k) := by
  induction k with
  | zero => rfl
  | succ k ih => rw [drop, ih, ← Nat.add_assoc, drop]

theorem word?_drop (source : σ) (n k : Nat) : word? (drop source n) k = word? source (n + k) := by
  rw [word?, drop_add, word?]

theorem take_eq_map (n : Nat) (source : σ) : take n source = (List.range n).map (word? source) := by
  induction n generalizing source with
  | zero => rfl
  | succ n ih =>
    have rest : take n (next source).2 = (List.range n).map (word? source ∘ Nat.succ) := by
      rw [ih]
      exact List.map_congr_left fun k _ => word?_next source k
    rw [List.range_succ_eq_map, List.map_cons, List.map_map, ← rest]
    rfl

theorem word?_of_take {n : Nat} {source : σ} {words : List Word}
    (supplied : take n source = words.map some) {k : Nat} (below : k < n) :
    ∃ word, words[k]? = some word ∧ word? source k = some word := by
  have same : (take n source)[k]? = (words.map some)[k]? := by rw [supplied]
  rw [take_eq_map, List.getElem?_map, List.getElem?_range below, List.getElem?_map] at same
  cases word : words[k]? with
  | none =>
    rw [word] at same
    cases same
  | some w =>
    rw [word] at same
    exact ⟨w, rfl, Option.some.inj same⟩

theorem length_of_take {n : Nat} {source : σ} {words : List Word}
    (supplied : take n source = words.map some) : words.length = n := by
  have same := congrArg List.length supplied
  rw [take_eq_map, List.length_map, List.length_range, List.length_map] at same
  exact same.symm

theorem drop_list (words : List Word) (n : Nat) : drop words n = words.drop n := by
  induction n with
  | zero => rfl
  | succ n ih =>
    rw [drop, ih, ← List.tail_drop]
    cases words.drop n <;> rfl

theorem word?_list (words : List Word) (n : Nat) : word? words n = words[n]? := by
  rw [word?, drop_list, ← List.head?_drop]
  cases words.drop n <;> rfl

theorem drawn_of_take {n : Nat} {source : σ} {words : List Word}
    (supplied : take n source = words.map some) {k : Nat} (within : k ≤ n) :
    drawn words k = drawn source k := by
  cases k with
  | zero => rfl
  | succ k =>
    obtain ⟨word, listed, answered⟩ := word?_of_take supplied within
    rw [drawn_of_word? answered]
    exact drawn_of_word? ((word?_list words k).trans listed)

theorem exists_words {n : Nat} {source : σ} (supplied : ∀ k < n, (word? source k).isSome = true) :
    ∃ words : List Word, take n source = words.map some := by
  refine ⟨(List.range n).map fun k => drawn source (k + 1), ?_⟩
  rw [take_eq_map, List.map_map]
  refine List.map_congr_left fun k inside => ?_
  obtain ⟨word, answered⟩ := Option.isSome_iff_exists.mp (supplied k (List.mem_range.mp inside))
  rw [answered, Function.comp_apply, drawn_of_word? answered]

end WordSource

open WordSource

/-- The arbiter is full on the `n`-th word; before the first one it is not. -/
def StimulusSettings.fullOn (s : StimulusSettings) (n : Nat) : Bool :=
  n != 0 && (s.arbiterFullEvery.toNat != 0 && n % s.arbiterFullEvery.toNat == 0)

def Phase.enabled : Phase → Bool
  | .reset | .release | .enable => false
  | .awaitFetch | .present | .done => true

namespace Stimulus

variable {σ : Type} [WordSource σ]

def standing (s : StimulusSettings) (source : σ) (phase : Phase) (n : Nat) : Stimulus σ :=
  { new s (drop source n) with phase, issued := n }

def lines (s : StimulusSettings) (source : σ) (phase : Phase) (n : Nat) : StageInputs where
  word := drawn source n
  control := ⟨phase == .release, phase.enabled, s.fullOn n⟩

theorem fullOn_standing (s : StimulusSettings) (source : σ) (phase : Phase) (k n : Nat) :
    (standing s source phase k).fullOn (n + 1) = s.fullOn (n + 1) := by
  simp [fullOn, standing, new, StimulusSettings.fullOn]

variable {s : StimulusSettings} {source : σ} {n : Nat}

theorem nextCycle_of_more (more : n < s.cycles.toNat) (source : σ) (phase : Phase) :
    (standing s source phase n).nextCycle = (standing s source .awaitFetch n, .risingEdge) :=
  if_neg (Nat.not_le_of_lt more)

theorem nextCycle_of_all (all : s.cycles.toNat ≤ n) (source : σ) (phase : Phase) :
    (standing s source phase n).nextCycle = (standing s source .done n, .stop) :=
  if_pos all

variable (s)

theorem resume_present_some {word : Word} (supplied : word? source n = some word) (now : Instant)
    (b : Bus) :
    (standing s source .present n).resume now b =
      { stimulus := (standing s source .present (n + 1)).nextCycle.1
        bus := (b.write .word word).write .arbiterFull (s.fullOn (n + 1))
        wait := .ok (standing s source .present (n + 1)).nextCycle.2
        events := [.presented now word (s.fullOn (n + 1))] } := by
  have drawn : next (drop source n) = (some word, drop source (n + 1)) := Prod.ext supplied rfl
  have source_eq : (standing s source .present n).source = drop source n := rfl
  rw [← fullOn_standing s source .present n]
  unfold resume
  rw [show (standing s source .present n).phase = .present from rfl]
  dsimp only
  rw [source_eq, drawn]
  rfl

theorem resume_present_none (dry : word? source n = none) (now : Instant) (b : Bus) :
    (standing s source .present n).resume now b =
      { stimulus := { standing s source .present n with source := drop source (n + 1) }
        bus := b
        wait := .error (.exhausted n s.cycles.toNat)
        events := [] } := by
  have drawn : next (drop source n) = (none, drop source (n + 1)) := Prod.ext dry rfl
  have source_eq : (standing s source .present n).source = drop source n := rfl
  unfold resume
  rw [show (standing s source .present n).phase = .present from rfl]
  dsimp only
  rw [source_eq, drawn]
  rfl

end Stimulus

end IdentifyBench

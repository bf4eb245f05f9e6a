import IdentifyBench.Proofs.Running
import Mathlib.Order.Interval.Finset.Nat

/-! Which outcome a run over a list of words has. The run is heading for one instant: the stop, or the
one at which the first missing word is due. If the limit comes before it, the run ends at the limit,
and otherwise at that instant. -/
namespace IdentifyBench

open WordSource

namespace Timetable

variable {p : Timetable}

/-- The instant that a run over so many words is heading for. -/
def target (p : Timetable) (words : Nat) : Nat :=
  if p.cycles = 0 then p.enable
  else if p.cycles ≤ words then p.word p.cycles
  else p.word (words + 1)

theorem target_eq (words : Nat) : p.target words = p.word (min p.cycles (words + 1)) := by
  unfold target
  split
  · rename_i empty
    rw [empty, Nat.zero_min]
    rfl
  · split
    · rename_i enough
      rw [Nat.min_eq_left (Nat.le_succ_of_le enough)]
    · rename_i short
      rw [Nat.min_eq_right (Nat.lt_of_not_le short)]

theorem card_presented (positive : 0 < p.period) {limit n m : Nat} (most : n ≤ m)
    (before : 0 < n → p.word n ≤ limit) (after : n < m → limit < p.word (n + 1)) :
    ((Finset.Icc 1 m).filter (p.word · ≤ limit)).card = n := by
  have same : (Finset.Icc 1 m).filter (p.word · ≤ limit) = Finset.Icc 1 n := by
    ext i
    rw [Finset.mem_filter, Finset.mem_Icc, Finset.mem_Icc]
    constructor
    · rintro ⟨⟨first, inside⟩, due⟩
      refine ⟨first, ?_⟩
      by_contra beyond
      have later : p.word (n + 1) ≤ p.word i := word_mono positive (Nat.lt_of_not_le beyond)
      have bound := after (by omega)
      omega
    · rintro ⟨first, inside⟩
      have sooner := word_mono positive inside
      have bound := before (by omega)
      omega
  rw [same, Nat.card_Icc, Nat.add_sub_cancel]

end Timetable

namespace Recording

variable {κ : Type} [Sink κ] {s : Settings} {words : List Word}

theorem count_le_length {n : Nat} (supplied : ∀ k < n, (word? words k).isSome = true) :
    n ≤ words.length := by
  cases n with
  | zero => exact Nat.zero_le _
  | succ n =>
    obtain ⟨word, last⟩ := Option.isSome_iff_exists.mp (supplied n (Nat.lt_succ_self n))
    rw [word?_list] at last
    exact (List.getElem?_eq_some_iff.mp last).1

inductive Ending (s : Settings) (words : List Word) (turn : Turn (Recording (List Word) κ) Tally) : Prop
  | stop (enough : s.timetable.cycles ≤ words.length)
      (now : turn.state.bench.now = s.timetable.target words.length)
      (early : turn.state.bench.now < Instant.last)
      (within : ∀ limit ∈ s.general.maxTime, turn.state.bench.now ≤ limit.toNat)
      (stopped : turn.state.bench.stopped = true)
      (returns : turn.result = .ok turn.state.bench.tally)
  | limit {limit : UInt64} (given : limit ∈ s.general.maxTime) (early : limit.toNat < Instant.last)
      (beyond : limit.toNat < s.timetable.target words.length)
      (now : turn.state.bench.now ≤ limit.toNat)
      (issued : turn.state.bench.tally.wordsIssued =
        ((Finset.Icc 1 (min s.timetable.cycles words.length)).filter
          (s.timetable.word · ≤ limit.toNat)).card)
      (halts : turn.result = .error (.failure (.timeLimit limit.toNat)))
  | dry (short : words.length < s.timetable.cycles)
      (now : turn.state.bench.now = s.timetable.target words.length)
      (early : turn.state.bench.now < Instant.last)
      (within : ∀ limit ∈ s.general.maxTime, turn.state.bench.now ≤ limit.toNat)
      (issued : turn.state.bench.tally.wordsIssued = words.length)
      (told : turn.events.filter Event.isPresented = s.presentations words words.length)
      (halts : turn.result = .error (.failure (.exhausted words.length s.timetable.cycles)))
  | last {halt : Halt} (late : Instant.last ≤ s.timetable.target words.length)
      (within : ∀ limit ∈ s.general.maxTime, Instant.last ≤ limit.toNat)
      (endless : halt = .endless ∨ ∃ issued expected, halt = .failure (.exhausted issued expected))
      (halts : turn.result = .error halt)

theorem run_ending (out : κ) (wide : 2 ≤ s.timetable.period)
    (enough : 3 ≤ s.general.maxDeltaRounds.toNat) :
    Ending s words (fresh s words none out).run := by
  obtain ⟨turn, same⟩ : ∃ turn, turn = (fresh s words none out).run := ⟨_, rfl⟩
  have positive : 0 < s.timetable.period := Nat.lt_of_lt_of_le Nat.two_pos wide
  obtain ⟨k, since, phase, n, on, unfinished, _, _, ends⟩ :=
    run_ends words wide enough none out fun k _ _ _ => unbroken_of_none rfl k
  rw [← same] at ends
  rw [← same]
  have counted := count_le_length on.standing.supplied
  have target : s.timetable.word (min s.timetable.cycles (n + 1)) ≤ s.timetable.target words.length := by
    rw [Timetable.target_eq]
    exact Timetable.word_mono positive (by omega)
  unfold Turn.Ends at ends
  cases returned : turn.result with
  | ok tally =>
    rw [returned] at ends
    obtain ⟨rfl, _, more, outcome, _, advances⟩ := ends
    have enough := count_le_length advances.on.standing.supplied
    have stop : s.timetable.target words.length = s.timetable.word s.timetable.cycles := by
      rw [Timetable.target_eq, Nat.min_eq_left (by omega)]
    refine .stop enough ?_ advances.early ?_ ?_ returned
    · rw [stop]
      exact advances.now_of_done positive unfinished
    · exact fun limit given => advances.on.built.now_le given
    · rw [advances.on.standing.stopped]
      rfl
  | error halt =>
    rw [returned] at ends
    obtain ⟨more, halted, told⟩ := ends
    cases halted with
    | limited present passes beyond early halts now issued silent =>
      obtain ⟨limit, given, rfl⟩ := on.built.mem_limit.mp present
      have ahead := passes.le_word positive unfinished
      have kept := on.built.now_le given
      rw [halts] at returned
      refine .limit given early ?_ ?_ ?_ returned
      · exact Nat.lt_of_lt_of_le beyond (Nat.le_trans ahead target)
      · rw [now]
        exact kept
      · -- The last word presented was due before, and the next one is not due before the refused instant.
        rw [issued]
        refine (Timetable.card_presented positive ?_ ?_ ?_).symm
        · exact Nat.le_min.mpr ⟨on.stands.count_le, counted⟩
        · intro begun
          have before := on.stands.word_lt positive begun
          have recent : since - 1 ≤ limit.toNat := on.now ▸ kept
          omega
        · intro more
          rw [Nat.min_eq_right (by omega)] at ahead
          exact Nat.lt_of_lt_of_le beyond ahead
    | dry ran within early =>
      obtain ⟨n', dry, told'⟩ := ran
      obtain rfl : n' = words.length := by
        have missing := dry.dry
        rw [word?_list] at missing
        exact Nat.le_antisymm (count_le_length dry.supplied) (List.getElem?_eq_none_iff.mp missing)
      rw [dry.halts] at returned
      refine .dry dry.more ?_ early ?_ dry.issued (told.trans told') returned
      · rw [dry.due, Timetable.target_eq, Nat.min_eq_right dry.more]
      · exact fun limit given => within _ (on.built.mem_limit.mpr ⟨limit, given, rfl⟩)
    | endless passes late within halts =>
      refine .last (Nat.le_trans late (Nat.le_trans (passes.le_word positive unfinished) target)) ?_
        halts returned
      exact fun limit given => within _ (on.built.mem_limit.mpr ⟨limit, given, rfl⟩)

/-- A run over a list of words, without a waveform, is heading for one instant. If that lies beyond
the limit, the run fails there, with the words presented whose time has come. Otherwise it gets there:
it stops if there are enough words, and fails for want of words if there are not. -/
theorem run_outcome (s : Settings) (words : List Word) (out : κ) (valid : s.Valid)
    (enough : 3 ≤ s.general.maxDeltaRounds) :
    let p := s.timetable
    let turn := (fresh s words none out).run
    let bench := turn.state.bench
    (∀ limit ∈ s.general.maxTime, limit.toNat < Instant.last → limit.toNat < p.target words.length →
      turn.result = .error (.failure (.timeLimit limit.toNat)) ∧
      bench.now ≤ limit.toNat ∧
      bench.tally.wordsIssued =
        ((Finset.Icc 1 (min p.cycles words.length)).filter (p.word · ≤ limit.toNat)).card) ∧
    ((∀ limit ∈ s.general.maxTime, limit.toNat < Instant.last →
        p.target words.length ≤ limit.toNat) →
      p.target words.length < Instant.last →
      bench.now = p.target words.length ∧
      (p.cycles ≤ words.length → turn.result = .ok bench.tally ∧ bench.stopped = true) ∧
      (words.length < p.cycles →
        turn.result = .error (.failure (.exhausted words.length p.cycles)) ∧
        bench.tally.wordsIssued = words.length ∧
        turn.events.filter Event.isPresented = s.presentations words words.length)) ∧
    (∀ f, turn.result = .error (.failure f) →
      (∃ limit ∈ s.general.maxTime, f = .timeLimit limit.toNat) ∨
        ∃ issued expected, f = .exhausted issued expected) := by
  intro p turn bench
  have ending : Ending s words turn :=
    run_ending out valid.wide (UInt64.le_iff_toNat_le.mp enough)
  cases ending with
  | stop enough now early within stopped returns =>
    refine ⟨?_, ?_, ?_⟩
    · intro limit given _ beyond
      have kept := within limit given
      rw [now] at kept
      exact absurd kept (Nat.not_le_of_lt beyond)
    · exact fun _ _ => ⟨now, fun _ => ⟨returns, stopped⟩, fun short => absurd enough (Nat.not_le_of_lt short)⟩
    · intro f halts
      rw [returns] at halts
      cases halts
  | limit given early beyond now issued halts =>
    rename_i limit
    refine ⟨?_, ?_, ?_⟩
    · intro limit' given' _ _
      obtain rfl : limit = limit' := Option.mem_unique given given'
      exact ⟨halts, now, issued⟩
    · intro reached _
      exact absurd (reached limit given early) (Nat.not_le_of_lt beyond)
    · intro f fails
      rw [halts] at fails
      cases fails
      exact .inl ⟨limit, given, rfl⟩
  | dry short now early within issued told halts =>
    refine ⟨?_, ?_, ?_⟩
    · intro limit given _ beyond
      have kept := within limit given
      rw [now] at kept
      exact absurd kept (Nat.not_le_of_lt beyond)
    · exact fun _ _ => ⟨now, fun enough => absurd enough (Nat.not_le_of_lt short),
        fun _ => ⟨halts, issued, told⟩⟩
    · intro f fails
      rw [halts] at fails
      cases fails
      exact .inr ⟨_, _, rfl⟩
  | last late within endless halts =>
    refine ⟨?_, ?_, ?_⟩
    · intro limit given early _
      exact absurd (within limit given) (Nat.not_le_of_lt early)
    · intro _ early
      exact absurd late (Nat.not_le_of_lt early)
    · intro f fails
      rw [halts] at fails
      rcases endless with rfl | ⟨issued, expected, rfl⟩
      · cases fails
      · cases fails
        exact .inr ⟨issued, expected, rfl⟩

theorem outcome_of_missing_word :
    let turn := (fresh (.immediate 2) ([5] : List Word) none (Memory.empty none)).run
    (Settings.immediate 2).Valid ∧ turn.result = .error (.failure (.exhausted 1 2)) ∧
      turn.state.bench.now = 2 := by
  have valid : (Settings.immediate 2).Valid := by decide
  have target : (Settings.immediate 2).timetable.target 1 = 2 := by decide +kernel
  obtain ⟨_, reached, _⟩ := run_outcome (.immediate 2) ([5] : List Word) (Memory.empty none) valid (by decide)
  obtain ⟨now, _, dry⟩ := reached nofun (by rw [List.length_singleton, target]; decide)
  exact ⟨valid, (dry (by decide)).1, now.trans target⟩

end Recording

end IdentifyBench

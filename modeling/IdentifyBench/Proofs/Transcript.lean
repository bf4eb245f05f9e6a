import IdentifyBench.Proofs.Supply

/-! The stimulus from call to call. Its waits follow a script that the settings fix, whenever it is called
and whatever the lines carry by then. A call that finds the source dry gets no further in the script, so
that the next call asks for the same word again. -/
namespace IdentifyBench

open WordSource

namespace Stimulus

section Script

variable (s : StimulusSettings)

/-- The waits up to the stop, and the stop as often as it is asked for. -/
def script (stops : Nat) : List Wait :=
  [.delay s.reset.toNat, .delay s.settle.toNat] ++
    (List.replicate s.cycles.toNat [.risingEdge, .delay s.fetchDelay.toNat]).flatten ++
    List.replicate stops .stop

def waitAt : Nat → Wait
  | 0 => .delay s.reset.toNat
  | 1 => .delay s.settle.toNat
  | p + 2 =>
    if 2 * s.cycles.toNat ≤ p then .stop
    else if p % 2 = 0 then .risingEdge
    else .delay s.fetchDelay.toNat

/-- The phase in which the wait at a place of the script is found. -/
def phaseAt : Nat → Phase
  | 0 => .reset
  | 1 => .release
  | 2 => .enable
  | p + 3 =>
    if 2 * s.cycles.toNat ≤ p then .done
    else if p % 2 = 0 then .awaitFetch
    else .present

/-- The words presented before a place of the script. -/
def issuedAt (p : Nat) : Nat := min ((p - 3) / 2) s.cycles.toNat

theorem fullOn_succ (i : Nat) : s.fullOn (i + 1) =
    decide (s.arbiterFullEvery.toNat ≠ 0 ∧ (i + 1) % s.arbiterFullEvery.toNat = 0) := by
  rw [Bool.eq_iff_iff]
  simp [StimulusSettings.fullOn]

theorem flatten_replicate_pair {α : Type} (x y : α) (n : Nat) :
    (List.replicate n [x, y]).flatten =
      (List.range (2 * n)).map fun k => if k % 2 = 0 then x else y := by
  induction n with
  | zero => rfl
  | succ n ih =>
    rw [List.replicate_succ', List.flatten_append, ih, Nat.mul_succ, List.range_add, List.map_append]
    simp [List.range_succ, Nat.add_mod]

theorem script_eq (stops : Nat) :
    script s stops = (List.range (2 + 2 * s.cycles.toNat + stops)).map (waitAt s) := by
  have rounds : (List.replicate s.cycles.toNat [Wait.risingEdge, .delay s.fetchDelay.toNat]).flatten =
      (List.range (2 * s.cycles.toNat)).map fun k => waitAt s (2 + k) := by
    rw [flatten_replicate_pair]
    refine List.map_congr_left fun k inside => ?_
    rw [Nat.add_comm, waitAt, if_neg (Nat.not_le_of_lt (List.mem_range.mp inside))]
  have ending : List.replicate stops Wait.stop =
      (List.range stops).map fun k => waitAt s (2 + 2 * s.cycles.toNat + k) := by
    refine (List.eq_replicate_iff.mpr ⟨by simp, fun w inside => ?_⟩).symm
    obtain ⟨k, _, rfl⟩ := List.mem_map.mp inside
    rw [show 2 + 2 * s.cycles.toNat + k = 2 * s.cycles.toNat + k + 2 by omega, waitAt,
      if_pos (Nat.le_add_right _ _)]
  rw [script, rounds, ending, List.range_add, List.range_add, List.map_append, List.map_append,
    List.map_map, List.map_map]
  rfl

theorem place_cases (p : Nat) :
    p = 0 ∨ p = 1 ∨ p = 2 ∨ (∃ i < s.cycles.toNat, p = 2 * i + 3) ∨
      (∃ i < s.cycles.toNat, p = 2 * i + 4) ∨ 2 * s.cycles.toNat + 3 ≤ p := by
  by_cases late : 2 * s.cycles.toNat + 3 ≤ p
  · simp [late]
  · rcases Nat.lt_or_ge p 3 with early | rest
    · omega
    · rcases Nat.mod_two_eq_zero_or_one (p - 3) with even | odd
      · exact .inr (.inr (.inr (.inl ⟨(p - 3) / 2, by omega, by omega⟩)))
      · exact .inr (.inr (.inr (.inr (.inl ⟨(p - 3) / 2, by omega, by omega⟩))))

variable {s} {i p : Nat}

theorem at_edge (more : i < s.cycles.toNat) :
    phaseAt s (2 * i + 3) = .awaitFetch ∧ issuedAt s (2 * i + 3) = i ∧
      waitAt s (2 * i + 3) = .delay s.fetchDelay.toNat := by
  refine ⟨?_, by unfold issuedAt; omega, ?_⟩
  · rw [phaseAt, if_neg (by omega), if_pos (by omega)]
  · rw [waitAt, if_neg (by omega), if_neg (by omega)]

theorem at_word (more : i < s.cycles.toNat) :
    phaseAt s (2 * i + 4) = .present ∧ issuedAt s (2 * i + 4) = i := by
  refine ⟨?_, by unfold issuedAt; omega⟩
  rw [phaseAt, if_neg (by omega), if_neg (by omega)]

theorem issuedAt_next (more : i < s.cycles.toNat) : issuedAt s (2 * i + 5) = i + 1 := by
  unfold issuedAt
  omega

theorem at_end (late : 2 * s.cycles.toNat + 3 ≤ p) :
    phaseAt s p = .done ∧ issuedAt s p = s.cycles.toNat ∧ waitAt s p = .stop := by
  obtain ⟨k, rfl⟩ := Nat.exists_eq_add_of_le' late
  refine ⟨?_, by unfold issuedAt; omega, ?_⟩
  · rw [← Nat.add_assoc, phaseAt, if_pos (by omega)]
  · rw [← Nat.add_assoc, waitAt, if_pos (by omega)]

theorem stop_place (stop : waitAt s p = .stop) : 2 * s.cycles.toNat + 2 ≤ p := by
  match p with
  | 0 => cases stop
  | 1 => cases stop
  | p + 2 =>
    rcases Nat.lt_or_ge p (2 * s.cycles.toNat) with before | reached
    · rw [waitAt, if_neg (Nat.not_le_of_lt before)] at stop
      split at stop <;> cases stop
    · exact Nat.add_le_add_right reached 2

theorem edge_or_end (within : i ≤ s.cycles.toNat) :
    waitAt s (2 * i + 2) = if i = s.cycles.toNat then .stop else .risingEdge := by
  rw [waitAt]
  by_cases all : i = s.cycles.toNat
  · rw [if_pos (by omega), if_pos all]
  · rw [if_neg (by omega), if_pos (by omega), if_neg all]

end Script

variable {σ : Type} [WordSource σ]

section Places

variable (s : StimulusSettings) (source : σ)

def placed (p : Nat) : Stimulus σ := standing s source (phaseAt s p) (issuedAt s p)

variable {s} {i : Nat}

theorem nextCycle_placed (within : i ≤ s.cycles.toNat) (phase : Phase) :
    (standing s source phase i).nextCycle = (placed s source (2 * i + 3), waitAt s (2 * i + 2)) := by
  rw [edge_or_end within, placed]
  rcases Nat.eq_or_lt_of_le within with all | more
  · obtain ⟨phase', issued, _⟩ := at_end (s := s) (p := 2 * i + 3) (by omega)
    rw [nextCycle_of_all (by omega), phase', issued, if_pos all, all]
  · obtain ⟨phase', issued, _⟩ := at_edge more
    rw [nextCycle_of_more more, phase', issued, if_neg (by omega)]

variable {source}

theorem resume_placed {p : Nat} (other : phaseAt s p ≠ .present) (now : Instant) (b : Bus) :
    ((placed s source p).resume now b).stimulus = placed s source (p + 1) ∧
      ((placed s source p).resume now b).wait = .ok (waitAt s p) := by
  rcases place_cases s p with rfl | rfl | rfl | ⟨i, more, rfl⟩ | ⟨i, more, rfl⟩ | late
  · exact ⟨rfl, rfl⟩
  · exact ⟨rfl, rfl⟩
  · have next := nextCycle_placed source (Nat.zero_le s.cycles.toNat) .enable
    exact ⟨congrArg Prod.fst next, congrArg (Except.ok ∘ Prod.snd) next⟩
  · obtain ⟨phase, issued, wait⟩ := at_edge more
    obtain ⟨phase', issued'⟩ := at_word more
    rw [placed, placed, phase, issued, phase', issued', wait]
    exact ⟨rfl, rfl⟩
  · exact absurd (at_word more).1 other
  · obtain ⟨phase, issued, wait⟩ := at_end late
    obtain ⟨phase', issued', _⟩ := at_end (Nat.le_succ_of_le late)
    rw [placed, placed, phase, issued, phase', issued', wait]
    exact ⟨rfl, rfl⟩

theorem resume_word {word : Word} (more : i < s.cycles.toNat) (supplied : word? source i = some word)
    (now : Instant) (b : Bus) :
    (placed s source (2 * i + 4)).resume now b =
      { stimulus := placed s source (2 * i + 5)
        bus := (b.write .word word).write .arbiterFull (s.fullOn (i + 1))
        wait := .ok (if i + 1 = s.cycles.toNat then .stop else .risingEdge)
        events := [.presented now word (s.fullOn (i + 1))] } := by
  obtain ⟨phase, issued⟩ := at_word more
  rw [placed, phase, issued, resume_present_some s supplied, nextCycle_placed source more, ← edge_or_end more]
  rfl

theorem resume_dry (more : i < s.cycles.toNat) (dry : word? source i = none) (now : Instant) (b : Bus) :
    (placed s source (2 * i + 4)).resume now b =
      { stimulus := { placed s source (2 * i + 4) with source := drop source (i + 1) }
        bus := b
        wait := .error (.exhausted i s.cycles.toNat)
        events := [] } := by
  obtain ⟨phase, issued⟩ := at_word more
  rw [placed, phase, issued, resume_present_none s dry]

theorem placed_next (more : i < s.cycles.toNat) : placed s (next source).2 (2 * i + 4) =
    { placed s source (2 * i + 4) with source := drop source (i + 1) } := by
  rw [placed, (at_word more).2, standing, drop_next, placed, (at_word more).2]
  rfl

theorem resume_draws (more : i < s.cycles.toNat) (now : Instant) (b : Bus) :
    ((placed s source (2 * i + 4)).resume now b).stimulus.source = drop source (i + 1) := by
  cases answer : word? source i with
  | none => rw [resume_dry more answer]
  | some word =>
    rw [resume_word more answer]
    exact congrArg (drop source) (issuedAt_next more)

theorem resume_other {stimulus : Stimulus σ} (other : stimulus.phase ≠ .present) (now : Instant) (b : Bus) :
    (stimulus.resume now b).stimulus.source = stimulus.source ∧
      ∃ wait, (stimulus.resume now b).wait = .ok wait := by
  unfold resume
  cases phase : stimulus.phase with
  | present => exact absurd phase other
  | enable =>
    refine ⟨?_, _, rfl⟩
    unfold nextCycle
    dsimp only
    split <;> rfl
  | reset | release | awaitFetch | done => exact ⟨rfl, _, rfl⟩

theorem resume_done {stimulus : Stimulus σ} (finished : stimulus.phase = .done) (now : Instant) (b : Bus) :
    stimulus.resume now b = { stimulus, bus := b, wait := .ok .stop, events := [] } := by
  rw [resume, finished]

/-- Done is what can only ask for the stop again. -/
theorem isDone_iff (stimulus : Stimulus σ) : stimulus.isDone = true ↔
    ∀ now b, stimulus.resume now b = { stimulus, bus := b, wait := .ok .stop, events := [] } := by
  refine ⟨fun finished => resume_done (eq_of_beq finished), fun stops => ?_⟩
  have quiet : (stimulus.resume 0 .idle).events = [] := congrArg Resumption.events (stops 0 .idle)
  have asks : (stimulus.resume 0 .idle).wait = .ok .stop := congrArg Resumption.wait (stops 0 .idle)
  rw [isDone, beq_iff_eq]
  unfold resume at quiet asks
  cases phase : stimulus.phase with
  | done => rfl
  | awaitFetch =>
    rw [phase] at asks
    cases asks
  | present =>
    rw [phase] at quiet asks
    dsimp only at quiet asks
    rcases answer : next stimulus.source with ⟨_ | word, rest⟩
    · rw [answer] at asks
      cases asks
    · rw [answer] at quiet
      cases quiet
  | reset | release | enable =>
    rw [phase] at quiet
    cases quiet

theorem present_place {p : Nat} (presents : phaseAt s p = .present) :
    ∃ i < s.cycles.toNat, p = 2 * i + 4 := by
  rcases place_cases s p with rfl | rfl | rfl | ⟨i, more, rfl⟩ | word | late
  · cases presents
  · cases presents
  · cases presents
  · rw [(at_edge more).1] at presents
    cases presents
  · exact word
  · rw [(at_end late).1] at presents
    cases presents

/-- A call gets on by one place, or it finds the source dry and stays where it is. -/
theorem resume_cases (s : StimulusSettings) (source : σ) (p : Nat) (now : Instant) (b : Bus) :
    (((placed s source p).resume now b).wait = .ok (waitAt s p) ∧
        ((placed s source p).resume now b).stimulus = placed s source (p + 1)) ∨
      ∃ i < s.cycles.toNat, p = 2 * i + 4 ∧ word? source i = none ∧
        ((placed s source p).resume now b).wait = .error (.exhausted i s.cycles.toNat) ∧
        ((placed s source p).resume now b).stimulus = placed s (next source).2 p := by
  by_cases presents : phaseAt s p = .present
  · obtain ⟨i, more, rfl⟩ := present_place presents
    cases answer : word? source i with
    | none =>
      rw [placed_next more, resume_dry more answer]
      exact .inr ⟨i, more, rfl, answer, rfl, rfl⟩
    | some word =>
      rw [resume_word more answer, ← edge_or_end more]
      exact .inl ⟨rfl, rfl⟩
  · exact .inl (resume_placed presents now b).symm

end Places

section Calls

variable (s : StimulusSettings) (source : σ) (now : Nat → Instant) (bus : Nat → Bus)

/-- The stimulus after so many calls. A call comes at any time, and finds anything on the lines, since
commits and other writes may come in between. -/
def called : Nat → Stimulus σ
  | 0 => new s source
  | n + 1 => ((called n).resume (now n) (bus n)).stimulus

def call (n : Nat) : Resumption σ := (called s source now bus n).resume (now n) (bus n)

def failures (n : Nat) : Nat :=
  (List.range n).countP fun k => !(call s source now bus k).wait.isOk

theorem failures_succ (n : Nat) : failures s source now bus (n + 1) =
    failures s source now bus n + (!(call s source now bus n).wait.isOk).toNat := by
  unfold failures
  rw [List.range_succ, List.countP_append, List.countP_singleton]
  cases (call s source now bus n).wait <;> rfl

/-- After so many calls the stimulus is at a place of the script, having returned all waits before it. -/
structure Reached (n p : Nat) : Prop where
  calls : p + failures s source now bus n = n
  state : called s source now bus n = placed s (drop source (failures s source now bus n)) p
  waits : (List.range n).filterMap (fun k => (call s source now bus k).wait.toOption) =
    (List.range p).map (waitAt s)

variable {s source now bus} {n p : Nat}

theorem Reached.call_cases (reached : Reached s source now bus n p) :
    ((call s source now bus n).wait = .ok (waitAt s p) ∧ Reached s source now bus (n + 1) (p + 1)) ∨
      ∃ i < s.cycles.toNat, p = 2 * i + 4 ∧ word? source (i + failures s source now bus n) = none ∧
        (call s source now bus n).wait = .error (.exhausted i s.cycles.toNat) ∧
        Reached s source now bus (n + 1) p := by
  obtain ⟨calls, state, waits⟩ := reached
  have after : called s source now bus (n + 1) = (call s source now bus n).stimulus := rfl
  have more := failures_succ s source now bus n
  rcases resume_cases s (drop source (failures s source now bus n)) p (now n) (bus n) with
    ⟨wait, stimulus⟩ | ⟨i, below, place, dry, wait, stimulus⟩
  · rw [← state] at wait stimulus
    replace wait : (call s source now bus n).wait = .ok (waitAt s p) := wait
    have same : failures s source now bus (n + 1) = failures s source now bus n := by
      rw [more, wait]
      rfl
    refine .inl ⟨wait, by omega, ?_, ?_⟩
    · rw [same]
      exact after.trans stimulus
    · rw [List.range_succ, List.filterMap_append, waits, List.range_succ, List.map_append]
      simp [wait, Except.toOption]
  · rw [← state] at wait stimulus
    replace wait : (call s source now bus n).wait = .error (.exhausted i s.cycles.toNat) := wait
    have one : failures s source now bus (n + 1) = failures s source now bus n + 1 := by
      rw [more, wait]
      rfl
    refine .inr ⟨i, below, place, ?_, wait, by omega, ?_, ?_⟩
    · rw [Nat.add_comm, ← word?_drop]
      exact dry
    · rw [one]
      exact after.trans stimulus
    · rw [List.range_succ, List.filterMap_append, waits]
      simp [wait, Except.toOption]

variable (s source now bus) in
/-- Whatever has failed, the calls that have not failed have gone through the script. -/
theorem exists_reached (n : Nat) : ∃ p, Reached s source now bus n p := by
  induction n with
  | zero =>
    refine ⟨0, rfl, ?_, rfl⟩
    rw [placed, issuedAt, Nat.zero_sub, Nat.zero_div, Nat.zero_min]
    rfl
  | succ n ih =>
    obtain ⟨p, reached⟩ := ih
    rcases reached.call_cases with ⟨_, further⟩ | ⟨_, _, _, _, _, still⟩
    · exact ⟨_, further⟩
    · exact ⟨_, still⟩

variable (s source now bus) in
theorem reached_of_supplied (supplied : ∀ i < s.cycles.toNat, (word? source i).isSome = true) (n : Nat) :
    Reached s source now bus n n := by
  induction n with
  | zero =>
    obtain ⟨p, reached⟩ := exists_reached s source now bus 0
    obtain rfl : p = 0 := (Nat.add_eq_zero_iff.mp reached.calls).1
    exact reached
  | succ n ih =>
    rcases ih.call_cases with ⟨_, further⟩ | ⟨i, below, _, dry, _⟩
    · exact further
    -- No call has failed so far, so that the word missed here is one of those supplied.
    · have unfailed : failures s source now bus n = 0 := Nat.add_eq_left.mp ih.calls
      rw [unfailed] at dry
      have answered := supplied i below
      rw [← Nat.add_zero i, dry] at answered
      cases answered

theorem wait_of_supplied (supplied : ∀ i < s.cycles.toNat, (word? source i).isSome = true) (n : Nat) :
    (call s source now bus n).wait = .ok (waitAt s n) := by
  rcases (reached_of_supplied s source now bus supplied n).call_cases with
    ⟨wait, _⟩ | ⟨_, _, _, _, _, still⟩
  · exact wait
  · have behind := still.calls
    have reached := (reached_of_supplied s source now bus supplied (n + 1)).calls
    omega

theorem waits_prefix (n : Nat) :
    (List.range n).filterMap (fun k => (call s source now bus k).wait.toOption) <+: script s n := by
  obtain ⟨p, calls, _, waits⟩ := exists_reached s source now bus n
  have room : 2 + 2 * s.cycles.toNat + n = p + (2 + 2 * s.cycles.toNat + n - p) := by omega
  rw [waits, script_eq, room, List.range_add, List.map_append]
  exact List.prefix_append _ _

/-- The stop is the end: from its place on, every call finds the stimulus done. -/
theorem done_of_stop {k : Nat} (stopped : (call s source now bus k).wait = .ok .stop) (later : k < n) :
    (called s source now bus n).phase = .done := by
  -- The place behind the stop is reached with it, and no call leads back.
  have beyond : ∃ p, 2 * s.cycles.toNat + 3 ≤ p ∧ Reached s source now bus n p := by
    induction later with
    | refl =>
      obtain ⟨p, reached⟩ := exists_reached s source now bus k
      rcases reached.call_cases with ⟨wait, further⟩ | ⟨_, _, _, _, failed, _⟩
      · exact ⟨p + 1, Nat.succ_le_succ (stop_place (Except.ok.inj (wait.symm.trans stopped))), further⟩
      · rw [failed] at stopped
        cases stopped
    | step _ ih =>
      obtain ⟨p, late, reached⟩ := ih
      rcases reached.call_cases with ⟨_, further⟩ | ⟨_, _, _, _, _, still⟩
      · exact ⟨p + 1, Nat.le_succ_of_le late, further⟩
      · exact ⟨p, late, still⟩
  obtain ⟨p, late, reached⟩ := beyond
  rw [reached.state]
  exact (at_end late).1

theorem called_of_supplied (supplied : ∀ i < s.cycles.toNat, (word? source i).isSome = true) (n : Nat) :
    called s source now bus n = placed s source n := by
  have reached := reached_of_supplied s source now bus supplied n
  have unfailed : failures s source now bus n = 0 := Nat.add_eq_left.mp reached.calls
  rw [reached.state, unfailed, drop]

/-- A call is to present a word in the cycles only, and nothing but the failures before it tells it from
the call that is the first to ask for that word. -/
theorem called_presenting (presents : (called s source now bus n).phase = .present) :
    ∃ i < s.cycles.toNat, called s source now bus n =
      placed s (drop source (failures s source now bus n)) (2 * i + 4) := by
  obtain ⟨p, _, state, _⟩ := exists_reached s source now bus n
  rw [state] at presents
  obtain ⟨i, more, rfl⟩ := present_place presents
  exact ⟨i, more, state⟩

theorem source_placed (source : σ) {i : Nat} (more : i < s.cycles.toNat) :
    (placed s source (2 * i + 4)).source = drop source i :=
  congrArg (drop source) (at_word more).2

theorem issued_placed (source : σ) {i : Nat} (more : i < s.cycles.toNat) :
    (placed s source (2 * i + 4)).issued = i := (at_word more).2

theorem call_draws (presents : (called s source now bus n).phase = .present) :
    let before := called s source now bus n
    before.issued < s.cycles.toNat ∧
      before.source = drop source (before.issued + failures s source now bus n) ∧
      (call s source now bus n).stimulus.source = (next before.source).2 := by
  obtain ⟨i, more, state⟩ := called_presenting presents
  rw [call, state]
  dsimp only
  rw [resume_draws more, source_placed _ more, issued_placed _ more]
  exact ⟨more, by rw [drop_add, Nat.add_comm], rfl⟩

theorem call_of_word {word : Word} {i : Nat} (presents : (called s source now bus n).phase = .present)
    (answer : (next (called s source now bus n).source).1 = some word)
    (count : i = (called s source now bus n).issued + 1) :
    (call s source now bus n).bus = ((bus n).write .word word).write .arbiterFull
        (decide (s.arbiterFullEvery.toNat ≠ 0 ∧ i % s.arbiterFullEvery.toNat = 0)) ∧
      (call s source now bus n).stimulus.issued = i ∧
      (call s source now bus n).wait = .ok (if i = s.cycles.toNat then .stop else .risingEdge) := by
  obtain ⟨i, more, state⟩ := called_presenting presents
  rw [state, source_placed _ more] at answer
  rw [state, issued_placed _ more] at count
  rw [call, state, resume_word more answer, count, fullOn_succ]
  exact ⟨rfl, issuedAt_next more, rfl⟩

theorem call_of_dry (presents : (called s source now bus n).phase = .present)
    (dry : (next (called s source now bus n).source).1 = none) :
    let before := called s source now bus n
    call s source now bus n =
      { stimulus := { before with source := (next before.source).2 }
        bus := bus n
        wait := .error (.exhausted before.issued s.cycles.toNat)
        events := [] } := by
  obtain ⟨i, more, state⟩ := called_presenting presents
  rw [state, source_placed _ more] at dry
  rw [call, state, resume_dry more dry]
  dsimp only
  rw [source_placed _ more, issued_placed _ more]
  rfl

/-- The waits of the calls are those of the script, one call after the other, while the source has words.
A call that is to present a word draws one word, and writes it together with what the arbiter says. Without
a word it fails and changes nothing but the source, and it is to present a word again the next time. All
other calls leave the source alone and cannot fail. Behind the first stop there are only stops. -/
theorem calls_follow_script (s : StimulusSettings) (source : σ) (now : Nat → Instant) (bus : Nat → Bus) :
    let before := called s source now bus
    let call := call s source now bus
    let cycles := s.cycles.toNat
    let every := s.arbiterFullEvery.toNat
    ((∀ i < cycles, (word? source i).isSome = true) →
      (∀ stops, (List.range (2 + 2 * cycles + stops)).map (fun n => (call n).wait) =
        (script s stops).map .ok) ∧
      ∀ i < cycles, (before (2 * i + 4)).phase = .present ∧ (before (2 * i + 4)).issued = i ∧
        (before (2 * i + 4)).source = drop source i) ∧
    (∀ n, (List.range n).filterMap (fun k => (call k).wait.toOption) <+: script s n) ∧
    (∀ n, (before n).phase = .present →
      (before n).issued < cycles ∧
      (before n).source = drop source ((before n).issued + failures s source now bus n) ∧
      (call n).stimulus.source = (next (before n).source).2 ∧
      (∀ word i, (next (before n).source).1 = some word → i = (before n).issued + 1 →
        (call n).bus =
          ((bus n).write .word word).write .arbiterFull (decide (every ≠ 0 ∧ i % every = 0)) ∧
        (call n).stimulus.issued = i ∧
        (call n).wait = .ok (if i = cycles then .stop else .risingEdge)) ∧
      ((next (before n).source).1 = none →
        call n = { stimulus := { before n with source := (next (before n).source).2 }
                   bus := bus n
                   wait := .error (.exhausted (before n).issued cycles)
                   events := [] } ∧
        (before (n + 1)).phase = .present ∧ (before (n + 1)).issued = (before n).issued)) ∧
    (∀ n, (before n).phase ≠ .present →
      (call n).stimulus.source = (before n).source ∧ ∃ wait, (call n).wait = .ok wait) ∧
    ∀ k n, k < n → (call k).wait = .ok .stop →
      call n = { stimulus := before n, bus := bus n, wait := .ok .stop, events := [] } := by
  intro before call cycles every
  refine ⟨fun supplied => ⟨fun stops => ?_, fun i more => ?_⟩, fun n => waits_prefix n,
    fun n presents => ?_, fun n other => resume_other other (now n) (bus n), fun k n later stopped => ?_⟩
  · rw [script_eq, List.map_map]
    exact List.map_congr_left fun n _ => wait_of_supplied supplied n
  · rw [show before (2 * i + 4) = placed s source (2 * i + 4) from called_of_supplied supplied _]
    exact ⟨(at_word more).1, issued_placed source more, source_placed source more⟩
  · obtain ⟨more, drawn, draws⟩ := call_draws presents
    refine ⟨more, drawn, draws, fun word i => call_of_word presents, fun dry => ?_⟩
    have vain := call_of_dry presents dry
    have after : before (n + 1) = { before n with source := (next (before n).source).2 } :=
      congrArg Resumption.stimulus vain
    rw [after]
    exact ⟨vain, presents, rfl⟩
  · exact resume_done (done_of_stop stopped later) (now n) (bus n)

theorem calls_of_one_cycle :
    let s : StimulusSettings := { StimulusSettings.standard with cycles := 1 }
    let waits (words : List Word) (n : Nat) := (call s words id (fun _ => .idle) n).wait
    (List.range 6).map (waits [5]) =
        [.delay 12000, .delay 3000, .risingEdge, .delay 7000, .stop, .stop].map .ok ∧
      (called s ([] : List Word) id (fun _ => .idle) 5).phase = .present ∧
      waits [] 5 = .error (.exhausted 0 1) := by
  intro s waits
  obtain ⟨supplied, _⟩ := calls_follow_script s ([5] : List Word) id fun _ => .idle
  obtain ⟨_, _, presents, _⟩ := calls_follow_script s ([] : List Word) id fun _ => .idle
  obtain ⟨_, _, _, _, vain⟩ := presents 4 rfl
  obtain ⟨_, phase, _⟩ := vain rfl
  obtain ⟨_, _, _, _, again⟩ := presents 5 phase
  exact ⟨(supplied (by decide)).1 2, phase, congrArg Resumption.wait (again rfl).1⟩

end Calls

end Stimulus

end IdentifyBench

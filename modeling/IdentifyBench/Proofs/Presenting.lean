import IdentifyBench.Proofs.Bookkeeping
import IdentifyBench.Proofs.Tracing

/-! What a run tells about the words. It tells of each word that its source gives, in their order, and of
no other; and it stops once it has told of as many as there are cycles. That holds for any source and any
settings, and also where something breaks the run off. -/
namespace IdentifyBench

open WordSource

namespace Recording

variable {σ κ : Type} [WordSource σ] [Sink κ] {P : List Event → Bench σ → Prop}
  {H : List Event → Bench σ → Halt → Prop} {r : Recording σ κ}

/-- What the operations of a step keep, a step keeps, whatever becomes of the waveform. -/
theorem step_leaves (telling : Bench.Telling P H)
    (passes : ∀ {told : List Event} {b : Bench σ} (now : Instant), P told b → P told { b with now })
    {told : List Event} (kept : P told r.bench) :
    r.step.Leaves (fun told d => P told d.bench) (fun told d halt => H told d.bench halt) told := by
  have leaves := telling.step kept fun _ started => passes _ started
  unfold Turn.Leaves at leaves ⊢
  cases returns : r.bench.step.result with
  | error halt =>
    rw [Turn.ends_iff_of_error returns, ← step_events, ← step_bench] at leaves
    rw [Turn.ends_iff_of_error (step_of_bench_error returns)]
    exact leaves
  | ok outcome =>
    rw [Turn.ends_iff_of_ok returns, ← step_events, ← step_bench] at leaves
    rcases r.step_result_cases with same | ⟨_, fault, _, broken⟩
    · rw [Turn.ends_iff_of_ok (same.trans returns)]
      exact leaves
    · rw [Turn.ends_iff_of_error broken]
      exact telling.breaks leaves nofun

theorem steps_leaves (telling : Bench.Telling P H)
    (passes : ∀ {told : List Event} {b : Bench σ} (now : Instant), P told b → P told { b with now })
    (left : Nat) {events : Array Event} (kept : P events.toList r.bench) :
    (steps left r events).Ends (fun d told _ => P told d.bench ∧ d.bench.stopped = true)
      fun d told halt => H told d.bench halt := by
  induction left generalizing r events with
  | zero => exact telling.breaks kept nofun
  | succ left ih =>
    have leaves := step_leaves telling passes kept
    unfold Turn.Leaves at leaves
    have gathered : events.toList ++ r.step.events = (events ++ r.step.events.toArray).toList := by
      simp
    rw [steps]
    cases returns : r.step.result with
    | error halt =>
      rw [Turn.ends_iff_of_error returns, gathered] at leaves
      exact leaves
    | ok outcome =>
      rw [Turn.ends_iff_of_ok returns, gathered] at leaves
      cases outcome with
      | advanced t => exact ih leaves
      | stopped t =>
        have stopped := Bench.stopped_of_stops (bench_result_of_step_ok returns)
        rw [← step_bench] at stopped
        exact ⟨leaves, stopped⟩

theorem run_leaves (telling : Bench.Telling P H)
    (passes : ∀ {told : List Event} {b : Bench σ} (now : Instant), P told b → P told { b with now })
    (closes : ∀ {told : List Event} {b : Bench σ} (holes : List Hole) (t : Instant), P told b →
      P (told ++ (holes.map .uncovered ++ [.stopped t])) b)
    (kept : P [.started r.bench.clock.period] r.bench) :
    r.run.Ends (fun d told tally => P told d.bench ∧ d.bench.stopped = true ∧ tally = d.bench.tally)
      fun d told halt => H told d.bench halt := by
  have begun : P (#[Event.started r.bench.clock.period]).toList r.bench := kept
  have ends := steps_leaves telling passes maxSteps begun
  rw [run]
  refine (Turn.andThen_ends _ _).mpr (ends.mono ?_ fun _ _ _ => id)
  rintro d told - ⟨kept, stopped⟩
  exact ⟨closes _ _ kept, stopped, rfl⟩

end Recording

def Event.word? : Event → Option Word
  | .presented _ word _ => some word
  | _ => none

def Event.words (told : List Event) : List Word := told.filterMap Event.word?

@[simp] theorem Event.words_append (told more : List Event) :
    Event.words (told ++ more) = Event.words told ++ Event.words more :=
  List.filterMap_append

theorem Event.words_of_filter {told : List Event} (silent : told.filter Event.isPresented = []) :
    Event.words told = [] := by
  rw [List.filter_eq_nil_iff] at silent
  rw [words, List.filterMap_eq_nil_iff]
  intro event inside
  have other := silent event inside
  cases event with
  | presented => exact absurd rfl other
  | _ => rfl

namespace Stimulus

variable {σ : Type} [WordSource σ] {s : Stimulus σ} {source : σ} {told : List Event}

/-- What was told of the words is what the source has given, and it was counted. -/
structure Presents (source : σ) (told : List Event) (s : Stimulus σ) : Prop where
  given : ∃ n, s.source = drop source n ∧ Event.words told = (take n source).reduceOption
  issued : s.issued = (Event.words told).length
  done : s.phase = .done → s.cycles ≤ s.issued

def Exhausts (source : σ) (told : List Event) (cycles : Nat) (f : Failure) : Prop :=
  ∃ n, word? source n = none ∧ Event.words told = (take n source).reduceOption ∧
    (Event.words told).length < cycles ∧ f = .exhausted (Event.words told).length cycles

theorem presents_nextCycle (given : ∃ n, s.source = drop source n ∧
      Event.words told = (take n source).reduceOption)
    (issued : s.issued = (Event.words told).length) : s.nextCycle.1.Presents source told := by
  unfold nextCycle
  split
  · rename_i all
    exact ⟨given, issued, fun _ => all⟩
  · exact ⟨given, issued, nofun⟩

theorem phase_of_stop {now : Instant} {b : Bus} (stops : (s.resume now b).wait = .ok .stop) :
    (s.resume now b).stimulus.phase = .done := by
  have next (s : Stimulus σ) (stops : s.nextCycle.2 = .stop) : s.nextCycle.1.phase = .done := by
    unfold nextCycle at stops ⊢
    split at stops
    · rename_i all
      rw [if_pos all]
    · cases stops
  unfold Stimulus.resume at stops ⊢
  cases phase : s.phase with
  | enable =>
    rw [phase] at stops
    exact next s (Except.ok.inj stops)
  | present =>
    rw [phase] at stops
    dsimp only at stops ⊢
    rcases answer : WordSource.next s.source with ⟨_ | word, rest⟩
    · rw [answer] at stops
      cases stops
    · rw [answer] at stops
      exact next _ (Except.ok.inj stops)
  | done => exact phase
  | _ =>
    rw [phase] at stops
    cases stops

/-- A resumption tells of a word exactly if the source gives one. -/
theorem Presents.resume (presents : s.Presents source told)
    (more : s.phase = .present → s.issued < s.cycles) (now : Instant) (b : Bus) :
    (∃ wait, (s.resume now b).wait = .ok wait ∧
      (s.resume now b).stimulus.Presents source (told ++ (s.resume now b).events)) ∨
    ∃ f, (s.resume now b).wait = .error f ∧
      Exhausts source (told ++ (s.resume now b).events) s.cycles f := by
  obtain ⟨⟨n, left, given⟩, issued, done⟩ := presents
  have silent {events : List Event} (wordless : Event.words events = []) :
      Event.words (told ++ events) = Event.words told := by
    rw [Event.words_append, wordless, List.append_nil]
  unfold Stimulus.resume
  cases phase : s.phase with
  | present =>
    dsimp only
    rw [left]
    rcases answer : WordSource.next (drop source n) with ⟨_ | word, rest⟩
    · refine .inr ⟨_, rfl, n, ?_, ?_, ?_, ?_⟩
      · rw [word?, answer]
      · rw [silent rfl, given]
      · rw [silent rfl, ← issued]
        exact more phase
      · rw [silent rfl, issued]
    · have following : rest = drop source (n + 1) := by rw [drop, answer]
      have added : Event.words (told ++ [.presented now word (s.fullOn (s.issued + 1))]) =
          Event.words told ++ [word] := by
        rw [Event.words_append]
        rfl
      refine .inl ⟨_, rfl, presents_nextCycle ⟨n + 1, following, ?_⟩ ?_⟩
      · rw [added, given, take_succ_eq, word?, answer, List.reduceOption_append]
        rfl
      · rw [added, List.length_append, ← issued]
        rfl
  | enable =>
    refine .inl ⟨_, rfl, presents_nextCycle ⟨n, left, ?_⟩ ?_⟩
    · rw [silent rfl, given]
    · rw [silent rfl, issued]
  | done =>
    refine .inl ⟨_, rfl, ⟨n, left, ?_⟩, ?_, done⟩
    · rw [silent rfl, given]
    · rw [silent rfl, issued]
  | _ =>
    refine .inl ⟨_, rfl, ⟨n, left, ?_⟩, ?_, fun ended => by cases ended⟩
    · rw [silent rfl, given]
    · rw [silent rfl, issued]

end Stimulus

namespace Bench

variable {σ : Type} [WordSource σ] {b : Bench σ} {source : σ} {cycles : Nat} {told : List Event}

/-- The stimulus has told of what its source has given, no more than it may, and of all when it has asked
for the stop. -/
structure Presents (source : σ) (cycles : Nat) (told : List Event) (b : Bench σ) : Prop where
  accounts : b.stimulus.Accounts source cycles
  presents : b.stimulus.Presents source told
  stopped : b.stopped = true → b.stimulus.phase = .done

theorem Presents.of_silent (presents : b.Presents source cycles told) {more : List Event}
    (silent : more.filter Event.isPresented = []) {d : Bench σ} (stimulus : d.stimulus = b.stimulus)
    (stopped : d.stopped = b.stopped) : d.Presents source cycles (told ++ more) := by
  have same : Event.words (told ++ more) = Event.words told := by
    rw [Event.words_append, Event.words_of_filter silent, List.append_nil]
  refine ⟨?_, ⟨?_, ?_, ?_⟩, ?_⟩
  · rw [stimulus]
    exact presents.accounts
  · rw [stimulus, same]
    exact presents.presents.given
  · rw [stimulus, same]
    exact presents.presents.issued
  · rw [stimulus]
    exact presents.presents.done
  · rw [stimulus, stopped]
    exact presents.stopped

theorem Presents.await (accounts : b.stimulus.Accounts source cycles)
    (presents : b.stimulus.Presents source told) (wait : Wait)
    (stops : b.stopped = true ∨ wait = .stop → b.stimulus.phase = .done) :
    (b.await wait).1.Presents source cycles (told ++ (b.await wait).2) := by
  have kept : b.Presents source cycles told := ⟨accounts, presents, fun stopped => stops (.inl stopped)⟩
  cases wait with
  | delay time => exact kept.of_silent rfl rfl rfl
  | risingEdge => exact kept.of_silent rfl rfl rfl
  | stop =>
    have requested : { b with stopped := true }.Presents source cycles told :=
      ⟨accounts, presents, fun _ => stops (.inr rfl)⟩
    exact requested.of_silent rfl rfl rfl

theorem Presents.resumeStimulus (presents : b.Presents source cycles told) :
    b.resumeStimulus.Ends (fun d more _ => d.Presents source cycles (told ++ more)) fun _ more halt =>
      ∃ f, halt = .failure f ∧ Stimulus.Exhausts source (told ++ more) cycles f := by
  have accounts := presents.accounts.resume b.now b.bus
  have more (phase : b.stimulus.phase = .present) : b.stimulus.issued < b.stimulus.cycles :=
    presents.accounts.asked.symm ▸ presents.accounts.more (.inr phase)
  rcases presents.presents.resume more b.now b.bus with ⟨wait, waits, resumed⟩ | ⟨f, fails, exhausts⟩
  · rw [resumeStimulus_of_wait rfl waits, Turn.ends_done, ← List.append_assoc]
    refine Presents.await accounts resumed wait ?_
    rintro (before | rfl)
    · have done := presents.stopped before
      change (b.stimulus.resume b.now b.bus).stimulus.phase = .done
      unfold Stimulus.resume
      rw [done]
      exact done
    · exact Stimulus.phase_of_stop waits
  · rw [resumeStimulus_of_error fails]
    rw [presents.accounts.asked] at exhausts
    exact ⟨f, rfl, exhausts⟩

end Bench

namespace Recording

variable {σ κ : Type} [WordSource σ] [Sink κ]

end Recording

namespace WordSource

end WordSource

namespace Recording

variable {κ : Type} [Sink κ]

end Recording

end IdentifyBench

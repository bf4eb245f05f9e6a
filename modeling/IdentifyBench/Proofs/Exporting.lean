import IdentifyBench.Proofs.Presenting

/-! The file of views. It is made while the trace may be open, which waits meanwhile. Once it is written it
has a line for each view that was kept, and ending the trace leaves it alone: after a run that returns the
trace holds nothing back, and after one that fails it is not written. -/
namespace IdentifyBench

namespace Observation

theorem jsonLines_pieces (observations : List Observation) :
    (observations.flatMap fun o => [o.json, "\n"]).flatMap String.toList =
      (jsonLines observations).toList := by
  rw [jsonLines]
  induction observations with
  | nil => rfl
  | cons o rest ih =>
    rw [List.flatMap_cons, List.flatMap_append, ih]
    simp

end Observation

namespace Storage

variable {s opened written : Storage} {o : Observer}

/-- A file takes every line, and has them all once they are flushed. -/
theorem Filling.writeLines {directories : List Place} {place : Place}
    (filling : opened.Filling directories place) (nothing : opened.sent place = "") (o : Observer) :
    ∃ written, o.writeLines opened = (written, none) ∧ written.directories = directories ∧
      written.Drained ∧
      written.contents? place = some (Observation.jsonLines o.records.toList).toUTF8 := by
  obtain ⟨between, put, took⟩ := (accepting directories place).putAll filling
    (o.records.toList.flatMap fun observation => [observation.json, "\n"])
  obtain ⟨written, flushes, filled, -, holds⟩ := took.ready.flush
  refine ⟨written, ?_, filled.1, drained_of_flush flushes, ?_⟩
  · unfold Observer.writeLines
    rw [put]
    exact flushes
  · have text := took.text
    rw [nothing, Observation.jsonLines_pieces] at text
    rw [holds, String.toList_injective text]

end Storage

def Event.view? : Event → Option Observation
  | .observed o => some o
  | _ => none

theorem Event.reaches_mono {e : Event} {s t : Severity} (wider : s.rank ≤ t.rank)
    (reaches : e.reaches s = true) : e.reaches t = true :=
  decide_eq_true ((of_decide_eq_true reaches).trans wider)

/-- Who hears of what matters has all the views. -/
theorem Event.views_of_reaches {s : Severity} (wide : Severity.info.rank ≤ s.rank) (told : List Event) :
    (told.filter (·.reaches s)).filterMap view? = told.filterMap view? := by
  rw [List.filterMap_filter]
  apply List.filterMap_congr
  intro e _
  cases e with
  | observed o => exact if_pos (reaches_mono wide (e := .observed o) rfl)
  | _ => exact ite_self _

theorem Observer.observe_views (o : Observer) (time : Instant) (b : Bus) :
    let seen := o.observe time b
    seen.1.log = o.log ∧ seen.1.keep = o.keep ∧ (o.log = true → o.keep = true →
      o.records.toList ++ seen.2.2.filterMap Event.view? = seen.1.records.toList) := by
  obtain ⟨log, keep, records⟩ := o
  unfold observe
  cases Observation.ofBus? time b with
  | none => exact ⟨rfl, rfl, fun _ _ => List.append_nil _⟩
  | some view =>
    cases keep with
    | false => exact ⟨rfl, rfl, nofun⟩
    | true =>
      refine ⟨rfl, rfl, ?_⟩
      rintro rfl -
      exact (Array.toList_push ..).symm

namespace Bench

variable {σ : Type} [WordSource σ] {s : Settings} {told : List Event} {b : Bench σ}

/-- An observer that tells of its views and keeps them has kept those that it has told of. -/
structure Logs (s : Settings) (told : List Event) (b : Bench σ) : Prop where
  log : b.observer.log = s.general.logObservations
  keep : b.observer.keep = s.general.keepObservations
  views : b.observer.log = true → b.observer.keep = true →
    told.filterMap Event.view? = b.observer.records.toList

omit [WordSource σ] in
theorem Logs.of_silent (logs : b.Logs s told) {more : List Event}
    (silent : more.filterMap Event.view? = []) {d : Bench σ} (observer : d.observer = b.observer) :
    d.Logs s (told ++ more) := by
  refine ⟨?_, ?_, ?_⟩
  · rw [observer]
    exact logs.log
  · rw [observer]
    exact logs.keep
  · rw [observer, List.filterMap_append, silent, List.append_nil]
    exact logs.views

omit [WordSource σ] in
theorem Logs.observe (logs : b.Logs s told) : b.observe.state.Logs s (told ++ b.observe.events) := by
  obtain ⟨log, keep, views⟩ := b.observer.observe_views b.now b.bus
  have same : b.observe.state.observer = (b.observer.observe b.now b.bus).1 ∧
      b.observe.events = (b.observer.observe b.now b.bus).2.2 := by
    unfold Bench.observe
    split <;> rename_i seen <;> rw [seen] <;> exact ⟨rfl, rfl⟩
  rw [← same.1] at log keep views
  rw [← same.2] at views
  refine ⟨log.trans logs.log, keep.trans logs.keep, fun tells keeps => ?_⟩
  rw [log] at tells
  rw [keep] at keeps
  rw [List.filterMap_append, logs.views tells keeps, views tells keeps]

theorem silent_resumeStimulus (b : Bench σ) : b.resumeStimulus.events.filterMap Event.view? = [] := by
  have resumed : (b.stimulus.resume b.now b.bus).events.filterMap Event.view? = [] := by
    unfold Stimulus.resume
    cases b.stimulus.phase with
    | present =>
      dsimp only
      split <;> rfl
    | _ => rfl
  cases waits : (b.stimulus.resume b.now b.bus).wait with
  | error f =>
    rw [resumeStimulus_of_error waits]
    exact resumed
  | ok wait =>
    rw [resumeStimulus_of_wait rfl waits, Turn.done, List.filterMap_append, resumed]
    cases wait <;> rfl

theorem telling_logs (s : Settings) : Telling (σ := σ) (Logs s) fun told b _ => b.Logs s told where
  replan _ _ kept := { kept with }
  toggle kept := { kept with }
  resume {_ b} kept := by
    apply Turn.leaves_of_state
    exact kept.of_silent b.silent_resumeStimulus (frame_resumeStimulus b).observer
  commit kept := { kept with }
  respond moved kept := by
    refine kept.of_silent ?_ ?_
    · unfold Bench.respond
      split
      · dsimp only
        split <;> rfl
      · rfl
    · rw [respond_state]
  rise _ kept := { kept with }
  rest round due kept := by
    cases due with
    | false => exact kept.of_silent rfl rfl
    | true =>  exact Logs.observe { kept with }
  finish kept := { kept with }
  breaks kept _ := kept

end Bench

namespace Recording

variable {σ κ : Type} [WordSource σ] [Sink κ] {r : Recording σ κ}

theorem run_logs (s : Settings) (source : σ) (waveform : Option Waveform) (out : κ) :
    let turn := (fresh s source waveform out).run
    turn.state.bench.Logs s turn.events := by
  intro turn
  have silent (holes : List Hole) (t : Instant) :
      (holes.map Event.uncovered ++ [Event.stopped t]).filterMap Event.view? = [] := by
    simp [Event.view?]
  have begun : (Bench.new s source).Logs s [] := ⟨rfl, rfl, fun _ _ => rfl⟩
  have ends : turn.Ends _ _ := run_leaves (Bench.telling_logs s) (fun _ kept => { kept with })
    (fun holes t kept => kept.of_silent (silent holes t) rfl) (begun.of_silent rfl rfl)
  unfold Turn.Ends at ends
  split at ends
  · exact ends.1
  · exact ends

theorem steps_out_of_none (unrecorded : r.waveform = none) (left : Nat) (events : Array Event) :
    (steps left r events).state.out = r.out := by
  induction left generalizing r events with
  | zero => rfl
  | succ left ih =>
    have stepped := step_of_none unrecorded
    have out : r.step.state.out = r.out := by rw [stepped]
    rw [steps]
    split
    · exact out
    · exact (ih (by rw [stepped]; exact unrecorded) _).trans out
    · exact out

theorem run_out_of_none (unrecorded : r.waveform = none) : r.run.state.out = r.out := by
  rw [run, ← steps_out_of_none unrecorded maxSteps #[.started r.bench.clock.period]]
  unfold Turn.andThen
  split <;> rfl

/-- A row of steps that returns has passed the waveform on in full. -/
theorem steps_flush {w : Waveform} (traced : r.waveform = some w) (going : r.bench.stopped = false)
    {left : Nat} {events : Array Event} (returns : (steps left r events).result = .ok ()) :
    ∃ before, Sink.flush before = ((steps left r events).state.out, none) := by
  induction left generalizing r w events with
  | zero => cases returns
  | succ left ih =>
    rw [steps] at returns ⊢
    cases returned : r.step.result with
    | error halt =>
      rw [returned] at returns
      cases returns
    | ok outcome =>
      rw [returned] at returns
      obtain ⟨w', between, _, kept, passed⟩ := step_of_traced traced going returned
      cases outcome with
      | advanced t =>
        have goes : r.step.state.bench.stopped = false := by
          rw [step_bench]
          exact Bench.going_of_advances going (bench_result_of_step_ok returned)
        exact ih kept goes returns
      | stopped t =>
        have stops : r.step.state.bench.stopped = true := by
          rw [step_bench]
          exact Bench.stopped_of_stops (bench_result_of_step_ok returned)
        rw [if_pos stops] at passed
        exact ⟨between, passed⟩

theorem run_flush {w : Waveform} {tally : Tally} (traced : r.waveform = some w)
    (going : r.bench.stopped = false) (returns : r.run.result = .ok tally) :
    ∃ before, Sink.flush before = (r.run.state.out, none) := by
  rw [run] at returns ⊢
  cases returned : (steps maxSteps r #[.started r.bench.clock.period]).result with
  | error halt =>
    rw [Turn.andThen_of_error returned] at returns
    cases returns
  | ok _ =>
    rw [Turn.andThen_of_ok returned]
    exact steps_flush traced going returned

end Recording

end IdentifyBench

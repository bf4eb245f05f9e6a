import IdentifyBench.Proofs.Filing
import IdentifyBench.Proofs.Stopping
import IdentifyBench.Proofs.Watching
import Mathlib

/-! What a recording adds to its bench. Whether or not the waveform can be written, the bench makes the
same steps; and where no step fails, the waveform has a sample of every instant that was simulated, and
is in its file when the bench stops. -/
namespace IdentifyBench

namespace Bench

variable {σ : Type} [WordSource σ]

theorem stopped_of_stops {b : Bench σ} {t : Instant} (returns : b.step.result = .ok (.stopped t)) :
    b.step.state.stopped = true := by
  cases going : b.stopped with
  | true =>
    rw [step, stepWithin_of_stopped going]
    exact going
  | false =>
    obtain ⟨d, state, outcome⟩ := step_of_ok going returns
    rw [state]
    by_contra advances
    rw [if_neg advances] at outcome
    cases outcome

theorem going_of_advances {b : Bench σ} {t : Instant} (going : b.stopped = false)
    (returns : b.step.result = .ok (.advanced t)) : b.step.state.stopped = false := by
  obtain ⟨d, state, outcome⟩ := step_of_ok going returns
  rw [state]
  by_contra stops
  rw [if_pos (Bool.not_eq_false _ ▸ stops)] at outcome
  cases outcome

end Bench

namespace Recording

variable {σ κ : Type} [WordSource σ] [Sink κ] {r : Recording σ κ}

theorem step_result_cases (r : Recording σ κ) :
    r.step.result = r.bench.step.result ∨
      ∃ outcome fault, r.bench.step.result = .ok outcome ∧
        r.step.result = .error (.failure (.traceWrite r.bench.step.state.now fault)) := by
  have sampled := sample_bench { r with bench := r.bench.step.state }
  have finished := finish_bench (sample { r with bench := r.bench.step.state }).1
  have returned (simulates : ¬(r.bench.stopped || !r.bench.step.result.isOk) = true) :
      ∃ outcome, r.bench.step.result = .ok outcome := by
    refine Turn.exists_of_isOk ?_
    by_contra halts
    exact simulates (by simp [halts])
  unfold step
  dsimp only
  split
  · exact .inl rfl
  · rename_i simulates
    obtain ⟨outcome, returns⟩ := returned simulates
    rcases sampling : sample { r with bench := r.bench.step.state } with ⟨sampledr, _ | fault⟩
    · rw [sampling] at sampled finished
      dsimp only
      rcases finishing : sampledr.finish with ⟨finishedr, _ | fault⟩
      · exact .inl rfl
      · rw [finishing] at finished
        refine .inr ⟨outcome, fault, returns, ?_⟩
        dsimp only
        rw [finished, sampled]
    · rw [sampling] at sampled
      refine .inr ⟨outcome, fault, returns, ?_⟩
      dsimp only
      rw [sampled]

theorem step_of_ok {outcome : Outcome} (going : r.bench.stopped = false)
    (returns : r.step.result = .ok outcome) :
    ∃ sampled, sample { r with bench := r.bench.step.state } = (sampled, none) ∧
      sampled.finish = (r.step.state, none) := by
  have simulates : ¬(r.bench.stopped || !r.bench.step.result.isOk) = true := by
    rw [going, bench_result_of_step_ok returns]
    exact Bool.false_ne_true
  unfold step at returns ⊢
  dsimp only at returns ⊢
  rw [if_neg simulates] at returns ⊢
  rcases sampling : sample { r with bench := r.bench.step.state } with ⟨sampled, _ | fault⟩
  · rw [sampling] at returns
    refine ⟨sampled, rfl, ?_⟩
    dsimp only at returns ⊢
    rcases finishing : sampled.finish with ⟨finished, _ | fault⟩
    · rfl
    · rw [finishing] at returns
      cases returns
  · rw [sampling] at returns
    cases returns

/-- A step that returns has written its sample, and at the stop it has passed on all of them. -/
theorem step_of_traced {w : Waveform} {outcome : Outcome} (traced : r.waveform = some w)
    (going : r.bench.stopped = false) (returns : r.step.result = .ok outcome) :
    let e := r.step.state
    ∃ w' between, w.sample e.bench.now e.bench.bus r.out = (w', between, none) ∧
      e.waveform = some w' ∧
      if e.bench.stopped then Sink.flush between = (e.out, none) else e.out = between := by
  intro e
  obtain ⟨sampled, sampling, finishing⟩ := step_of_ok going returns
  rw [show e.bench = r.bench.step.state from step_bench r]
  rw [show r.step.state = e from rfl] at finishing
  unfold sample at sampling
  dsimp only at sampling
  rw [traced] at sampling
  dsimp only at sampling
  rcases written : w.sample r.bench.step.state.now r.bench.step.state.bus r.out with ⟨w', between, fault⟩
  rw [written] at sampling
  obtain ⟨rfl, rfl⟩ := Prod.mk.inj sampling
  refine ⟨w', between, rfl, ?_⟩
  unfold finish at finishing
  dsimp only at finishing
  split
  · rename_i stops
    rw [if_pos stops] at finishing
    obtain ⟨state, flushed⟩ := Prod.mk.inj finishing
    rw [← state]
    exact ⟨rfl, Prod.ext rfl flushed⟩
  · rename_i advances
    rw [if_neg advances] at finishing
    rw [← (Prod.mk.inj finishing).1]
    exact ⟨rfl, rfl⟩

/-- The instants that the first steps have simulated, with the levels committed there. -/
def instants (r : Recording σ κ) (n : Nat) : List Snapshot :=
  ((List.range n).filter fun k => !(r.after k).bench.stopped).map fun k =>
    ⟨(r.after (k + 1)).bench.now, (r.after (k + 1)).bench.bus⟩

theorem instants_of_stopped {n : Nat} (stopped : (r.after n).bench.stopped = true) :
    r.instants (n + 1) = r.instants n := by
  simp [instants, List.range_succ, stopped]

theorem instants_of_going {n : Nat} (going : (r.after n).bench.stopped = false) :
    r.instants (n + 1) =
      r.instants n ++ [⟨(r.after (n + 1)).bench.now, (r.after (n + 1)).bench.bus⟩] := by
  simp [instants, List.range_succ, going]

theorem step_of_stopped (stopped : r.bench.stopped = true) : r.step.state = r := by
  have still : r.bench.step.state = r.bench := by
    rw [Bench.step, Bench.stepWithin_of_stopped stopped]
  unfold step
  dsimp only
  rw [if_pos (by rw [stopped, Bool.true_or]), still]

/-- The waveform has taken the samples, and it is passed on once the bench has stopped. -/
def Dumped (begun : κ) (samples : List Snapshot) (r : Recording σ κ) : Prop :=
  ∃ w before, r.waveform = some w ∧ Waveform.dump begun samples = (w, before, none) ∧
    if r.bench.stopped then Sink.flush before = (r.out, none) else r.out = before

variable {begun : κ}

theorem Dumped.step {samples : List Snapshot} {outcome : Outcome} (dumped : r.Dumped begun samples)
    (going : r.bench.stopped = false) (returns : r.step.result = .ok outcome) :
    r.step.state.Dumped begun
      (samples ++ [⟨r.step.state.bench.now, r.step.state.bench.bus⟩]) := by
  obtain ⟨w, before, waveform, written, out⟩ := dumped
  rw [going] at out
  obtain ⟨w', between, sampled, waveform', out'⟩ := step_of_traced waveform going returns
  refine ⟨w', between, waveform', ?_, out'⟩
  rw [Waveform.dump_append written, ← (out : r.out = before), Waveform.record, sampled]
  rfl

/-- As long as the steps return, no instant is missing in the waveform, and none is in it twice. -/
theorem Dumped.after (dumped : r.Dumped begun []) {n : Nat}
    (returned : ∀ k < n, ∃ outcome, (r.after k).step.result = .ok outcome) :
    (r.after n).Dumped begun (r.instants n) := by
  induction n with
  | zero => exact dumped
  | succ n ih =>
    have before := ih fun k below => returned k (Nat.lt_succ_of_lt below)
    cases going : (r.after n).bench.stopped with
    | true =>
      rw [instants_of_stopped going, Recording.after, step_of_stopped going]
      exact before
    | false =>
      obtain ⟨outcome, returns⟩ := returned n (Nat.lt_succ_self n)
      rw [instants_of_going going]
      exact before.step going returns

section Accepted

variable {ready : κ → Prop} {text : κ → String} (accepting : Sink.Accepting ready text)
  (passes : ∀ {out : κ}, ready out → (Sink.flush out).2 = none ∧ ready (Sink.flush out).1)

include accepting in
omit [WordSource σ] in
theorem sample_of_accepting (opened : ready r.out) :
    ∃ sampled, r.sample = (sampled, none) ∧ ready sampled.out := by
  unfold sample
  split
  · exact ⟨r, rfl, opened⟩
  · rename_i w _
    obtain ⟨w', after, sampled, took, -⟩ :=
      w.sample_of_accepting accepting r.bench.now r.bench.bus opened
    rw [sampled]
    exact ⟨_, rfl, took.ready⟩

include passes in
omit [WordSource σ] in
theorem finish_of_accepting (opened : ready r.out) :
    ∃ finished, r.finish = (finished, none) ∧ ready finished.out := by
  unfold finish
  split
  · split
    · obtain ⟨flushed, kept⟩ := passes opened
      exact ⟨_, Prod.ext rfl flushed, kept⟩
    · exact ⟨r, rfl, opened⟩
  · exact ⟨r, rfl, opened⟩

include accepting passes

theorem step_of_accepting (opened : ready r.out) :
    r.step.result = r.bench.step.result ∧ ready r.step.state.out := by
  obtain ⟨sampled, sampling, taken⟩ :=
    sample_of_accepting accepting (r := { r with bench := r.bench.step.state }) opened
  obtain ⟨finished, finishing, passed⟩ := finish_of_accepting passes taken
  unfold step
  dsimp only
  split
  · exact ⟨rfl, opened⟩
  · rw [sampling]
    dsimp only
    rw [finishing]
    exact ⟨rfl, passed⟩

theorem unbroken_of_accepting (opened : ready r.out) : r.Unbroken := by
  have kept (n : Nat) : ready (r.after n).out := by
    induction n with
    | zero => exact opened
    | succ n ih => exact (step_of_accepting accepting passes ih).2
  exact fun n => (step_of_accepting accepting passes (kept n)).1

end Accepted

omit [WordSource σ] in
/-- A waveform that was started while the bench is running has all samples, there being none so far. -/
theorem dumped_of_openTrace {r : Recording σ Storage} {path : String} (going : r.bench.stopped = false)
    (opens : (r.openTrace path).result = .ok ()) :
    ∃ opened, r.out.openStream path = .ok opened ∧ (r.openTrace path).state.Dumped opened [] := by
  unfold openTrace at opens ⊢
  cases opening : Files.openStream r.out path with
  | error fault =>
    rw [opening] at opens
    cases opens
  | ok opened =>
    rw [opening] at opens
    dsimp only at opens ⊢
    rcases starting : Waveform.start opened with ⟨out, _ | fault⟩
    · refine ⟨opened, opening, .blank, out, rfl, ?_, ?_⟩
      · rw [Waveform.dump, starting]
        rfl
      · exact (if_neg (Bool.eq_false_iff.mp going)).mpr rfl
    · rw [starting] at opens
      cases opens

omit [WordSource σ] in
theorem openTrace_of_filling {r : Recording σ Storage} {path : String} {opened : Storage}
    {directories : List Place} {place : Place} (opens : r.out.openStream path = .ok opened)
    (filling : opened.Filling directories place) :
    (r.openTrace path).result = .ok () ∧ (r.openTrace path).state.out.Filling directories place := by
  obtain ⟨out, started, took⟩ :=
    (Storage.accepting directories place).putAll filling Waveform.header
  unfold openTrace
  rw [show Files.openStream r.out path = _ from opens]
  dsimp only
  rw [Waveform.start, started]
  exact ⟨rfl, took.ready⟩

variable {ι : Type} [Sink ι]

/-- A waveform never disturbs the simulation, and one that can be written is complete. However the
writing goes, the bench is the same after each step as it is without a waveform, and the step returns
the same, except that it may report an unwritten waveform where the other step returned. If the
waveform was started before the first step, no step has failed and the last one has stopped, its file
holds the header and then one sample, in order, of every instant that was simulated, the last one
included. -/
theorem waveform_apart_and_complete (s : Settings) (source : σ) (out : ι) :
    let q := (fresh s source none out).after
    (∀ r : Nat → Recording σ κ, Series s source r → ∀ n,
      (r n).bench = (q n).bench ∧
      ((r n).step.result = (q n).step.result ∨
        ∃ outcome fault, (q n).step.result = .ok outcome ∧ (r n).step.result =
          .error (.failure (.traceWrite (r n).step.state.bench.now fault)))) ∧
    ∀ (disk : Storage) (path : String), disk.stream = none →
      ((fresh s source none disk).openTrace path).result = .ok () →
      let t := ((fresh s source none disk).openTrace path).state
      ∀ n time, (∀ k < n, ∃ outcome, (t.after k).step.result = .ok outcome) →
        (t.after n).step.result = .ok (.stopped time) →
        ∃ w whole, Waveform.dump (Memory.empty none) (t.instants (n + 1)) = (w, whole, none) ∧
          (t.after (n + 1)).out.read path = .ok whole.text := by
  refine ⟨fun r series n => ?_, ?_⟩
  · have same : (r n).bench = ((fresh s source none out).after n).bench :=
      (series.bench_eq n).trans ((series_after s source none out).bench_eq n).symm
    have untraced := unbroken_of_none (r := fresh s source none out) rfl n
    refine ⟨same, ?_⟩
    rw [untraced, ← same, step_bench]
    exact step_result_cases (r n)
  · intro disk path quiet opens t n time returned stops
    obtain ⟨opened, opening, begun⟩ := dumped_of_openTrace rfl opens
    have all (k : Nat) (below : k < n + 1) :
        ∃ outcome, (t.after k).step.result = .ok outcome := by
      rcases Nat.lt_succ_iff_lt_or_eq.mp below with before | rfl
      · exact returned k before
      · exact ⟨_, stops⟩
    obtain ⟨w, before, -, dumped, flushed⟩ := begun.after all
    have stopped : (t.after (n + 1)).bench.stopped = true := by
      rw [after, step_bench]
      exact Bench.stopped_of_stops (bench_result_of_step_ok stops)
    rw [if_pos stopped] at flushed
    exact Storage.read_of_dump quiet opening dumped flushed

/-- A memory that takes nothing, and a file that has both samples. -/
theorem apart_and_complete_of_full_memory :
    ∃ (r q : Nat → Recording (List Word) Memory) (t : Recording (List Word) Storage),
      r = (fresh (.immediate 1) [5] (some .blank) (.empty (some 0))).after ∧
      q = (fresh (.immediate 1) [5] none (.empty none)).after ∧
      t = ((fresh (.immediate 1) [5] none .empty).openTrace "t").state ∧
      (r 2).bench = (q 2).bench ∧
      (∃ fault, (r 1).step.result = .error (.failure (.traceWrite 0 fault))) ∧
      (q 1).step.result = .ok (.stopped 0) ∧
      ∃ w whole, Waveform.dump (Memory.empty none) (t.instants 2) = (w, whole, none) ∧
        (t.after 2).out.read "t" = .ok whole.text := by
  obtain ⟨r, same⟩ : ∃ r : Nat → Recording (List Word) Memory,
      r = (fresh (.immediate 1) [5] (some .blank) (.empty (some 0))).after := ⟨_, rfl⟩
  obtain ⟨q, same'⟩ : ∃ q : Nat → Recording (List Word) Memory,
      q = (fresh (.immediate 1) [5] none (.empty none)).after := ⟨_, rfl⟩
  obtain ⟨t, started⟩ : ∃ t : Recording (List Word) Storage,
      t = ((fresh (.immediate 1) [5] none .empty).openTrace "t").state := ⟨_, rfl⟩
  have created : Storage.empty.create "t" =
      .ok (Storage.empty.store ⟨false, ["t"]⟩ .empty, .file ⟨false, ["t"]⟩) := by
    cbv
  obtain ⟨opened, opening, filling⟩ : ∃ opened, Storage.empty.openStream "t" = .ok opened ∧
      opened.Filling [] ⟨false, ["t"]⟩ := by
    refine ⟨{ Storage.empty.store ⟨false, ["t"]⟩ .empty with
      stream := some ⟨.file ⟨false, ["t"]⟩, 0, ""⟩ }, ?_, rfl, "", "", rfl, Storage.contents?_store ..⟩
    rw [Storage.openStream, created]
    rfl
  obtain ⟨opens, ready⟩ := openTrace_of_filling
    (r := fresh (.immediate 1) ([5] : List Word) none .empty) opening filling
  rw [← started] at ready
  have unbroken : t.Unbroken := by
    refine unbroken_of_accepting (Storage.accepting [] ⟨false, ["t"]⟩) (fun filling => ?_) ready
    obtain ⟨d, flushed, filled, -⟩ := filling.flush
    rw [show Sink.flush _ = _ from flushed]
    exact ⟨rfl, filled⟩
  have bench : t.bench = .new (.immediate 1) [5] := started ▸ openTrace_bench ..
  have advances : (t.after 0).step.result = .ok (.advanced 0) := by
    rw [unbroken, after_bench, bench]
    exact Turn.result_of_toOption (by decide +kernel)
  have stops : (t.after 1).step.result = .ok (.stopped 0) := by
    rw [unbroken, after_bench, bench]
    exact Turn.result_of_toOption (by decide +kernel)
  have failed : (r 1).step.result.isOk = false ∧ (r 1).step.state.bench.now = 0 := by
    rw [same]
    decide +kernel
  have stopped : (q 1).step.result = .ok (.stopped 0) := by
    rw [same']
    exact Turn.result_of_toOption (by decide +kernel)
  have law := waveform_apart_and_complete (κ := Memory) (.immediate 1) ([5] : List Word)
    (Memory.empty none)
  have apart := law.1 r (same ▸ series_after ..)
  have complete := law.2 .empty "t" rfl opens 1 0
  rw [← same'] at apart
  rw [← started] at complete
  refine ⟨r, q, t, same, same', started, (apart 2).1, ?_, stopped, complete ?_ stops⟩
  · rcases (apart 1).2 with agrees | ⟨_, fault, _, unwritten⟩
    · rw [agrees, stopped] at failed
      cases failed.1
    · rw [failed.2] at unwritten
      exact ⟨fault, unwritten⟩
  · intro k below
    obtain rfl := Nat.lt_one_iff.mp below
    exact ⟨_, advances⟩

end Recording

end IdentifyBench

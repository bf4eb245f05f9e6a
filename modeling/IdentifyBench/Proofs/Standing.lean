import IdentifyBench.Proofs.Agenda
import IdentifyBench.Proofs.Course
import IdentifyBench.Proofs.Supply
import IdentifyBench.Proofs.Waking

/-! The stimulus on the bench. Its phase and the number of words presented settle everything about
it: what it has left of the source, what it has written, whether it waits for an edge and when it is
due. One resumption leads to the next such place, and it tells about a word exactly if it presents
one. -/
namespace IdentifyBench

open WordSource

variable {σ : Type} [WordSource σ]

def Event.isPresented : Event → Bool
  | .presented .. => true
  | _ => false

def Settings.presentations (s : Settings) (source : σ) (n : Nat) : List Event :=
  (List.range n).map fun k =>
    .presented (s.timetable.word (k + 1)) (drawn source (k + 1)) (s.stimulus.fullOn (k + 1))

theorem Settings.presentations_succ (s : Settings) (source : σ) (n : Nat) :
    s.presentations source (n + 1) = s.presentations source n ++
      [.presented (s.timetable.word (n + 1)) (drawn source (n + 1)) (s.stimulus.fullOn (n + 1))] := by
  simp [presentations, List.range_succ]

def Phase.rank : Phase → Nat
  | .reset => 3
  | .release => 2
  | .enable | .present => 1
  | .awaitFetch | .done => 0

/-- The wake-ups of the stimulus, in a phase and after so many words. Time ends at the last
instant. -/
def Timetable.wakes (p : Timetable) (phase : Phase) (n : Nat) : List Instant :=
  ((p.wake? phase n).map (min · Instant.last)).toList

namespace Bench

/-- The stimulus is in a phase and has presented `n` words, all of them from the source. -/
structure At (s : Settings) (source : σ) (phase : Phase) (n : Nat) (b : Bench σ) : Prop where
  stimulus : b.stimulus = .standing s.stimulus source phase n
  supplied : ∀ k < n, (word? source k).isSome = true
  awaiting : b.awaitingEdge = (phase == .awaitFetch)
  stopped : b.stopped = (phase == .done)
  lines : b.bus.nextInputs = Stimulus.lines s.stimulus source phase n
  issued : b.tally.wordsIssued = n

variable {s : Settings} {source : σ} {b : Bench σ} {phase : Phase} {n : Nat}

theorem At.reschedule (standing : b.At s source phase n) (agenda : Agenda) :
    { b with agenda }.At s source phase n :=
  ⟨standing.stimulus, standing.supplied, standing.awaiting, standing.stopped, standing.lines,
    standing.issued⟩

/-- What a resumption of the stimulus leads to, apart from the place it leads to. -/
structure Resumed (s : Settings) (source : σ) (b : Bench σ) (n : Nat) (d : Bench σ)
    (events : List Event) (phase' : Phase) (n' : Nat) : Prop where
  standing : d.At s source phase' n'
  due : d.agenda.times .stimulus = s.timetable.wakes phase' n'
  clockDue : d.agenda.times .clock = b.agenda.times .clock
  ordered : d.agenda.Ordered
  clockWire : d.bus.clock = b.bus.clock
  told : s.presentations source n ++ events.filter Event.isPresented = s.presentations source n'

/-- A resumption before its wait is turned into a wake-up. -/
def conduct (b : Bench σ) (stimulus : Stimulus σ) (bus : Bus) : Bench σ :=
  { b with stimulus, bus, tally.wordsIssued := stimulus.issued }

theorem resumeStimulus_of_wait {r : Resumption σ} {wait : Wait}
    (resumes : b.stimulus.resume b.now b.bus = r) (waits : r.wait = .ok wait) :
    b.resumeStimulus =
      .done ((b.conduct r.stimulus r.bus).await wait).1
        (r.events ++ ((b.conduct r.stimulus r.bus).await wait).2) := by
  unfold resumeStimulus
  dsimp only
  rw [resumes, waits]
  cases wait <;> rfl

theorem resumeStimulus_of_error {f : Failure} (fails : (b.stimulus.resume b.now b.bus).wait = .error f) :
    b.resumeStimulus =
      ⟨{ b with
          stimulus := (b.stimulus.resume b.now b.bus).stimulus
          bus := (b.stimulus.resume b.now b.bus).bus },
        (b.stimulus.resume b.now b.bus).events, .error (.failure f)⟩ := by
  unfold resumeStimulus
  dsimp only
  rw [fails]

theorem resumed_of_delay {r : Resumption σ} {delay : Nat} {phase' : Phase} {n' : Nat} {u : Nat}
    (resumes : b.stimulus.resume b.now b.bus = r) (waits : r.wait = .ok (.delay delay))
    (ordered : b.agenda.Ordered) (absent : b.agenda.times .stimulus = [])
    (standing : (b.conduct r.stimulus r.bus).At s source phase' n')
    (clockWire : r.bus.clock = b.bus.clock)
    (next : s.timetable.wake? phase' n' = some u) (due : u = b.now + delay)
    (told : s.presentations source n ++ r.events.filter Event.isPresented =
      s.presentations source n') :
    b.resumeStimulus.Ends (fun d events _ => Resumed s source b n d events phase' n')
      fun _ _ _ => False := by
  rw [resumeStimulus_of_wait resumes waits, Turn.ends_done]
  exact {
    standing := standing.reschedule _
    due := by
      rw [Timetable.wakes, next, due]
      exact Agenda.times_add_of_nil (w := ⟨b.now.after delay, .stimulus⟩) absent
    clockDue := Agenda.times_add_of_ne (w := ⟨b.now.after delay, .stimulus⟩) (p := .clock) (by simp) _
    ordered := Agenda.ordered_add ordered _
    clockWire
    told := by simpa [await] using told }

theorem resumed_of_edge {r : Resumption σ} {n' : Nat}
    (resumes : b.stimulus.resume b.now b.bus = r) (waits : r.wait = .ok .risingEdge)
    (ordered : b.agenda.Ordered) (absent : b.agenda.times .stimulus = [])
    (standing : { b.conduct r.stimulus r.bus with awaitingEdge := true }.At s source .awaitFetch n')
    (clockWire : r.bus.clock = b.bus.clock)
    (told : s.presentations source n ++ r.events.filter Event.isPresented =
      s.presentations source n') :
    b.resumeStimulus.Ends (fun d events _ => Resumed s source b n d events .awaitFetch n')
      fun _ _ _ => False := by
  rw [resumeStimulus_of_wait resumes waits, Turn.ends_done]
  exact {
    standing, ordered, clockWire
    due := absent
    clockDue := rfl
    told := by simpa [await] using told }

theorem resumed_of_stop {r : Resumption σ} {n' : Nat}
    (resumes : b.stimulus.resume b.now b.bus = r) (waits : r.wait = .ok .stop)
    (ordered : b.agenda.Ordered) (absent : b.agenda.times .stimulus = [])
    (standing : { b.conduct r.stimulus r.bus with stopped := true }.At s source .done n')
    (clockWire : r.bus.clock = b.bus.clock)
    (told : s.presentations source n ++ r.events.filter Event.isPresented =
      s.presentations source n') :
    b.resumeStimulus.Ends (fun d events _ => Resumed s source b n d events .done n')
      fun _ _ _ => False := by
  rw [resumeStimulus_of_wait resumes waits, Turn.ends_done]
  exact {
    standing, ordered, clockWire
    due := absent
    clockDue := rfl
    told := by simpa [await, Event.isPresented] using told }

variable (ordered : b.agenda.Ordered) (absent : b.agenda.times .stimulus = [])

include ordered absent

theorem resumed_reset (standing : b.At s source .reset 0) (start : b.now = 0) :
    b.resumeStimulus.Ends (fun d events _ => Resumed s source b 0 d events .release 0)
      fun _ _ _ => False := by
  apply resumed_of_delay (by rw [standing.stimulus]) rfl ordered absent
  · exact ⟨rfl, standing.supplied, standing.awaiting, standing.stopped, rfl, rfl⟩
  · rfl
  · rfl
  · rw [start]
    exact (Nat.zero_add _).symm
  · rfl

theorem resumed_release (standing : b.At s source .release 0) (due : b.now = s.timetable.reset) :
    b.resumeStimulus.Ends (fun d events _ => Resumed s source b 0 d events .enable 0)
      fun _ _ _ => False := by
  apply resumed_of_delay (by rw [standing.stimulus]) rfl ordered absent
  · refine ⟨rfl, standing.supplied, standing.awaiting, standing.stopped, ?_, rfl⟩
    have written := b.bus.nextInputs_write_reset false
    rw [standing.lines] at written
    exact written
  · rfl
  · rfl
  · rw [due]
    rfl
  · rfl

theorem resumed_enable_of_more (standing : b.At s source .enable 0) (more : 0 < s.timetable.cycles) :
    b.resumeStimulus.Ends (fun d events _ => Resumed s source b 0 d events .awaitFetch 0)
      fun _ _ _ => False := by
  have cycle := Stimulus.nextCycle_of_more more source .enable
  have written := b.bus.nextInputs_write_enable true
  rw [standing.lines] at written
  apply resumed_of_edge (by rw [standing.stimulus]) _ ordered absent
  · refine ⟨congrArg Prod.fst cycle, standing.supplied, rfl, standing.stopped, written, ?_⟩
    exact congrArg (fun c => c.1.issued) cycle
  · rfl
  · rfl
  · exact congrArg (fun c => Except.ok c.2) cycle

theorem resumed_enable_of_all (standing : b.At s source .enable 0) (all : s.timetable.cycles = 0) :
    b.resumeStimulus.Ends (fun d events _ => Resumed s source b 0 d events .done 0)
      fun _ _ _ => False := by
  have cycle := Stimulus.nextCycle_of_all (Nat.le_of_eq all) source .enable
  have written := b.bus.nextInputs_write_enable true
  rw [standing.lines] at written
  apply resumed_of_stop (by rw [standing.stimulus]) _ ordered absent
  · refine ⟨congrArg Prod.fst cycle, standing.supplied, standing.awaiting, rfl, written, ?_⟩
    exact congrArg (fun c => c.1.issued) cycle
  · rfl
  · rfl
  · exact congrArg (fun c => Except.ok c.2) cycle

omit ordered absent

theorem At.lines_presented (standing : b.At s source .present n) {word : Word}
    (supplied : word? source n = some word) {phase' : Phase}
    (going : phase' = .awaitFetch ∨ phase' = .done) :
    ((b.bus.write .word word).write .arbiterFull (s.stimulus.fullOn (n + 1))).nextInputs =
      Stimulus.lines s.stimulus source phase' (n + 1) := by
  rw [Bus.nextInputs_write_arbiterFull, Bus.nextInputs_write_word, standing.lines,
    Stimulus.lines, Stimulus.lines, drawn_of_word? supplied]
  rcases going with rfl | rfl <;> rfl

theorem At.supplied_succ (standing : b.At s source .present n) {word : Word}
    (supplied : word? source n = some word) : ∀ k < n + 1, (word? source k).isSome = true := by
  intro k below
  rcases Nat.lt_succ_iff_lt_or_eq.mp below with before | rfl
  · exact standing.supplied k before
  · rw [supplied]
    rfl

theorem presentations_presented {word : Word} (supplied : word? source n = some word)
    (due : b.now = s.timetable.word (n + 1)) :
    s.presentations source n ++
        [Event.presented b.now word (s.stimulus.fullOn (n + 1))].filter Event.isPresented =
      s.presentations source (n + 1) := by
  rw [s.presentations_succ, drawn_of_word? supplied, due]
  rfl

include ordered absent

theorem resumed_present_of_more (standing : b.At s source .present n) {word : Word}
    (supplied : word? source n = some word) (due : b.now = s.timetable.word (n + 1))
    (more : n + 1 < s.timetable.cycles) :
    b.resumeStimulus.Ends (fun d events _ => Resumed s source b n d events .awaitFetch (n + 1))
      fun _ _ _ => False := by
  have cycle := Stimulus.nextCycle_of_more more source .present
  have resumes := Stimulus.resume_present_some s.stimulus supplied b.now b.bus
  rw [← standing.stimulus] at resumes
  apply resumed_of_edge resumes _ ordered absent
  · refine ⟨congrArg Prod.fst cycle, standing.supplied_succ supplied, rfl, standing.stopped,
      standing.lines_presented supplied (.inl rfl), ?_⟩
    exact congrArg (fun c => c.1.issued) cycle
  · rfl
  · exact presentations_presented supplied due
  · exact congrArg (fun c => Except.ok c.2) cycle

theorem resumed_present_of_all (standing : b.At s source .present n) {word : Word}
    (supplied : word? source n = some word) (due : b.now = s.timetable.word (n + 1))
    (all : s.timetable.cycles ≤ n + 1) :
    b.resumeStimulus.Ends (fun d events _ => Resumed s source b n d events .done (n + 1))
      fun _ _ _ => False := by
  have cycle := Stimulus.nextCycle_of_all all source .present
  have resumes := Stimulus.resume_present_some s.stimulus supplied b.now b.bus
  rw [← standing.stimulus] at resumes
  apply resumed_of_stop resumes _ ordered absent
  · refine ⟨congrArg Prod.fst cycle, standing.supplied_succ supplied, standing.awaiting, rfl,
      standing.lines_presented supplied (.inr rfl), ?_⟩
    exact congrArg (fun c => c.1.issued) cycle
  · rfl
  · exact presentations_presented supplied due
  · exact congrArg (fun c => Except.ok c.2) cycle

omit ordered absent

theorem exhausted_of_present (standing : b.At s source .present n) (dry : word? source n = none) :
    b.resumeStimulus.Ends (fun _ _ _ => False)
      fun d events halt => events = [] ∧ d.tally = b.tally ∧
        halt = .failure (.exhausted n s.timetable.cycles) := by
  have resumes := Stimulus.resume_present_none s.stimulus dry b.now b.bus
  rw [← standing.stimulus] at resumes
  unfold resumeStimulus
  dsimp only
  rw [resumes]
  exact ⟨rfl, rfl, rfl⟩

end Bench

end IdentifyBench

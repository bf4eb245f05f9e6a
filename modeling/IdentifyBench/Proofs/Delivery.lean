import IdentifyBench.Proofs.Additions

/-! Waveforms on sinks that take whatever is sent to them. A sample leaves there the text of what it
adds, and afterwards the waveform has told every level as it stands. -/
namespace IdentifyBench

structure Snapshot where
  time : Instant
  bus : Bus

/-- Sinks in some states take every piece whole and stay in such states. -/
structure Sink.Accepting {κ : Type} [Sink κ] (ready : κ → Prop) (text : κ → String) : Prop where
  takes : ∀ {out : κ} (piece : String), ready out → (Sink.put out piece).2 = none
  stays : ∀ {out : κ} (piece : String), ready out → ready (Sink.put out piece).1
  keeps : ∀ {out : κ} (piece : String), ready out →
    text (Sink.put out piece).1 = text out ++ piece

/-- From one state of a sink to another it has taken some characters. -/
structure Sink.Took {κ : Type} (ready : κ → Prop) (text : κ → String) (out : κ)
    (characters : List Char) (after : κ) : Prop where
  ready : ready after
  text : (text after).toList = (text out).toList ++ characters

theorem Memory.accepting : Sink.Accepting (fun m : Memory => m.limit = none) Memory.text where
  takes := by
    rintro ⟨text, _⟩ piece rfl
    rfl
  stays := by
    rintro ⟨text, _⟩ piece rfl
    rfl
  keeps := by
    rintro ⟨text, _⟩ piece rfl
    rfl

section

variable {κ : Type} {ready : κ → Prop} {text : κ → String}

theorem Sink.Took.trans {out between after : κ} {left right : List Char}
    (first : Took ready text out left between) (second : Took ready text between right after) :
    Took ready text out (left ++ right) after where
  ready := second.ready
  text := by rw [second.text, first.text, List.append_assoc]

variable [Sink κ] (accepting : Sink.Accepting ready text)

include accepting

theorem Sink.Accepting.put {out : κ} (opened : ready out) (piece : String) :
    ∃ after, Sink.put out piece = (after, none) ∧ Took ready text out piece.toList after :=
  ⟨(Sink.put out piece).1, Prod.ext rfl (accepting.takes piece opened),
    accepting.stays piece opened, by rw [accepting.keeps piece opened, String.toList_append]⟩

theorem Sink.Accepting.putAll {out : κ} (opened : ready out) (pieces : List String) :
    ∃ after, Sink.putAll out pieces = (after, none) ∧
      Took ready text out (pieces.flatMap String.toList) after := by
  induction pieces generalizing out with
  | nil => exact ⟨out, rfl, opened, (List.append_nil _).symm⟩
  | cons piece pieces ih =>
    obtain ⟨between, sent, first⟩ := accepting.put opened piece
    obtain ⟨after, rest, second⟩ := ih first.ready
    refine ⟨after, ?_, first.trans second⟩
    unfold Sink.putAll
    rw [sent]
    exact rest

namespace Waveform

theorem emit_of_accepting (w : Waveform) (b : Bus) {out : κ} (opened : ready out)
    (entries : List Entry) :
    ∃ w' after, w.emit b out entries = (w', after, none) ∧
      Sink.Took ready text out ((entries.flatMap Entry.pieces).flatMap String.toList) after ∧
      w'.time = w.time ∧
      ∀ l, w'.last.get l =
        if l ∈ entries.filterMap Entry.line then some (levelOf b l) else w.last.get l := by
  -- A line counts as told once its entry is begun, so the waveform changes along with the sink.
  induction entries generalizing w out with
  | nil => exact ⟨w, out, rfl, ⟨opened, (List.append_nil _).symm⟩, rfl, fun l => rfl⟩
  | cons e rest ih =>
    obtain ⟨between, sent, first⟩ := accepting.putAll opened e.pieces
    unfold emit
    rw [sent]
    cases about : e.line with
    | none =>
      obtain ⟨w', after, emitted, second, time, last⟩ := ih w first.ready
      refine ⟨w', after, emitted, ?_, time, ?_⟩
      · rw [List.flatMap_cons, List.flatMap_append]
        exact first.trans second
      · rw [List.filterMap_cons_none about]
        exact last
    | some k =>
      obtain ⟨w', after, emitted, second, time, last⟩ :=
        ih { w with last := w.last.set k (some (levelOf b k)) } first.ready
      refine ⟨w', after, emitted, ?_, time, fun l => ?_⟩
      · rw [List.flatMap_cons, List.flatMap_append]
        exact first.trans second
      · rw [List.filterMap_cons_some about, last l]
        by_cases same : k = l
        · subst same
          simp
        · have other : l ≠ k := fun h => same h.symm
          simp [LineTable.get_set_of_ne _ _ same, other]

theorem sample_of_accepting (w : Waveform) (t : Instant) (b : Bus) {out : κ} (opened : ready out) :
    ∃ w' after, w.sample t b out = (w', after, none) ∧
      Sink.Took ready text out ((w.additions t b).flatMap (Dump.line ·.parts)) after ∧
      w'.time = (if w.additions t b = [] then w.time else some t) ∧
      ∀ l, w'.last.get l = some (levelOf b l) := by
  obtain ⟨w', after, emitted, took, time, last⟩ :=
    emit_of_accepting accepting w b opened (w.entries t b)
  rw [toList_entries] at took
  unfold sample
  refine ⟨{ w' with time := if (w.entries t b).isEmpty then w'.time else some t }, after,
    by simp only [emitted], took, ?_, fun l => ?_⟩
  · simp only [time, entries_isEmpty]
  · rw [last l, lines_entries]
    split
    · rfl
    · rename_i settled
      exact not_not.mp fun moves => settled (mem_changed.mpr moves)

end Waveform

end

namespace Waveform

variable {κ : Type} [Sink κ]

def record (w : Waveform) (out : κ) : List Snapshot → Waveform × κ × Option StorageFault
  | [] => (w, out, none)
  | s :: rest =>
    match w.sample s.time s.bus out with
    | (w, out, none) => record w out rest
    | (w, out, some fault) => (w, out, some fault)

def dump (out : κ) (samples : List Snapshot) : Waveform × κ × Option StorageFault :=
  match start out with
  | (out, none) => record blank out samples
  | (out, some fault) => (blank, out, some fault)

theorem record_append (w : Waveform) (out : κ) (before rest : List Snapshot) :
    record w out (before ++ rest) =
      match record w out before with
      | (w, out, none) => record w out rest
      | (w, out, some fault) => (w, out, some fault) := by
  induction before generalizing w out with
  | nil => rfl
  | cons s before ih =>
    rw [List.cons_append, record, record]
    rcases w.sample s.time s.bus out with ⟨w', out', _ | fault⟩
    · exact ih w' out'
    · rfl

theorem dump_append {out between : κ} {before : List Snapshot} {w : Waveform}
    (dumped : dump out before = (w, between, none)) (rest : List Snapshot) :
    dump out (before ++ rest) = record w between rest := by
  unfold dump at dumped ⊢
  cases started : start out with
  | mk begun fault =>
    rw [started] at dumped
    cases fault with
    | none =>
      simp only at dumped ⊢
      rw [record_append, dumped]
    | some fault => cases congrArg (·.2.2) dumped

section Keeps

variable {P : κ → Prop} (kept : ∀ {out : κ} (piece : String), P out → P (Sink.put out piece).1)

include kept

theorem putAll_keeps {out : κ} (holds : P out) (pieces : List String) :
    P (Sink.putAll out pieces).1 := by
  induction pieces generalizing out with
  | nil => exact holds
  | cons piece rest ih =>
    have first := kept piece holds
    unfold Sink.putAll
    split
    · rename_i sent
      rw [sent] at first
      exact ih first
    · rename_i sent
      rw [sent] at first
      exact first

theorem emit_keeps (w : Waveform) (b : Bus) {out : κ} (holds : P out) (entries : List Entry) :
    P (w.emit b out entries).2.1 := by
  induction entries generalizing w out with
  | nil => exact holds
  | cons e rest ih =>
    have first := putAll_keeps kept holds e.pieces
    unfold emit
    dsimp only
    split
    · rename_i sent
      rw [sent] at first
      exact ih _ first
    · rename_i sent
      rw [sent] at first
      exact first

theorem sample_keeps (w : Waveform) (t : Instant) (b : Bus) {out : κ} (holds : P out) :
    P (w.sample t b out).2.1 := by
  have emitted := emit_keeps kept w b holds (w.entries t b)
  unfold sample
  dsimp only
  split
  · rename_i sent
    rw [sent] at emitted
    exact emitted
  · rename_i sent
    rw [sent] at emitted
    exact emitted

theorem record_keeps (w : Waveform) {out : κ} (holds : P out) (samples : List Snapshot) :
    P (record w out samples).2.1 := by
  induction samples generalizing w out with
  | nil => exact holds
  | cons s rest ih =>
    have first := sample_keeps kept w s.time s.bus holds
    unfold record
    split
    · rename_i sent
      rw [sent] at first
      exact ih _ first
    · rename_i sent
      rw [sent] at first
      exact first

end Keeps

section Alike

variable {ι : Type} [Sink ι] {ready : κ → Prop} {text : κ → String} {ready' : ι → Prop}
  {text' : ι → String} (accepting : Sink.Accepting ready text)
  (accepting' : Sink.Accepting ready' text')

include accepting accepting'

/-- Two sinks that take whatever is sent to them get the same of a waveform. -/
theorem record_alike (w : Waveform) {out : κ} {out' : ι} (opened : ready out) (opened' : ready' out')
    (same : text out = text' out') (samples : List Snapshot) :
    ∃ w' after after', record w out samples = (w', after, none) ∧
      record w out' samples = (w', after', none) ∧ ready after ∧ ready' after' ∧
      text after = text' after' := by
  induction samples generalizing w out out' with
  | nil => exact ⟨w, out, out', rfl, rfl, opened, opened', same⟩
  | cons s rest ih =>
    obtain ⟨v, between, sampled, took, time, last⟩ :=
      sample_of_accepting accepting w s.time s.bus opened
    obtain ⟨v', between', sampled', took', time', last'⟩ :=
      sample_of_accepting accepting' w s.time s.bus opened'
    obtain rfl : v' = v := by
      obtain ⟨levels, stamp⟩ := v
      obtain ⟨levels', stamp'⟩ := v'
      obtain rfl : levels' = levels := LineTable.ext_get fun l => (last' l).trans (last l).symm
      obtain rfl : stamp' = stamp := time'.trans time.symm
      rfl
    have texts : text between = text' between' :=
      String.toList_injective (by rw [took.text, took'.text, same])
    obtain ⟨w', after, after', recorded⟩ := ih v' took.ready took'.ready texts
    refine ⟨w', after, after', ?_⟩
    rw [record, sampled, record, sampled']
    exact recorded

theorem dump_alike {out : κ} {out' : ι} (opened : ready out) (opened' : ready' out')
    (same : text out = text' out') (samples : List Snapshot) :
    ∃ w after after', dump out samples = (w, after, none) ∧ dump out' samples = (w, after', none) ∧
      ready after ∧ text after = text' after' := by
  obtain ⟨between, started, took⟩ := accepting.putAll opened header
  obtain ⟨between', started', took'⟩ := accepting'.putAll opened' header
  have texts : text between = text' between' :=
    String.toList_injective (by rw [took.text, took'.text, same])
  obtain ⟨w, after, after', recorded, recorded', ready, _, same⟩ :=
    record_alike accepting accepting' blank took.ready took'.ready texts samples
  refine ⟨w, after, after', ?_, ?_, ready, same⟩
  · rw [dump, start, started]
    exact recorded
  · rw [dump, start, started']
    exact recorded'

end Alike

end Waveform

end IdentifyBench

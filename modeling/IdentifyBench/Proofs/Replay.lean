import IdentifyBench.Proofs.Delivery

/-! A waveform read back from its dump. However many samples a waveform takes, in the order of their
times, every line has at every time the level that the last sample up to then found on it. -/
namespace IdentifyBench

namespace Waveform

open Dump

def lastUpTo (samples : List Snapshot) (t : Instant) : Option Snapshot :=
  (samples.filter (·.time ≤ t)).getLast?

theorem lastUpTo_of_forall_le {samples : List Snapshot} {t : Instant}
    (all : ∀ s ∈ samples, s.time ≤ t) : lastUpTo samples t = samples.getLast? := by
  unfold lastUpTo
  rw [List.filter_eq_self.mpr fun s listed => decide_eq_true (all s listed)]

theorem lastUpTo_append_of_le (samples : List Snapshot) {s : Snapshot} {t : Instant}
    (early : s.time ≤ t) : lastUpTo (samples ++ [s]) t = some s := by
  unfold lastUpTo
  have kept : [s].filter (fun s => decide (s.time ≤ t)) = [s] :=
    List.filter_eq_self.mpr fun _ own => decide_eq_true (List.mem_singleton.mp own ▸ early)
  rw [List.filter_append, kept]
  exact List.getLast?_concat ..

theorem lastUpTo_append_of_lt (samples : List Snapshot) {s : Snapshot} {t : Instant}
    (late : t < s.time) : lastUpTo (samples ++ [s]) t = lastUpTo samples t := by
  unfold lastUpTo
  rw [List.filter_append, List.filter_cons_of_neg (by simpa using late)]
  exact congrArg List.getLast? (List.append_nil _)

/-- What is known of a waveform and of the items it has told after some samples. -/
structure Told (samples : List Snapshot) (w : Waveform) (items : List Item) : Prop where
  last : ∀ l, w.last.get l = samples.getLast?.map fun s => levelOf s.bus l
  time : w.time = (stamps items).getLast?
  begun : w.time = none → samples = []
  past : ∀ last ∈ w.time, ∃ s ∈ samples, s.time = last
  replayed : ∀ l t, latest (code l) (changes t true items) =
    (lastUpTo samples t).map fun s => (levelOf s.bus l).number
  increasing : (stamps items).Pairwise (· < ·)
  silent : samples = [] → items = []
  opening : ∀ s rest, samples = s :: rest →
    ∃ later, items = opening s.time s.bus ++ later ∧ Stamped later
  coded : ∀ i ∈ items, i.Coded

theorem told_blank : Told [] blank [] where
  last l := LineTable.get_ofFn _ l
  time := rfl
  begun _ := rfl
  past _ timed := by cases timed
  replayed _ _ := rfl
  increasing := .nil
  silent _ := rfl
  opening _ _ first := by cases first
  coded _ listed := by cases listed

section Step

variable {samples : List Snapshot} {w w' : Waveform} {items : List Item} {t : Instant} {b : Bus}
  (told : Told samples w items) (ordered : ∀ s ∈ samples, s.time ≤ t)
  (time : w'.time = if w.additions t b = [] then w.time else some t)
  (last : ∀ l, w'.last.get l = some (levelOf b l))

include told

theorem Told.untimed (empty : samples = []) : w.time = none := by
  cases timed : w.time with
  | none => rfl
  | some last =>
    obtain ⟨s, listed, _⟩ := told.past last timed
    rw [empty] at listed
    cases listed

include ordered

theorem Told.stamps_le : ∀ s ∈ stamps items, ∃ last ∈ w.time, s ≤ last ∧ last ≤ t := by
  intro s listed
  rw [told.time]
  obtain ⟨init, last, ends⟩ :=
    (List.eq_nil_or_concat' (stamps items)).resolve_left (List.ne_nil_of_mem listed)
  have timed : (stamps items).getLast? = some last := by
    rw [ends]
    exact List.getLast?_concat ..
  refine ⟨last, timed, ?_, ?_⟩
  · have increasing := told.increasing
    rw [ends] at listed increasing
    rcases List.mem_append.mp listed with early | final
    · exact Nat.le_of_lt ((List.pairwise_append.mp increasing).2.2 s early last (.head _))
    · exact Nat.le_of_eq (List.mem_singleton.mp final)
  · obtain ⟨sample, taken, rfl⟩ := told.past last (told.time.trans timed)
    exact ordered sample taken

theorem Told.replayed_step (l : Line) (q : Instant) :
    latest (code l) (changes q true (items ++ w.additions t b)) =
      (lastUpTo (samples ++ [⟨t, b⟩]) q).map fun s => (levelOf s.bus l).number := by
  have stamped : w.time = some t →
      (stamps items).getLast?.elim true (fun last => decide (last ≤ q)) = decide (t ≤ q) := by
    intro same
    rw [← told.time, same]
    rfl
  rw [changes_append, w.changes_additions t b q stamped, latest_append, told.replayed]
  by_cases due : t ≤ q
  · rw [lastUpTo_append_of_le samples due, if_pos due, latest_moved]
    split
    · rfl
    · rename_i settled
      -- Not told anew: the level is still that of the last sample, which is the last one due.
      have whole : lastUpTo samples q = samples.getLast? :=
        lastUpTo_of_forall_le fun s listed => Nat.le_trans (ordered s listed) due
      have told := told.last l
      rw [not_not.mp fun moves => settled (mem_changed.mpr moves)] at told
      obtain ⟨s, final, same⟩ := Option.map_eq_some_iff.mp told.symm
      rw [whole, final, Option.map_some, same]
      rfl
  · rw [if_neg due, lastUpTo_append_of_lt samples (Nat.lt_of_not_le due)]
    rfl

include time last

theorem Told.step : Told (samples ++ [⟨t, b⟩]) w' (items ++ w.additions t b) where
  last l := by
    rw [last l, List.getLast?_append]
    rfl
  time := by
    rw [time, stamps_append, List.getLast?_append, ← told.time]
    obtain ⟨_, adds, added⟩ | ⟨same, added⟩ | ⟨_, added⟩ := w.stamps_additions t b
    · rw [added, if_neg adds]
      rfl
    · rw [added, same, ite_self]
      rfl
    · rw [added, if_pos rfl]
      rfl
  begun := by
    intro untimed
    rw [time] at untimed
    obtain ⟨_, adds, _⟩ | ⟨same, _⟩ | ⟨timed, nothing⟩ := w.stamps_additions t b
    · rw [if_neg adds] at untimed
      cases untimed
    · rw [same, ite_self] at untimed
      cases untimed
    · rw [if_pos nothing] at untimed
      exact absurd untimed timed
  past := by
    intro stamp timed
    rw [time] at timed
    split at timed
    · obtain ⟨s, listed, same⟩ := told.past stamp timed
      exact ⟨s, List.mem_append_left _ listed, same⟩
    · exact ⟨⟨t, b⟩, List.mem_append_right _ (.head _), Option.some.inj timed⟩
  replayed := told.replayed_step ordered
  increasing := by
    rw [stamps_append]
    obtain ⟨differs, _, added⟩ | ⟨_, added⟩ | ⟨_, added⟩ := w.stamps_additions t b
    · rw [added]
      -- The last stamp is not later than the sample, and a stamp is added only if it is earlier.
      refine List.pairwise_append.mpr ⟨told.increasing, List.pairwise_singleton .., ?_⟩
      intro s listed _ own
      obtain ⟨last, timed, early, late⟩ := told.stamps_le ordered s listed
      rw [List.mem_singleton.mp own]
      have apart : last ≠ t := fun same => differs (same ▸ timed)
      exact Nat.lt_of_le_of_lt early (Nat.lt_of_le_of_ne late apart)
    · rw [added, List.append_nil]
      exact told.increasing
    · rw [added]
      exact (List.append_nil _).symm ▸ told.increasing
  silent empty := absurd empty (List.append_ne_nil_of_right_ne_nil _ (List.cons_ne_nil _ _))
  opening := by
    intro s rest first
    cases samples with
    | nil =>
      obtain ⟨rfl, rfl⟩ := List.cons.inj first
      refine ⟨[], ?_, trivial⟩
      rw [told.silent rfl, w.additions_of_fresh t b told.last (told.untimed rfl)]
      exact (List.append_nil _).symm
    | cons s' rest' =>
      obtain ⟨rfl, rfl⟩ := List.cons.inj first
      obtain ⟨later, told', stamped⟩ := told.opening s' rest' rfl
      have timed : w.time ≠ none := fun untimed => List.cons_ne_nil _ _ (told.begun untimed)
      exact ⟨later ++ w.additions t b, by rw [told', List.append_assoc],
        stamped.append (w.stamped_additions t b timed)⟩
  coded i listed := (List.mem_append.mp listed).elim (told.coded i) (w.additions_coded t b i)

end Step

section Header

def declaration (l : Line) : Variable := ⟨l.name, l.width, code l⟩

theorem declaration_named (l : Line) : (declaration l).Named where
  code := code_solid l
  codeOpen := by cases l <;> decide
  name := by cases l <;> decide
  nameOpen := by cases l <;> decide

def headings : List (List String) :=
  [["$version", "identify-core", "0.3.0", "$end"], ["$timescale", "1", "ps", "$end"],
   ["$scope", "module", "top", "$end"]] ++
  (Line.all.map declaration).map Variable.parts ++
  [["$upscope", "$end"], ["$enddefinitions", "$end"]]

theorem toList_header : header.flatMap String.toList = headings.flatMap Dump.line := by
  have declared (l : Line) :
      ("$var wire " ++ toString l.width ++ " " ++ code l ++ " " ++ l.name ++ " $end\n").toList =
        Dump.line (declaration l).parts := by
    simp [declaration, Dump.line, Variable.parts]
  have before : ["$version identify-core 0.3.0 $end\n", "$timescale 1 ps $end\n",
      "$scope module top $end\n"].flatMap String.toList =
      [["$version", "identify-core", "0.3.0", "$end"], ["$timescale", "1", "ps", "$end"],
        ["$scope", "module", "top", "$end"]].flatMap Dump.line := by decide
  have after : ["$upscope $end\n", "$enddefinitions $end\n"].flatMap String.toList =
      [["$upscope", "$end"], ["$enddefinitions", "$end"]].flatMap Dump.line := by decide
  unfold header headings
  rw [List.flatMap_append, List.flatMap_append, List.flatMap_append, List.flatMap_append, before,
    after, List.flatMap_map, List.flatMap_map, List.flatMap_map]
  simp only [declared]

theorem headings_solid : ∀ parts ∈ headings, ∀ word ∈ parts, Solid word.toList := by
  unfold headings
  simp only [List.forall_mem_append, List.forall_mem_map]
  exact ⟨⟨by decide, fun l _ => (declaration_named l).solid⟩, by decide⟩

theorem declarations?_header (body : List Char) :
    declarations? [] (words (header.flatMap String.toList ++ body)) =
      some (Line.all.map declaration, words body) := by
  have named : ∀ v ∈ Line.all.map declaration, v.Named :=
    List.forall_mem_map.mpr fun l _ => declaration_named l
  have flat : headings.flatten ++ words body =
      "$version" :: ["identify-core", "0.3.0"] ++ "$end" ::
      ("$timescale" :: ["1", "ps"] ++ "$end" ::
      ("$scope" :: ["module", "top"] ++ "$end" ::
      ((Line.all.map declaration).flatMap Variable.parts ++
      ("$upscope" :: [] ++ "$end" :: "$enddefinitions" :: "$end" :: words body)))) := by
    unfold headings
    simp [List.flatMap_def]
  have ended : declarations? [] ("$upscope" :: [] ++ "$end" :: "$enddefinitions" :: "$end" ::
      words body) = some ([], words body) := by
    rw [declarations?_skip (by decide) (by decide) (by decide)]
    rfl
  rw [toList_header, words_lines headings_solid, flat,
    declarations?_skip (by decide) (by decide) (by decide),
    declarations?_skip (by decide) (by decide) (by decide),
    declarations?_skip (by decide) (by decide) (by decide),
    Variable.declarations?_all ended named, List.append_nil]

theorem names_distinct : (Line.all.map Line.name).Nodup := by decide

theorem ofName?_name (l : Line) : Line.ofName? l.name = some l := by
  cases found : Line.ofName? l.name with
  | none => exact absurd (beq_self_eq_true l.name) (List.find?_eq_none.mp found l l.mem_all)
  | some k =>
    have same : k.name = l.name := by
      simpa using List.find?_some (p := fun m : Line => m.name == l.name) found
    exact congrArg some (List.inj_on_of_nodup_map names_distinct k.mem_all l.mem_all same)

theorem find?_declaration (l : Line) :
    (Line.all.map declaration).find? (·.name == l.name) = some (declaration l) := by
  rw [List.find?_map]
  exact congrArg (Option.map declaration) (ofName?_name l)

end Header

def reading (b : Bus) (l : Line) : Reading := ⟨l.width, (levelOf b l).number⟩

/-- What a reader finds in the dump of some samples. -/
structure Replays (samples : List Snapshot) (d : Dump) : Prop where
  declared : d.declared = Line.all.map declaration
  distinct : (d.declared.map Variable.code).Nodup
  replayed : ∀ (l : Line) t, d.value? l.name t = (lastUpTo samples t).map fun s => reading s.bus l
  increasing : (stamps d.items).Pairwise (· < ·)
  silent : samples = [] → d.items = []
  opening : ∀ s rest, samples = s :: rest →
    ∃ later, d.items = Waveform.opening s.time s.bus ++ later ∧ Stamped later

theorem Told.replays {samples : List Snapshot} {w : Waveform} {items : List Item}
    (told : Told samples w items) : Replays samples ⟨Line.all.map declaration, items⟩ where
  declared := rfl
  distinct := by
    rw [List.map_map]
    exact codes_distinct
  replayed l t := by
    unfold value?
    simp only [find?_declaration, Option.bind_eq_bind, Option.bind_some]
    show ((latest (code l) (changes t true items)).bind _) = _
    rw [told.replayed]
    cases lastUpTo samples t <;> rfl
  increasing := told.increasing
  silent := told.silent
  opening := told.opening

section Record

variable {κ : Type} [Sink κ] {ready : κ → Prop} {text : κ → String}
  (accepting : Sink.Accepting ready text)

include accepting

theorem record_of_accepting {before samples : List Snapshot} {w : Waveform} {items : List Item}
    {out : κ} (told : Told before w items) (opened : ready out)
    (ordered : (before ++ samples).Pairwise fun s s' => s.time ≤ s'.time) :
    ∃ w' after more, record w out samples = (w', after, none) ∧
      Sink.Took ready text out (more.flatMap (Dump.line ·.parts)) after ∧
      Told (before ++ samples) w' (items ++ more) := by
  -- What holds after the samples before is carried on by each step to those after it.
  induction samples generalizing before w items out with
  | nil =>
    refine ⟨w, out, [], rfl, ⟨opened, (List.append_nil _).symm⟩, ?_⟩
    rwa [List.append_nil, List.append_nil]
  | cons s rest ih =>
    have earlier : ∀ s' ∈ before, s'.time ≤ s.time := fun s' listed =>
      (List.pairwise_append.mp ordered).2.2 s' listed s (.head _)
    obtain ⟨w', between, sampled, first, time, last⟩ :=
      sample_of_accepting accepting w s.time s.bus opened
    have split : before ++ s :: rest = (before ++ [s]) ++ rest := by
      rw [List.append_assoc, List.singleton_append]
    rw [split] at ordered ⊢
    obtain ⟨w'', after, more, recorded, second, told⟩ :=
      ih (told.step earlier time last) first.ready ordered
    refine ⟨w'', after, w.additions s.time s.bus ++ more, ?_, ?_, ?_⟩
    · unfold record
      rw [sampled]
      exact recorded
    · rw [List.flatMap_append]
      exact first.trans second
    · rwa [← List.append_assoc]

theorem dump_of_accepting {samples : List Snapshot} {out : κ} (opened : ready out)
    (ordered : samples.Pairwise fun s s' => s.time ≤ s'.time) :
    ∃ w after items, dump out samples = (w, after, none) ∧
      Sink.Took ready text out
        (header.flatMap String.toList ++ items.flatMap (Dump.line ·.parts)) after ∧
      Told samples w items := by
  obtain ⟨between, started, first⟩ := accepting.putAll opened header
  obtain ⟨w, after, items, recorded, second, told⟩ :=
    record_of_accepting accepting told_blank first.ready ordered
  refine ⟨w, after, items, ?_, first.trans second, told⟩
  unfold dump start
  rw [started]
  exact recorded

end Record

/-- What the part of a dump says that one sample adds after another. -/
structure Adds (earlier later : Snapshot) (part : String) : Prop where
  changes : ∃ items, items? (words part.toList) = some items ∧
    items.filterMap Item.change? =
      (Line.all.filter fun l => levelOf earlier.bus l ≠ levelOf later.bus l).map fun l =>
        (code l, (levelOf later.bus l).number)
  silent : (∀ l, levelOf earlier.bus l = levelOf later.bus l) → part = ""

theorem Told.adds {before : List Snapshot} {earlier later : Snapshot} {w : Waveform}
    {items : List Item} (told : Told (before ++ [earlier]) w items) :
    Adds earlier later
      (String.ofList ((w.additions later.time later.bus).flatMap (Dump.line ·.parts))) := by
  have last (l : Line) : w.last.get l = some (levelOf earlier.bus l) := by
    rw [told.last l, List.getLast?_concat]
    rfl
  have changed : w.changed later.bus =
      Line.all.filter fun l => levelOf earlier.bus l ≠ levelOf later.bus l := by
    refine List.filter_congr fun l _ => ?_
    rw [last l, Bool.eq_iff_iff]
    simp
  refine ⟨⟨w.additions later.time later.bus, ?_, ?_⟩, fun still => ?_⟩
  · rw [String.toList_ofList, Item.items?_lines (w.additions_coded _ _)]
  · rw [w.filterMap_additions, moved, changed]
  · have nothing : w.changed later.bus = [] := by
      rw [changed]
      exact List.filter_eq_nil_iff.mpr fun l _ => by simp [still l]
    have timed : w.time ≠ none := fun untimed => by simpa using told.begun untimed
    have added : w.additions later.time later.bus = [] := by
      obtain ⟨last, stamped⟩ := Option.ne_none_iff_exists'.mp timed
      unfold additions changeItems
      rw [stamped, nothing]
      exact if_pos (.inr rfl)
    rw [added]
    rfl

section

variable {κ : Type} [Sink κ] {ready : κ → Prop} {text : κ → String}
  (accepting : Sink.Accepting ready text) {out : κ} (opened : ready out)

include accepting opened

theorem dump_adds {before : List Snapshot} {earlier later : Snapshot}
    (ordered : (before ++ [earlier]).Pairwise fun s s' => s.time ≤ s'.time) :
    ∃ part, text (dump out (before ++ [earlier, later])).2.1 =
        text (dump out (before ++ [earlier])).2.1 ++ part ∧
      Adds earlier later part := by
  obtain ⟨w, between, _, prior, first, told⟩ := dump_of_accepting accepting opened ordered
  obtain ⟨w', after, sampled, second, _⟩ :=
    sample_of_accepting accepting w later.time later.bus first.ready
  have both : dump out (before ++ [earlier, later]) = (w', after, none) := by
    rw [List.append_cons, dump_append prior, record, sampled]
    rfl
  refine ⟨_, ?_, told.adds⟩
  rw [both, prior]
  apply String.toList_injective
  rw [second.text, String.toList_append, String.toList_ofList]

/-- A waveform that takes samples in the order of their times, on a sink that takes all it is sent,
never fails, and what it writes is read back as a dump that has every line, at every time, at the
level of the last sample up to then, under a code of its own and in its own width. The stamps grow; all
levels are given in the opening under the first of them, and every later one is followed by a change.
What each sample adds after another are changes for the lines that moved in between, and nothing at all
if no line did. -/
theorem dump_replays (samples : List Snapshot)
    (ordered : samples.Pairwise fun s s' => s.time ≤ s'.time) :
    ∃ w after written d, dump out samples = (w, after, none) ∧ text after = text out ++ written ∧
      read? written = some d ∧ Replays samples d ∧
      ∀ before earlier later rest, samples = before ++ earlier :: later :: rest →
        ∃ part, text (dump out (before ++ [earlier, later])).2.1 =
            text (dump out (before ++ [earlier])).2.1 ++ part ∧
          Adds earlier later part := by
  obtain ⟨w, after, items, dumped, took, told⟩ := dump_of_accepting accepting opened ordered
  refine ⟨w, after, String.ofList (header.flatMap String.toList ++
    items.flatMap (Dump.line ·.parts)), ⟨Line.all.map declaration, items⟩, dumped, ?_, ?_,
    told.replays, ?_⟩
  · apply String.toList_injective
    rw [took.text, String.toList_append, String.toList_ofList]
  · unfold read?
    rw [String.toList_ofList, declarations?_header]
    simp only [Option.bind_eq_bind, Option.bind_some, Item.items?_lines told.coded]
    rfl
  · rintro before earlier later rest rfl
    rw [List.append_cons] at ordered
    exact dump_adds accepting opened (List.pairwise_append.mp ordered).1

end

/-- A clock that rises, a word that comes in at the same time, and a sample that finds nothing new. -/
theorem replayed_of_memory :
    let rising : Bus := (Bus.idle.write .clock true).commit.1
    let loaded : Bus := (rising.write .word (0x48000004 : Word)).commit.1
    let samples : List Snapshot := [⟨0, Bus.idle⟩, ⟨5000, rising⟩, ⟨5000, loaded⟩, ⟨6000, loaded⟩]
    ∃ w after d, dump (Memory.empty none) samples = (w, after, none) ∧ read? after.text = some d ∧
      d.value? "i_clk" 4999 = some ⟨1, 0⟩ ∧ d.value? "i_clk" 5000 = some ⟨1, 1⟩ ∧
      d.value? "i_instr" 7000 = some ⟨32, 0x48000004⟩ := by
  intro rising loaded samples
  have ordered : samples.Pairwise fun s s' => s.time ≤ s'.time := by
    simp [samples]
  obtain ⟨w, after, written, d, dumped, text, read, replays, _⟩ :=
    dump_replays Memory.accepting (rfl : (Memory.empty none).limit = none) samples ordered
  refine ⟨w, after, d, dumped, ?_, replays.replayed .clock 4999, replays.replayed .clock 5000,
    replays.replayed .word 7000⟩
  rw [text]
  exact String.empty_append.symm ▸ read

end Waveform

end IdentifyBench

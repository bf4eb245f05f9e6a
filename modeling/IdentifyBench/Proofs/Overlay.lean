import IdentifyBench.Settings.Load
import IdentifyBench.Proofs.Members
import Mathlib

/-! Documents laid over the standard settings. What a document gives is what the settings have, the rest is
standard, whether a member is missing, its section or everything; and neither the order of the members
nor the white space nor what else the document says has any effect. -/
namespace IdentifyBench.Settings
open Document Reader

/-! ### What a document gives -/

structure GivenGeneral where
  maxTime : Option (Option UInt64)
  maxDeltaRounds : Option UInt64
  logObservations : Option Bool
  keepObservations : Option Bool

structure GivenClock where
  period : Option UInt64

inductive GivenSource
  | random (seed : Option UInt64)
  | fixed (words : List Word)

structure GivenStimulus where
  reset : Option UInt64
  settle : Option UInt64
  fetchDelay : Option UInt64
  cycles : Option UInt64
  arbiterFullEvery : Option UInt64
  source : Option GivenSource

structure GivenTrace where
  enabled : Option Bool
  path : Option String

structure Given where
  general : Option GivenGeneral
  clock : Option GivenClock
  stimulus : Option GivenStimulus
  trace : Option GivenTrace

/-! ### How it is written -/

def GivenGeneral.Written (g : GivenGeneral) (text : List Char) : Prop :=
  ∃ members, Object members text ∧
    Gives members "max_time_ps" Limit g.maxTime ∧
    Gives members "max_delta_rounds" Number g.maxDeltaRounds ∧
    Gives members "log_observations" Flag g.logObservations ∧
    Gives members "keep_observations" Flag g.keepObservations ∧
    Others ["max_time_ps", "max_delta_rounds", "log_observations", "keep_observations"] members

def GivenClock.Written (g : GivenClock) (text : List Char) : Prop :=
  ∃ members, Object members text ∧ Gives members "period_ps" Number g.period ∧
    Others ["period_ps"] members

/-- Words are numbers, separated by commas. -/
def Words (words : List Word) (text : List Char) : Prop :=
  ∃ inside, Listed (fun (w : Word) item => Nat.toDigits 10 w.toNat = item) words inside ∧
    text = '[' :: (inside ++ [']'])

/-- A source has its kind and what belongs to the kind, in any order and nothing else. -/
def GivenSource.Written (g : GivenSource) (text : List Char) : Prop :=
  ∃ members, Object members text ∧
    match g with
    | .random seed => Gives members "kind" Text (some "Random") ∧ Gives members "seed" Number seed ∧
        ∀ m ∈ members, m.1 = "kind" ∨ m.1 = "seed"
    | .fixed words => Gives members "kind" Text (some "Fixed") ∧
        Gives members "words" Words (some words) ∧ ∀ m ∈ members, m.1 = "kind" ∨ m.1 = "words"

def GivenStimulus.Written (g : GivenStimulus) (text : List Char) : Prop :=
  ∃ members, Object members text ∧
    Gives members "reset_ps" Number g.reset ∧
    Gives members "settle_ps" Number g.settle ∧
    Gives members "fetch_delay_ps" Number g.fetchDelay ∧
    Gives members "cycles" Number g.cycles ∧
    Gives members "arbiter_full_every" Number g.arbiterFullEvery ∧
    Gives members "source" GivenSource.Written g.source ∧
    Others ["reset_ps", "settle_ps", "fetch_delay_ps", "cycles", "arbiter_full_every", "source"] members

def GivenTrace.Written (g : GivenTrace) (text : List Char) : Prop :=
  ∃ members, Object members text ∧ Gives members "enabled" Flag g.enabled ∧
    Gives members "path" Text g.path ∧ Others ["enabled", "path"] members

def Given.Written (g : Given) (text : List Char) : Prop :=
  ∃ before object after members, Blank before ∧ Blank after ∧ text = before ++ (object ++ after) ∧
    Object members object ∧
    Gives members "general" GivenGeneral.Written g.general ∧
    Gives members "clock" GivenClock.Written g.clock ∧
    Gives members "stimulus" GivenStimulus.Written g.stimulus ∧
    Gives members "trace" GivenTrace.Written g.trace ∧
    Others ["general", "clock", "stimulus", "trace"] members

/-! ### What it amounts to -/

def GivenGeneral.onto (g : GivenGeneral) (s : GeneralSettings) : GeneralSettings where
  maxTime := g.maxTime.getD s.maxTime
  maxDeltaRounds := g.maxDeltaRounds.getD s.maxDeltaRounds
  logObservations := g.logObservations.getD s.logObservations
  keepObservations := g.keepObservations.getD s.keepObservations

def GivenClock.onto (g : GivenClock) (s : ClockSettings) : ClockSettings where
  period := g.period.getD s.period

/-- A random source without a seed has the standard seed, whatever source it replaces. -/
def GivenSource.settings : GivenSource → SourceSettings
  | .random seed => .random (seed.getD SourceSettings.standardSeed)
  | .fixed words => .fixed words

def GivenStimulus.onto (g : GivenStimulus) (s : StimulusSettings) : StimulusSettings where
  reset := g.reset.getD s.reset
  settle := g.settle.getD s.settle
  fetchDelay := g.fetchDelay.getD s.fetchDelay
  cycles := g.cycles.getD s.cycles
  arbiterFullEvery := g.arbiterFullEvery.getD s.arbiterFullEvery
  source := (g.source.map GivenSource.settings).getD s.source

def GivenTrace.onto (g : GivenTrace) (s : TraceSettings) : TraceSettings where
  enabled := g.enabled.getD s.enabled
  path := g.path.getD s.path

def Given.onto (g : Given) (s : Settings) : Settings where
  general := (g.general.map (·.onto s.general)).getD s.general
  clock := (g.clock.map (·.onto s.clock)).getD s.clock
  stimulus := (g.stimulus.map (·.onto s.stimulus)).getD s.stimulus
  trace := (g.trace.map (·.onto s.trace)).getD s.trace

/-! ### Sources -/

def kept (words : List Word) : List UInt64 := (words.map fun w => UInt64.ofNat w.toNat).reverse

theorem toNat_ofNat (w : Word) : (UInt64.ofNat w.toNat).toNat = w.toNat := by
  have := w.isLt
  simp
  omega

theorem reads_part {n : UInt64} {text : List Char} (number : Number n text) (depth : Nat) :
    Reads depth .gathered text (deliver (.number n)) id := by
  subst number
  exact reads_scalar fun rest apart => ⟨_, tokens_natural n apart, .number _, .gathered rfl⟩

theorem reads_words {words : List Word} {text : List Char} (written : Words words text) {depth : Nat}
    (shallow : depth < maxDepth) : Reads depth .gathered text (deliver (.numbers (kept words))) id := by
  obtain ⟨inside, listed, rfl⟩ := written
  refine reads_bracket .list (fun result (rest : List Word) frame s => result = s ∧
    ∃ ns, frame = .gathered (.numbers ns) ∧ kept rest ++ ns = kept words)
    (.gathered (.numbers [])) listed ?_ ?_ ?_ ?_
  · intro root r inner aimed size
    rw [start, aimed]
    dsimp only
    rw [if_neg (by omega)]
  · intro s
    exact ⟨rfl, [], rfl, List.append_nil _⟩
  · intro result
    apply advances_item (fun w : Word => Nat.toDigits 10 w.toNat)
    rintro w rest frame s ⟨rfl, ns, rfl, same⟩
    have number : Number (UInt64.ofNat w.toNat) (Nat.toDigits 10 w.toNat) := by
      rw [Number, toNat_ofNat]
    refine ⟨.gathered, deliver (.number (UInt64.ofNat w.toNat)), id,
      .gathered (.numbers (UInt64.ofNat w.toNat :: ns)), reads_part number _, ⟨rfl, _, rfl, ?_⟩,
      by simp, fun root outer => ⟨rfl, rfl⟩⟩
    rw [← same]
    simp [kept]
  · rintro result frame s g outer ⟨rfl, ns, rfl, same⟩
    rw [finish, ← same]
    rfl

namespace GivenSource

def kind : GivenSource → SourceKind
  | .random _ => .random
  | .fixed _ => .fixed

def part : GivenSource → Option Gathered
  | .random seed => seed.map .number
  | .fixed words => some (.numbers (kept words))

theorem gives_kind {members : List (String × List Char)} {label : String} {k : SourceKind}
    (labelled : Gives members "kind" Text (some label))
    (named : Reader.kind (.text (.value label)) = .ok k) (depth : Nat) :
    Gives members "kind" (fun k v => Reads depth .kind v (setKind k) id) (some k) := by
  apply labelled.imp fun _ => k
  rintro _ ⟨⟩ v written
  exact reads_scalar fun rest _ => ⟨_, tokens_written written rest, .text _, .kind named⟩

theorem gives_parts {g : GivenSource} {text : List Char} (written : g.Written text) {depth : Nat}
    (shallow : depth < maxDepth) : ∃ members, Object members text ∧
      Gives members "kind" (fun k v => Reads depth .kind v (setKind k) id) (some g.kind) ∧
      Gives members (Draft.member g.kind) (fun x v => Reads depth .gathered v (deliver x) id) g.part ∧
      ∀ m ∈ members, m.1 = "kind" ∨ m.1 = Draft.member g.kind := by
  obtain ⟨members, object, written⟩ := written
  refine ⟨members, object, ?_⟩
  cases g with
  | random seed =>
    obtain ⟨kinds, seeds, only⟩ := written
    have seeds : Gives members "seed" (fun x v => Reads depth .gathered v (deliver x) id)
        (seed.map .number) := by
      apply seeds.imp Gathered.number
      intro n _ v number
      exact reads_part number depth
    exact ⟨gives_kind kinds rfl depth, seeds, only⟩
  | fixed words =>
    obtain ⟨kinds, lists, only⟩ := written
    have lists : Gives members "words" (fun x v => Reads depth .gathered v (deliver x) id)
        (some (Gathered.numbers (kept words))) := by
      apply lists.imp fun ws => Gathered.numbers (kept ws)
      intro ws _ v written
      exact reads_words written shallow
    exact ⟨gives_kind kinds rfl depth, lists, only⟩

def take (k : SourceKind) (x : Gathered) (d : Draft) (name : String) : Draft :=
  if name = "kind" then { d with kind := some k } else { d with parts := (name, x) :: d.parts }

theorem source?_kept (words : List Word) :
    Draft.source? .fixed [.numbers (kept words)] = some (.fixed words) := by
  have small : (kept words).all (· < 0x100000000) = true := by
    simp only [kept, List.all_reverse, List.all_map, List.all_eq_true]
    intro w _
    have := w.isLt
    simp [UInt64.lt_iff_toNat_lt]
    omega
  have back : (kept words).reverse.map (fun n => BitVec.ofNat 32 n.toNat) = words := by
    simp only [kept, List.reverse_reverse, List.map_map]
    conv_rhs => rw [← List.map_id words]
    apply List.map_congr_left
    intro w _
    simp only [Function.comp_apply, toNat_ofNat]
    simp
  rw [Draft.source?, if_pos small, back]

/-- The members of a source make it up in any order. -/
theorem ofObject?_take (g : GivenSource) {names : List String}
    (kind : names.count "kind" = 1) (part : names.count (Draft.member g.kind) = g.part.toList.length)
    (only : ∀ name ∈ names, name = "kind" ∨ name = Draft.member g.kind) :
    (names.foldl (take g.kind (g.part.getD .other)) .new).ofObject? = some g.settings := by
  have apart : Draft.member g.kind ≠ "kind" := by cases g <;> simp [Draft.member, GivenSource.kind]
  have same : names.Perm ("kind" :: List.replicate g.part.toList.length (Draft.member g.kind)) := by
    rw [List.perm_iff_count]
    intro name
    by_cases isKind : name = "kind"
    · simp [isKind, kind, List.count_replicate, apart]
    · by_cases isPart : name = Draft.member g.kind
      · simp [isPart, part, apart.symm]
      · have outside : name ∉ names := fun inside => (only name inside).elim isKind isPart
        simp [List.count_eq_zero_of_not_mem outside, List.count_replicate, Ne.symm isKind,
          Ne.symm isPart]
  rw [same.foldl_eq']
  · cases g with
    | random seed => cases seed <;> rfl
    | fixed words => exact source?_kept words
  · intro a first b second d
    rcases only a first with rfl | rfl <;> rcases only b second with rfl | rfl <;>
      simp [take, apart]

/-- Between two members of a source: those to come complete the draft, and no second kind is among them. -/
structure Midway (depth : Nat) (g : GivenSource) (put : SourceSettings → Settings → Settings)
    (result : Settings) (members : List (String × List Char)) (frame : Frame) (s : Settings) : Prop where
  framed : ∃ draft label, frame = .tagged put draft label ∧
    ((members.map (·.1)).foldl (take g.kind (g.part.getD .other)) draft).ofObject? = some g.settings ∧
    (members.map (·.1)).count "kind" + draft.kind.toList.length ≤ 1
  kinds : ∀ m ∈ members, m.1 = "kind" → Reads (depth + 1) .kind m.2 (setKind g.kind) id
  parts : ∀ m ∈ members, m.1 ≠ "kind" →
    Reads (depth + 1) .gathered m.2 (deliver (g.part.getD .other)) id
  leads : result = put g.settings s

theorem Midway.advances {depth : Nat} (g : GivenSource) (put : SourceSettings → Settings → Settings)
    (result : Settings) :
    Advances .object depth (Member fun name spelled => Spells name.toList spelled)
      (Midway depth g put result) := by
  apply advances_member
  intro m ms frame s midway
  obtain ⟨draft, label, rfl, made, once⟩ := midway.framed
  have kinds (w : String × List Char) (inside : w ∈ ms) := midway.kinds w (List.mem_cons_of_mem m inside)
  have parts (w : String × List Char) (inside : w ∈ ms) := midway.parts w (List.mem_cons_of_mem m inside)
  rw [List.map_cons, List.count_cons] at once
  rw [List.map_cons, List.foldl_cons] at made
  have named (rest : Grammar) (s : Settings) (outer : List Frame) :
      name ⟨rest, .tagged put draft label :: outer, s⟩ (.text (.value m.1)) =
        .ok ⟨rest, .tagged put draft m.1 :: outer, s⟩ := by
    have first : ¬(m.1 = "kind" ∧ draft.kind.isSome = true) := by
      rintro ⟨isKind, again⟩
      obtain ⟨k, known⟩ := Option.isSome_iff_exists.mp again
      simp [isKind, known] at once
    simp [name, Reading.value, bind, Except.bind, pure, Except.pure, first]
  have lexed (spelled rest : List Char) (spells : Spells m.1.toList spelled) :=
    tokens_name spells rest
  by_cases isKind : m.1 = "kind"
  · refine ⟨.kind, setKind g.kind, id, .tagged put draft m.1,
      .tagged put { draft with kind := some g.kind } m.1, midway.kinds m List.mem_cons_self isKind,
      ⟨⟨_, _, rfl, ?_, ?_⟩, kinds, parts, midway.leads⟩, by simp,
      fun spelled rest spells => ⟨_, lexed spelled rest spells, named⟩, ?_⟩
    · simpa [take, isKind] using made
    · simp [isKind] at once ⊢
      omega
    · intro root outer
      exact ⟨by simp [target, isKind], rfl⟩
  · refine ⟨.gathered, deliver (g.part.getD .other), id, .tagged put draft m.1,
      .tagged put { draft with parts := (m.1, g.part.getD .other) :: draft.parts } m.1,
      midway.parts m List.mem_cons_self isKind,
      ⟨⟨_, _, rfl, ?_, ?_⟩, kinds, parts, midway.leads⟩, by simp,
      fun spelled rest spells => ⟨_, lexed spelled rest spells, named⟩, ?_⟩
    · simpa [take, isKind] using made
    · simpa [isKind] using once
    · intro root outer
      exact ⟨by simp [target, isKind], rfl⟩

theorem reads {g : GivenSource} {text : List Char} (written : g.Written text) {depth : Nat}
    (shallow : depth + 1 < maxDepth) (put : SourceSettings → Settings → Settings) :
    Reads depth (.layout (.source put)) text id (put g.settings) := by
  obtain ⟨members, object, kinds, parts, only⟩ := gives_parts written shallow
  obtain ⟨inside, listed, rfl⟩ := object
  have names (name : String) (inside : name ∈ members.map (·.1)) :
      name = "kind" ∨ name = Draft.member g.kind := by
    obtain ⟨m, member, rfl⟩ := List.mem_map.mp inside
    exact only m member
  refine reads_bracket .object (Midway depth g put) (.tagged put .new "") listed ?_ ?_
    (Midway.advances g put) ?_
  · intro root r inner aimed _
    rw [start, aimed]
  · intro s
    refine ⟨⟨.new, "", rfl, ofObject?_take g kinds.count parts.count names, ?_⟩, ?_, ?_, rfl⟩
    · exact Nat.le_of_eq kinds.count
    · intro m inside isKind
      obtain ⟨_, ⟨⟩, reads⟩ := kinds.of_mem inside isKind
      exact reads
    · intro m inside isPart
      obtain ⟨x, given, reads⟩ := parts.of_mem inside ((only m inside).resolve_left isPart)
      rw [Option.mem_def.mp given]
      exact reads
  · intro result frame s grammar outer midway
    obtain ⟨draft, label, rfl, made, _⟩ := midway.framed
    have source : draft.ofObject? = some g.settings := made
    simp [finish, source, midway.leads]

end GivenSource

/-! ### Sections -/

section

variable {text : List Char} (depth : Nat)

theorem GivenGeneral.reads {g : GivenGeneral} (written : g.Written text) :
    Reads depth (.layout .general) text id fun s => { s with general := g.onto s.general } := by
  obtain ⟨members, object, maxTime, maxDeltaRounds, logObservations, keepObservations, others⟩ := written
  exact reads_record object (by decide)
    (.cons (maxTime.takes reads_limit (·.general.maxTime) fun _ => rfl) <|
      .cons (maxDeltaRounds.takes reads_number (·.general.maxDeltaRounds) fun _ => rfl) <|
      .cons (logObservations.takes reads_flag (·.general.logObservations) fun _ => rfl) <|
      .cons (keepObservations.takes reads_flag (·.general.keepObservations) fun _ => rfl) .nil)
    others (by simp [Function.Commute, Function.Semiconj])

theorem GivenClock.reads {g : GivenClock} (written : g.Written text) :
    Reads depth (.layout .clock) text id fun s => { s with clock := g.onto s.clock } := by
  obtain ⟨members, object, period, others⟩ := written
  exact reads_record object (by decide)
    (.cons (period.takes reads_number (·.clock.period) fun _ => rfl) .nil)
    others (List.pairwise_singleton _ _)

theorem GivenStimulus.reads {g : GivenStimulus} (written : g.Written text)
    (shallow : depth + 2 < maxDepth) :
    Reads depth (.layout .stimulus) text id fun s => { s with stimulus := g.onto s.stimulus } := by
  obtain ⟨members, object, reset, settle, fetchDelay, cycles, arbiterFullEvery, source, others⟩ := written
  have source : Gives members "source"
      (fun x v => ∀ put, Reads (depth + 1) (.layout (.source put)) v id (put x))
      (g.source.map GivenSource.settings) :=
    source.imp GivenSource.settings fun _ _ _ written => GivenSource.reads written shallow
  exact reads_record object (by decide)
    (.cons (reset.takes reads_number (·.stimulus.reset) fun _ => rfl) <|
      .cons (settle.takes reads_number (·.stimulus.settle) fun _ => rfl) <|
      .cons (fetchDelay.takes reads_number (·.stimulus.fetchDelay) fun _ => rfl) <|
      .cons (cycles.takes reads_number (·.stimulus.cycles) fun _ => rfl) <|
      .cons (arbiterFullEvery.takes reads_number (·.stimulus.arbiterFullEvery) fun _ => rfl) <|
      .cons (source.takes (fun reads => reads _) (·.stimulus.source) fun _ => rfl) .nil)
    others (by simp [Function.Commute, Function.Semiconj])

theorem GivenTrace.reads {g : GivenTrace} (written : g.Written text) :
    Reads depth (.layout .trace) text id fun s => { s with trace := g.onto s.trace } := by
  obtain ⟨members, object, enabled, path, others⟩ := written
  exact reads_record object (by decide)
    (.cons (enabled.takes reads_flag (·.trace.enabled) fun _ => rfl) <|
      .cons (path.takes reads_text (·.trace.path) fun _ => rfl) .nil)
    others (by simp [Function.Commute, Function.Semiconj])

end

/-! ### Documents -/

theorem Given.reads {g : Given} {text : List Char} {members : List (String × List Char)}
    (object : Object members text) (general : Gives members "general" GivenGeneral.Written g.general)
    (clock : Gives members "clock" GivenClock.Written g.clock)
    (stimulus : Gives members "stimulus" GivenStimulus.Written g.stimulus)
    (trace : Gives members "trace" GivenTrace.Written g.trace)
    (others : Others ["general", "clock", "stimulus", "trace"] members) :
    Reads 0 (.layout .document) text id g.onto :=
  reads_record object (by decide)
    (.cons (general.changes (fun g s => { s with general := (g.map (·.onto s.general)).getD s.general })
        (GivenGeneral.reads _) rfl) <|
      .cons (clock.changes (fun g s => { s with clock := (g.map (·.onto s.clock)).getD s.clock })
        (GivenClock.reads _) rfl) <|
      .cons (stimulus.changes
        (fun g s => { s with stimulus := (g.map (·.onto s.stimulus)).getD s.stimulus })
        (fun written => GivenStimulus.reads _ written (by decide)) rfl) <|
      .cons (trace.changes (fun g s => { s with trace := (g.map (·.onto s.trace)).getD s.trace })
        (GivenTrace.reads _) rfl) .nil)
    others (by simp [Function.Commute, Function.Semiconj])

theorem readAs_of_reads {layout : Layout} {change : Settings → Settings} {text : String}
    {before value after : List Char} (blank : Blank before) (trailing : Blank after)
    (spelled : text.toList = before ++ (value ++ after))
    (reads : Reads 0 (.layout layout) value id change) :
    readAs layout text = .ok (change standard) := by
  have apart : Apart (after ++ []) := Apart.of_blank trailing nofun
  rw [List.append_nil] at apart
  have nothing : tokens after = [] := by simpa [tokens] using tokens_blank trailing []
  have last : run layout ⟨.new, [], standard⟩ text.toList =
      .ok ⟨⟨[], true⟩, [], change standard⟩ := by
    rw [spelled, run_blank blank]
    refine (reads layout [] [] [] standard after trivial rfl apart rfl).trans ?_
    rw [run, nothing]
    rfl
  rw [readAs]
  change run layout _ _ >>= _ = _
  rw [last]
  rfl

/-- Reading succeeds, and takes nothing from the document but what it gives. -/
theorem read_written {g : Given} {text : String} (written : g.Written text.toList) :
    read text = .ok (g.onto standard) := by
  obtain ⟨before, object, after, members, blank, trailing, spelled, members', general, clock,
    stimulus, trace, others⟩ := written
  exact readAs_of_reads blank trailing spelled
    (Given.reads members' general clock stimulus trace others)

theorem readStimulus_written {g : GivenStimulus} {text : String} {before object after : List Char}
    (blank : Blank before) (trailing : Blank after) (written : g.Written object)
    (spelled : text.toList = before ++ (object ++ after)) :
    readStimulus text = .ok (g.onto .standard) := by
  have reads := GivenStimulus.reads 0 written (by decide)
  rw [readStimulus, readAs_of_reads blank trailing spelled reads]
  rfl

theorem valid_of_check {s s' : Settings} (checked : s.check = .ok s') : s'.Valid := by
  unfold check at checked
  split at checked
  · rename_i sound
    cases checked
    exact sound
  · cases checked

theorem valid_of_parse {text : String} {s : Settings} (parsed : parse text = .ok s) : s.Valid := by
  unfold parse at parsed
  cases known : (read text).mapError Failure.settingsMalformed with
  | error fault =>
    rw [known] at parsed
    cases parsed
  | ok found =>
    rw [known] at parsed
    exact valid_of_check parsed

theorem valid_of_ofFile {path : String} {text : Except StorageFault String} {s : Settings}
    (loaded : ofFile path text = .ok s) : s.Valid := by
  unfold ofFile at loaded
  cases known : text.mapError (Failure.settingsUnread path) with
  | error fault =>
    rw [known] at loaded
    cases loaded
  | ok text =>
    rw [known] at loaded
    exact valid_of_parse loaded

theorem valid_of_load {storage : Storage} {path : String} {s : Settings}
    (loaded : load storage path = .ok s) : s.Valid := valid_of_ofFile loaded

theorem check_eq (s : Settings) :
    s.check = if s.clock.period < 2 then
        .error (.settingsInvalid (Problem.periodTooShort s.clock.period).text)
      else if s.general.maxDeltaRounds = 0 then .error (.settingsInvalid Problem.noDeltaRounds.text)
      else .ok s := by
  unfold check problem?
  split_ifs <;> rfl

/-- A document is laid over the standard settings, whichever members it has and in whichever order.
The result is refused just if a run cannot use it. -/
theorem documents_overlay :
    (∀ (g : Given) (text : String), g.Written text.toList →
      parse text = if (g.onto standard).clock.period < 2 then
          .error (.settingsInvalid (Problem.periodTooShort (g.onto standard).clock.period).text)
        else if (g.onto standard).general.maxDeltaRounds = 0 then
          .error (.settingsInvalid Problem.noDeltaRounds.text)
        else .ok (g.onto standard)) ∧
    (∀ (g : Given) (text text' : String), g.Written text.toList → g.Written text'.toList →
      parse text = parse text') ∧
    (∀ text s, parse text = .ok s → s.Valid) ∧
    ∀ storage path s, load storage path = .ok s → s.Valid := by
  have parsed (g : Given) (text : String) (written : g.Written text.toList) :
      parse text = (g.onto standard).check := by
    rw [parse, read_written written]
    rfl
  refine ⟨?_, ?_, fun _ _ => valid_of_parse, fun _ _ _ => valid_of_load⟩
  · intro g text written
    rw [parsed g text written, check_eq]
  · intro g text text' written written'
    rw [parsed g text written, parsed g text' written']

/-- Two documents give the same words, the longer one in another order and with more around them. A file
gives nothing at all. -/
theorem documents_overlay_of_fixed :
    (∃ s : Settings, s = { standard with
        stimulus := { StimulusSettings.standard with source := .fixed [7] } } ∧
      parse "\x7b\"stimulus\":\x7b\"source\":\x7b\"kind\":\"Fixed\",\"words\":[7]\x7d\x7d\x7d" = .ok s ∧
      parse "\x7b\"note\":[null], \"stimulus\":\x7b\"source\":\x7b\"words\":[7],\"kind\":\"Fixed\"\x7d\x7d\x7d " =
        .ok s ∧ s.Valid) ∧
    load ⟨[(⟨false, ["a"]⟩, "\x7b\x7d".toUTF8)], [], none⟩ "a" = .ok standard ∧ standard.Valid := by
  have blank : Blank [] := by simp [Blank]
  have space : Blank [' '] := by simp [Blank]
  have pair (name : String) (plain : ∀ c ∈ name.toList, Plain c) (value : List Char) :
      Member (fun name spelled => Spells (String.toList name) spelled) (name, value)
        ('"' :: (name.toList ++ '"' :: ([] ++ ':' :: ([] ++ value)))) :=
    .pair (spells_plain plain) blank blank
  have kind : Text "Fixed" "\"Fixed\"".toList := ⟨_, spells_plain (by simp [Plain]), rfl⟩
  have words : Words [7] "[7]".toList := ⟨_, .last blank rfl blank, rfl⟩
  have first := pair "kind" (by simp [Plain]) "\"Fixed\"".toList
  have second := pair "words" (by simp [Plain]) "[7]".toList
  have source : (GivenSource.fixed [7]).Written _ :=
    ⟨_, ⟨_, .more blank first blank (List.cons_ne_nil _ _) (.last blank second blank), rfl⟩,
      gives_some.mpr ⟨_, rfl, kind⟩, gives_some.mpr ⟨_, rfl, words⟩, by simp⟩
  have source' : (GivenSource.fixed [7]).Written _ :=
    ⟨_, ⟨_, .more blank second blank (List.cons_ne_nil _ _) (.last blank first blank), rfl⟩,
      gives_some.mpr ⟨_, rfl, kind⟩, gives_some.mpr ⟨_, rfl, words⟩, by simp⟩
  have stimulus {text : List Char} (source : (GivenSource.fixed [7]).Written text) :
      GivenStimulus.Written ⟨none, none, none, none, none, some (.fixed [7])⟩ _ :=
    ⟨_, ⟨_, .last blank (pair "source" (by simp [Plain]) text) blank, rfl⟩, gives_none.mpr rfl,
      gives_none.mpr rfl, gives_none.mpr rfl, gives_none.mpr rfl, gives_none.mpr rfl,
      gives_some.mpr ⟨_, rfl, source⟩, by simp [Others]⟩
  have null : ∀ v ∈ ["null".toList], WellFormed v := List.forall_mem_singleton.mpr .null
  have note : WellFormed "[null]".toList := .list (.last blank rfl blank) null
  let g : Given := ⟨none, none, some ⟨none, none, none, none, none, some (.fixed [7])⟩, none⟩
  have written : g.Written _ :=
    ⟨[], _, [], _, blank, blank, rfl, ⟨_, .last blank (pair "stimulus" (by simp [Plain]) _) blank, rfl⟩,
      gives_none.mpr rfl, gives_none.mpr rfl, gives_some.mpr ⟨_, rfl, stimulus source⟩,
      gives_none.mpr rfl, by simp [Others]⟩
  have written' : g.Written _ :=
    ⟨[], _, [' '], _, blank, space, rfl,
      ⟨_, .more blank (pair "note" (by simp [Plain]) "[null]".toList) blank (List.cons_ne_nil _ _)
        (.last space (pair "stimulus" (by simp [Plain]) _) blank), rfl⟩,
      gives_none.mpr rfl, gives_none.mpr rfl, gives_some.mpr ⟨_, rfl, stimulus source'⟩,
      gives_none.mpr rfl, by simpa [Others] using note⟩
  obtain ⟨overlay, same, valid, valid'⟩ := documents_overlay
  have parsed := overlay g
    "\x7b\"stimulus\":\x7b\"source\":\x7b\"kind\":\"Fixed\",\"words\":[7]\x7d\x7d\x7d" written
  rw [if_neg (by decide), if_neg (by decide)] at parsed
  have either := same g
    "\x7b\"stimulus\":\x7b\"source\":\x7b\"kind\":\"Fixed\",\"words\":[7]\x7d\x7d\x7d"
    "\x7b\"note\":[null], \"stimulus\":\x7b\"source\":\x7b\"words\":[7],\"kind\":\"Fixed\"\x7d\x7d\x7d "
    written written'
  have loaded : load ⟨[(⟨false, ["a"]⟩, "\x7b\x7d".toUTF8)], [], none⟩ "a" = .ok standard := by cbv
  exact ⟨⟨g.onto standard, rfl, parsed, either.symm.trans parsed, valid _ _ parsed⟩, loaded,
    valid' _ _ _ loaded⟩

end IdentifyBench.Settings

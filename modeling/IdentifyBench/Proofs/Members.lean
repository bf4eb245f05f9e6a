import IdentifyBench.Proofs.Parsing
import Mathlib.Data.List.Nodup
import Mathlib.Data.List.Pairwise
import Mathlib.Data.List.Perm.Basic
import Mathlib.Logic.Function.Conjugate

/-! Records read member by member. Each member changes the settings for itself, unknown members change
nothing, and as changes to different members commute, the order of the members is no matter. -/
namespace IdentifyBench.Settings
open Document Reader

/-! ### Values and how they are written -/

def Number (n : UInt64) (text : List Char) : Prop := text = Nat.toDigits 10 n.toNat

def Limit (limit : Option UInt64) (text : List Char) : Prop :=
  match limit with
  | none => text = "null".toList
  | some n => Number n text

def Flag (value : Bool) (text : List Char) : Prop := text = (toString value).toList

def Text (value : String) (text : List Char) : Prop :=
  ∃ spelled, Spells value.toList spelled ∧ text = '"' :: (spelled ++ ['"'])

def Object (members : List (String × List Char)) (text : List Char) : Prop :=
  ∃ inside, Listed (Member fun name spelled => Spells name.toList spelled) members inside ∧
    text = '{' :: (inside ++ ['}'])

def valuesOf (members : List (String × List Char)) (name : String) : List (List Char) :=
  (members.filter (·.1 == name)).map (·.2)

/-- The member of this name is there once with the given value, or not at all. -/
def Gives {α : Type} (members : List (String × List Char)) (name : String)
    (Writes : α → List Char → Prop) (given : Option α) : Prop :=
  List.Forall₂ Writes given.toList (valuesOf members name)

/-- Nothing is asked of other members but that they are JSON. -/
def Others (known : List String) (members : List (String × List Char)) : Prop :=
  ∀ m ∈ members, m.1 ∉ known → WellFormed m.2

variable {depth : Nat} {text : List Char} {members : List (String × List Char)}

theorem reads_number {put : UInt64 → Settings → Settings} {n : UInt64} (number : Number n text) :
    Reads depth (.layout (.number put)) text id (put n) := by
  subst number
  exact reads_scalar fun rest apart => ⟨_, tokens_natural n apart, .number _, .stored rfl⟩

theorem reads_limit {put : Option UInt64 → Settings → Settings} {limit : Option UInt64}
    (written : Limit limit text) : Reads depth (.layout (.limit put)) text id (put limit) := by
  cases limit with
  | none =>
    cases written
    exact reads_scalar fun rest _ => ⟨_, tokens_null rest, .literal _, .stored rfl⟩
  | some n =>
    cases written
    exact reads_scalar fun rest apart => ⟨_, tokens_natural n apart, .number _, .stored rfl⟩

theorem reads_flag {put : Bool → Settings → Settings} {value : Bool} (written : Flag value text) :
    Reads depth (.layout (.flag put)) text id (put value) := by
  subst written
  cases value with
  | true => exact reads_scalar fun rest _ => ⟨_, tokens_true rest, .literal _, .stored rfl⟩
  | false => exact reads_scalar fun rest _ => ⟨_, tokens_false rest, .literal _, .stored rfl⟩

theorem tokens_written {value : String} (written : Text value text) (rest : List Char) :
    tokens (text ++ rest) = .text (.value value) :: tokens rest := by
  obtain ⟨spelled, spells, rfl⟩ := written
  simpa using tokens_text spells rest

theorem reads_text {put : String → Settings → Settings} {value : String} (written : Text value text) :
    Reads depth (.layout (.text put)) text id (put value) :=
  reads_scalar fun rest _ => ⟨_, tokens_written written rest, .text _, .stored rfl⟩

/-! ### One member -/

/-- What a record's member changes, whether it is given or not. -/
structure Takes (depth : Nat) (members : List (String × List Char)) (field : String × Layout)
    (change : Settings → Settings) : Prop where
  once : (valuesOf members field.1).length ≤ 1
  reads : ∀ v ∈ valuesOf members field.1, Reads (depth + 1) (.layout field.2) v id change
  absent : valuesOf members field.1 = [] → change = id

theorem count_names (members : List (String × List Char)) (name : String) :
    (members.map (·.1)).count name = (valuesOf members name).length := by
  rw [valuesOf, List.length_map, ← List.countP_eq_length_filter, List.count, List.countP_map]
  rfl

section

variable {α β : Type} {name : String} {Writes : α → List Char → Prop}

theorem gives_none : Gives members name Writes none ↔ valuesOf members name = [] :=
  List.forall₂_nil_left_iff

theorem gives_some {x : α} :
    Gives members name Writes (some x) ↔ ∃ v, valuesOf members name = [v] ∧ Writes x v := by
  constructor
  · intro gives
    obtain ⟨v, rest, writes, others, same⟩ := List.forall₂_cons_left_iff.mp gives
    cases List.forall₂_nil_left_iff.mp others
    exact ⟨v, same, writes⟩
  · rintro ⟨v, one, writes⟩
    rw [Gives, one]
    exact .cons writes .nil

theorem mem_valuesOf {m : String × List Char} (inside : m ∈ members) : m.2 ∈ valuesOf members m.1 :=
  List.mem_map.mpr ⟨m, List.mem_filter.mpr ⟨inside, beq_self_eq_true m.1⟩, rfl⟩

theorem Gives.of_mem {given : Option α} (gives : Gives members name Writes given)
    {m : String × List Char} (inside : m ∈ members) (named : m.1 = name) :
    ∃ x ∈ given, Writes x m.2 := by
  have value := mem_valuesOf inside
  rw [named] at value
  cases given with
  | none =>
    rw [gives_none.mp gives] at value
    cases value
  | some x =>
    obtain ⟨v, one, writes⟩ := gives_some.mp gives
    rw [one, List.mem_singleton] at value
    rw [value]
    exact ⟨x, rfl, writes⟩

theorem Gives.imp {given : Option α} (gives : Gives members name Writes given) (f : α → β)
    {Writes' : β → List Char → Prop} (read : ∀ x ∈ given, ∀ v, Writes x v → Writes' (f x) v) :
    Gives members name Writes' (given.map f) := by
  cases given with
  | none => exact gives_none.mpr (gives_none.mp gives)
  | some x =>
    obtain ⟨v, one, writes⟩ := gives_some.mp gives
    exact gives_some.mpr ⟨v, one, read x rfl v writes⟩

theorem Gives.count {given : Option α} (gives : Gives members name Writes given) :
    (members.map (·.1)).count name = given.toList.length :=
  (count_names members name).trans gives.length_eq.symm

theorem Gives.changes {given : Option α} (gives : Gives members name Writes given) {l : Layout}
    (change : Option α → Settings → Settings)
    (reads : ∀ {x v}, Writes x v → Reads (depth + 1) (.layout l) v id (change (some x)))
    (kept : change none = id) : Takes depth members (name, l) (change given) := by
  cases given with
  | none =>
    have missing := gives_none.mp gives
    exact ⟨by simp [missing], by simp [missing], fun _ => kept⟩
  | some x =>
    obtain ⟨v, one, writes⟩ := gives_some.mp gives
    refine ⟨by simp [one], ?_, by simp [one]⟩
    intro w inside
    rw [one, List.mem_singleton] at inside
    rw [inside]
    exact reads writes

theorem Gives.takes {given : Option α} (gives : Gives members name Writes given) {l : Layout}
    {put : α → Settings → Settings}
    (reads : ∀ {x v}, Writes x v → Reads (depth + 1) (.layout l) v id (put x)) (get : Settings → α)
    (kept : ∀ s, put (get s) s = s) :
    Takes depth members (name, l) fun s => put (given.getD (get s)) s :=
  gives.changes (fun given s => put (given.getD (get s)) s) reads (funext kept)

end

/-! ### All members -/

def changeAll (change : String → Settings → Settings) (s : Settings) (names : List String) : Settings :=
  names.foldl (fun s name => change name s) s

theorem changeAll_filter {change : String → Settings → Settings} (p : String → Bool)
    {names : List String} (idle : ∀ name ∈ names, p name = false → change name = id) (s : Settings) :
    changeAll change s (names.filter p) = changeAll change s names := by
  induction names generalizing s with
  | nil => rfl
  | cons name names ih =>
    have ih := ih fun other inside => idle other (List.mem_cons_of_mem name inside)
    cases kept : p name with
    | true =>
      rw [List.filter_cons_of_pos kept]
      exact ih (change name s)
    | false =>
      have same : change name = id := idle name List.mem_cons_self kept
      rw [List.filter_cons_of_neg (by simp [kept]), ih]
      show _ = changeAll change (change name s) names
      rw [same]
      rfl

/-- Each known name at most once, the changes have the same effect in the order of the document as
in any other. -/
theorem changeAll_eq {change : String → Settings → Settings} {given known : List String}
    (distinct : known.Nodup) (once : ∀ name ∈ known, given.count name ≤ 1)
    (absent : ∀ name ∈ known, name ∉ given → change name = id)
    (unknown : ∀ name ∉ known, change name = id)
    (commute : ∀ a ∈ known, ∀ b ∈ known, Function.Commute (change a) (change b))
    (s : Settings) : changeAll change s given = changeAll change s known := by
  have single : (given.filter (· ∈ known)).Nodup := by
    rw [List.nodup_iff_count_le_one]
    intro name
    by_cases inside : name ∈ known
    · rw [List.count_filter (by simpa using inside)]
      exact once name inside
    · have outside : name ∉ given.filter (· ∈ known) := by simp [inside]
      simp [List.count_eq_zero_of_not_mem outside]
  have same : (given.filter (· ∈ known)).Perm (known.filter (· ∈ given)) := by
    rw [List.perm_ext_iff_of_nodup single (distinct.filter _)]
    intro name
    simp [and_comm]
  have fromGiven : changeAll change s (given.filter (· ∈ known)) = changeAll change s given :=
    changeAll_filter _ (fun name _ outside => unknown name (by simpa using outside)) s
  have fromKnown : changeAll change s (known.filter (· ∈ given)) = changeAll change s known :=
    changeAll_filter _ (fun name inside outside => absent name inside (by simpa using outside)) s
  rw [← fromGiven, ← fromKnown]
  apply same.foldl_eq'
  intro a left b right z
  exact commute b (by simpa using (List.mem_filter.mp right).2) a
    (by simpa using (List.mem_filter.mp left).2) z

theorem exists_change {R : String × Layout → (Settings → Settings) → Prop}
    {fields : List (String × Layout)} {changes : List (Settings → Settings)}
    (distinct : (fields.map (·.1)).Nodup) (related : List.Forall₂ R fields changes) :
    ∃ change : String → Settings → Settings, changes = fields.map (fun f => change f.1) ∧
      (∀ f ∈ fields, R f (change f.1)) ∧ ∀ name ∉ fields.map (·.1), change name = id := by
  induction related with
  | nil => exact ⟨fun _ => id, rfl, by simp, fun _ _ => rfl⟩
  | @cons f c fields changes head tail ih =>
    obtain ⟨new, distinct⟩ := List.nodup_cons.mp distinct
    obtain ⟨change, rfl, holds, unknown⟩ := ih distinct
    have other (g : String × Layout) (inside : g ∈ fields) : g.1 ≠ f.1 := by
      intro same
      exact new (List.mem_map.mpr ⟨g, inside, same⟩)
    refine ⟨Function.update change f.1 c, ?_, ?_, ?_⟩
    · have rest : fields.map (fun g => Function.update change f.1 c g.1) =
          fields.map (fun g => change g.1) :=
        List.map_congr_left fun g inside => Function.update_of_ne (other g inside) c change
      rw [List.map_cons, rest, Function.update_self]
    · intro g inside
      rcases List.mem_cons.mp inside with rfl | inside
      · rw [Function.update_self]
        exact head
      · rw [Function.update_of_ne (other g inside)]
        exact holds g inside
    · intro name outside
      rw [List.map_cons, List.mem_cons, not_or] at outside
      rw [Function.update_of_ne outside.1]
      exact unknown name outside.2

/-! ### Records -/

theorem tokens_name {name : String} {spelled : List Char} (spells : Spells name.toList spelled)
    (rest : List Char) :
    tokens ('"' :: (spelled ++ '"' :: rest)) = .text (.value name) :: tokens rest := by
  simpa using tokens_text spells rest

section

variable {fields : List (String × Layout)} {seen : List String} {current : Option Layout}
  {label : String} (g : Grammar) (s : Settings) (outer : List Frame)

theorem name_unknown (unknown : fields.find? (·.1 == label) = none) :
    name ⟨g, .record fields seen current :: outer, s⟩ (.text (.value label)) =
      .ok ⟨g, .record fields seen none :: outer, s⟩ := by
  simp [name, Reading.value, bind, Except.bind, unknown, pure, Except.pure]

theorem name_known {f : String × Layout} (known : fields.find? (·.1 == label) = some f)
    (fresh : label ∉ seen) :
    name ⟨g, .record fields seen current :: outer, s⟩ (.text (.value label)) =
      .ok ⟨g, .record fields (label :: seen) (some f.2) :: outer, s⟩ := by
  simp [name, Reading.value, bind, Except.bind, known, fresh, pure, Except.pure]

end

/-- Between two members of a record: each known member is still to come or has been seen, at most once
in all, and those to come lead to the result. -/
structure Midway (depth : Nat) (fields : List (String × Layout)) (change : String → Settings → Settings)
    (result : Settings) (members : List (String × List Char)) (frame : Frame) (s : Settings) : Prop where
  framed : ∃ seen current, frame = .record fields seen current ∧
    ∀ name ∈ fields.map (·.1), (members.map (·.1)).count name + seen.count name ≤ 1
  known : ∀ m ∈ members, ∀ f ∈ fields, f.1 = m.1 →
    Reads (depth + 1) (.layout f.2) m.2 id (change m.1)
  others : Others (fields.map (·.1)) members
  leads : result = changeAll change s (members.map (·.1))

theorem Midway.advances {fields : List (String × Layout)} {change : String → Settings → Settings}
    (unknown : ∀ name ∉ fields.map (·.1), change name = id) (result : Settings) :
    Advances .object depth (Member fun name spelled => Spells name.toList spelled)
      (Midway depth fields change result) := by
  apply advances_member
  intro m ms frame s midway
  obtain ⟨seen, current, rfl, once⟩ := midway.framed
  have known (w : String × List Char) (inside : w ∈ ms) := midway.known w (List.mem_cons_of_mem m inside)
  have others : Others (fields.map (·.1)) ms :=
    fun w inside => midway.others w (List.mem_cons_of_mem m inside)
  cases found : fields.find? (·.1 == m.1) with
  | none =>
    have outside : m.1 ∉ fields.map (·.1) := by
      intro inside
      obtain ⟨f, listed, same⟩ := List.mem_map.mp inside
      exact List.find?_eq_none.mp found f listed (by simp [same])
    have stays : change m.1 = id := unknown m.1 outside
    refine ⟨.passed, id, id, .record fields seen none, .record fields seen none,
      reads_of_wellFormed (midway.others m List.mem_cons_self outside) _,
      ⟨⟨seen, none, rfl, ?_⟩, known, others, ?_⟩, nofun, ?_, fun root outer => ⟨rfl, rfl⟩⟩
    · intro name inside
      have bound := once name inside
      rw [List.map_cons] at bound
      exact Nat.le_trans (Nat.add_le_add_right (List.count_le_count_cons ..) _) bound
    · rw [midway.leads]
      show changeAll change (change m.1 s) _ = _
      rw [stays]
    · intro spelled rest spells
      exact ⟨_, tokens_name spells rest, fun g s outer => name_unknown g s outer found⟩
  | some f =>
    have listed : f ∈ fields := List.mem_of_find?_eq_some found
    have same : f.1 = m.1 := by simpa using List.find?_some found
    have inside : m.1 ∈ fields.map (·.1) := List.mem_map.mpr ⟨f, listed, same⟩
    have bound := once m.1 inside
    rw [List.map_cons, List.count_cons_self] at bound
    have fresh : m.1 ∉ seen := List.count_eq_zero.mp (by omega)
    refine ⟨.layout f.2, id, change m.1, .record fields (m.1 :: seen) (some f.2),
      .record fields (m.1 :: seen) (some f.2), midway.known m List.mem_cons_self f listed same,
      ⟨⟨m.1 :: seen, some f.2, rfl, ?_⟩, known, others, midway.leads⟩, nofun, ?_,
      fun root outer => ⟨rfl, rfl⟩⟩
    · intro name inside
      have bound := once name inside
      rw [List.map_cons, List.count_cons] at bound
      rw [List.count_cons]
      omega
    · intro spelled rest spells
      exact ⟨_, tokens_name spells rest, fun g s outer => name_known g s outer found fresh⟩

/-- A record is read as the changes of its members, in the order of its layout. -/
theorem reads_record {fields : List (String × Layout)} {changes : List (Settings → Settings)}
    (object : Object members text) (distinct : (fields.map (·.1)).Nodup)
    (takes : List.Forall₂ (Takes depth members) fields changes)
    (others : Others (fields.map (·.1)) members)
    (commute : changes.Pairwise Function.Commute) :
    Reads depth (.layout (.record fields)) text id
      fun s => changes.foldl (fun s change => change s) s := by
  obtain ⟨inside, listed, rfl⟩ := object
  obtain ⟨change, rfl, takes, unknown⟩ := exists_change distinct takes
  have once (name : String) (known : name ∈ fields.map (·.1)) :
      (members.map (·.1)).count name ≤ 1 := by
    obtain ⟨f, listed, rfl⟩ := List.mem_map.mp known
    rw [count_names]
    exact (takes f listed).once
  have absent (name : String) (known : name ∈ fields.map (·.1))
      (missing : name ∉ members.map (·.1)) : change name = id := by
    obtain ⟨f, listed, rfl⟩ := List.mem_map.mp known
    apply (takes f listed).absent
    rw [← List.length_eq_zero_iff, ← count_names]
    exact List.count_eq_zero_of_not_mem missing
  have commute (a : String) (left : a ∈ fields.map (·.1)) (b : String)
      (right : b ∈ fields.map (·.1)) : Function.Commute (change a) (change b) := by
    obtain ⟨f, first, rfl⟩ := List.mem_map.mp left
    obtain ⟨f', second, rfl⟩ := List.mem_map.mp right
    have symm : Std.Symm (Function.Commute (α := Settings)) := ⟨fun _ _ both => both.symm⟩
    exact commute.forall_of_forall (fun a _ => .refl a) (List.mem_map_of_mem first)
      (List.mem_map_of_mem second)
  have ordered (s : Settings) : (fields.map fun f => change f.1).foldl (fun s change => change s) s =
      changeAll change s (members.map (·.1)) := by
    rw [changeAll_eq distinct once absent unknown commute, changeAll, List.foldl_map, List.foldl_map]
  refine reads_bracket .object (Midway depth fields change) (.record fields [] none) listed ?_ ?_
    (Midway.advances unknown) ?_
  · intro root r inner aimed _
    rw [start, aimed]
  · intro s
    refine ⟨⟨[], none, rfl, by simpa using once⟩, ?_, others, ordered s⟩
    intro m inside f listed same
    rw [← same]
    apply (takes f listed).reads
    rw [same]
    exact mem_valuesOf inside
  · intro result frame s g outer midway
    obtain ⟨seen, current, rfl, _⟩ := midway.framed
    rw [midway.leads]
    rfl

end IdentifyBench.Settings

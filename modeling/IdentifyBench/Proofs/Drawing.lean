import IdentifyBench.Source

/-! What a sample is drawn with. A script holds the answers to requests, in their order, and fails where it
is asked for something else. So the scripts that lead to a sample tell all that is asked for, in which
range, and what becomes of it. With any generator, what is drawn is what the script of its answers leads
to. -/
namespace IdentifyBench

/-- An answer, with the range that was asked for. -/
inductive Answer
  | roll (case : Fin 8)
  | field (width : Nat) (value : BitVec width)
  | pick (n : Nat) (place : Fin n)
  | flag (set : Bool)
  | number (value : UInt32)

namespace Answer

def roll? : Answer → Option (Fin 8)
  | roll case => some case
  | _ => none

def field? (width : Nat) : Answer → Option (BitVec width)
  | field width' value => if same : width' = width then some (value.cast same) else none
  | _ => none

def pick? (n : Nat) : Answer → Option (Fin n)
  | pick n' place => if same : n' = n then some (place.cast same) else none
  | _ => none

def flag? : Answer → Option Bool
  | flag set => some set
  | _ => none

def number? : Answer → Option UInt32
  | number value => some value
  | _ => none

variable {a : Answer}

theorem roll?_eq_some_iff {case : Fin 8} : a.roll? = some case ↔ a = .roll case := by
  cases a <;> simp [roll?]

theorem field?_eq_some_iff {width : Nat} {value : BitVec width} :
    a.field? width = some value ↔ a = .field width value := by
  cases a with
  | field width' value' =>
    by_cases same : width' = width
    · subst same
      simp [field?]
    · simp [field?, same]
  | _ => simp [field?]

theorem pick?_eq_some_iff {n : Nat} {place : Fin n} : a.pick? n = some place ↔ a = .pick n place := by
  cases a with
  | pick n' place' =>
    by_cases same : n' = n
    · subst same
      simp [pick?]
    · simp [pick?, same]
  | _ => simp [pick?]

theorem flag?_eq_some_iff {set : Bool} : a.flag? = some set ↔ a = .flag set := by
  cases a <;> simp [flag?]

theorem number?_eq_some_iff {value : UInt32} : a.number? = some value ↔ a = .number value := by
  cases a <;> simp [number?]

end Answer

abbrev Script := StateT (List Answer) Option

namespace Script

def take {α : Type} (read : Answer → Option α) : Script α
  | [] => none
  | a :: rest => (read a).map (·, rest)

instance : Dice Script where
  roll := take Answer.roll?
  field width := take (Answer.field? width)
  pick {n} _ := take (Answer.pick? n)
  flag := take Answer.flag?
  number := take Answer.number?

variable {answers rest : List Answer}

theorem run_take {α : Type} {read : Answer → Option α} {write : α → Answer}
    (reads : ∀ {a x}, read a = some x ↔ a = write x) {x : α} :
    (take read).run answers = some (x, rest) ↔ answers = write x :: rest := by
  cases answers with
  | nil => exact iff_of_false nofun nofun
  | cons a as =>
    change (read a).map (·, as) = some (x, rest) ↔ _
    rw [Option.map_eq_some_iff, List.cons.injEq, ← reads]
    constructor
    · rintro ⟨_, found, ⟨⟩⟩
      exact ⟨found, rfl⟩
    · rintro ⟨found, rfl⟩
      exact ⟨x, found, rfl⟩

theorem run_roll {case : Fin 8} :
    (Dice.roll : Script _).run answers = some (case, rest) ↔ answers = .roll case :: rest :=
  run_take Answer.roll?_eq_some_iff

theorem run_field {width : Nat} {value : BitVec width} :
    (Dice.field width : Script _).run answers = some (value, rest) ↔
      answers = .field width value :: rest :=
  run_take Answer.field?_eq_some_iff

theorem run_pick {n : Nat} {positive : 0 < n} {place : Fin n} :
    (Dice.pick positive : Script _).run answers = some (place, rest) ↔ answers = .pick n place :: rest :=
  run_take Answer.pick?_eq_some_iff

theorem run_flag {set : Bool} :
    (Dice.flag : Script _).run answers = some (set, rest) ↔ answers = .flag set :: rest :=
  run_take Answer.flag?_eq_some_iff

theorem run_number {value : UInt32} :
    (Dice.number : Script _).run answers = some (value, rest) ↔ answers = .number value :: rest :=
  run_take Answer.number?_eq_some_iff

end Script

/-- A generator that is asked for these answers one after the other gives them, and comes to a new state. -/
inductive Yields {γ : Type} [Dice (StateM γ)] : γ → List Answer → γ → Prop
  | done (g : γ) : Yields g [] g
  | roll {g next last : γ} {rest : List Answer} {case : Fin 8}
      (given : (Dice.roll : StateM γ _).run g = (case, next)) (more : Yields next rest last) :
    Yields g (.roll case :: rest) last
  | field {g next last : γ} {rest : List Answer} {width : Nat} {value : BitVec width}
      (given : (Dice.field width : StateM γ _).run g = (value, next)) (more : Yields next rest last) :
    Yields g (.field width value :: rest) last
  | pick {g next last : γ} {rest : List Answer} {n : Nat} {positive : 0 < n} {place : Fin n}
      (given : (Dice.pick positive : StateM γ _).run g = (place, next)) (more : Yields next rest last) :
    Yields g (.pick n place :: rest) last
  | flag {g next last : γ} {rest : List Answer} {set : Bool}
      (given : (Dice.flag : StateM γ _).run g = (set, next)) (more : Yields next rest last) :
    Yields g (.flag set :: rest) last
  | number {g next last : γ} {rest : List Answer} {value : UInt32}
      (given : (Dice.number : StateM γ _).run g = (value, next)) (more : Yields next rest last) :
    Yields g (.number value :: rest) last

namespace Sample

/-- The answers that lead to a sample. A logical comes up in two cases. -/
def scripts : Sample → List (List Answer)
  | branch displacement absolute link =>
    [[.roll 0, .field 24 displacement, .flag absolute, .flag link]]
  | conditional displacement bo bi absolute link =>
    [[.roll 1, .field 14 displacement, .field 5 bo, .field 5 bi, .flag absolute, .flag link]]
  | toRegister register bo bi bh link =>
    [[.roll 2, .pick 3 register, .field 5 bo, .field 5 bi, .field 2 bh, .flag link]]
  | logical operation bt ba bb =>
    [[.roll 3, .pick 8 operation, .field 5 bt, .field 5 ba, .field 5 bb],
      [.roll 4, .pick 8 operation, .field 5 bt, .field 5 ba, .field 5 bb]]
  | move bf bfa => [[.roll 5, .field 3 bf, .field 3 bfa]]
  | opcode19 extended link => [[.roll 6, .field 10 extended, .field 1 link]]
  | stray word => [[.roll 7, .number (.ofBitVec word)]]

/-- Of the answers given, those of one script are taken, and each has become a part of the sample. -/
theorem draw_eq_some_iff {answers rest : List Answer} {s : Sample} :
    (draw : Script Sample).run answers = some (s, rest) ↔ ∃ script ∈ s.scripts, answers = script ++ rest := by
  constructor
  · intro drawn
    simp only [draw, StateT.run_bind, Option.bind_eq_bind, Option.bind_eq_some_iff, Prod.exists,
      Script.run_roll] at drawn
    obtain ⟨case, left, rfl, drawn⟩ := drawn
    split at drawn
    all_goals
      simp only [StateT.run_bind, StateT.run_pure, Option.bind_eq_bind, Option.bind_eq_some_iff,
        Option.pure_def, Option.some.injEq, Prod.exists, Prod.mk.injEq, Script.run_field,
        Script.run_pick, Script.run_flag, Script.run_number] at drawn
    case h_1 =>
      obtain ⟨displacement, _, rfl, absolute, _, rfl, link, _, rfl, rfl, rfl⟩ := drawn
      exact ⟨_, List.mem_singleton_self _, rfl⟩
    case h_2 =>
      obtain ⟨displacement, _, rfl, bo, _, rfl, bi, _, rfl, absolute, _, rfl, link, _, rfl, rfl, rfl⟩ :=
        drawn
      exact ⟨_, List.mem_singleton_self _, rfl⟩
    case h_3 =>
      obtain ⟨register, _, rfl, bo, _, rfl, bi, _, rfl, bh, _, rfl, link, _, rfl, rfl, rfl⟩ := drawn
      exact ⟨_, List.mem_singleton_self _, rfl⟩
    case h_4 =>
      obtain ⟨operation, _, rfl, bt, _, rfl, ba, _, rfl, bb, _, rfl, rfl, rfl⟩ := drawn
      exact ⟨_, List.mem_cons_self, rfl⟩
    case h_5 =>
      obtain ⟨operation, _, rfl, bt, _, rfl, ba, _, rfl, bb, _, rfl, rfl, rfl⟩ := drawn
      exact ⟨_, List.mem_cons_of_mem _ List.mem_cons_self, rfl⟩
    case h_6 =>
      obtain ⟨bf, _, rfl, bfa, _, rfl, rfl, rfl⟩ := drawn
      exact ⟨_, List.mem_singleton_self _, rfl⟩
    case h_7 =>
      obtain ⟨extended, _, rfl, link, _, rfl, rfl, rfl⟩ := drawn
      exact ⟨_, List.mem_singleton_self _, rfl⟩
    case h_8 =>
      obtain ⟨word, _, rfl, rfl, rfl⟩ := drawn
      exact ⟨_, List.mem_singleton_self _, rfl⟩
  · rintro ⟨script, listed, rfl⟩
    cases s with
    | logical operation bt ba bb =>
      simp only [scripts, List.mem_cons, List.not_mem_nil, or_false] at listed
      rcases listed with rfl | rfl <;> rfl
    | _ =>
      obtain rfl := List.mem_singleton.mp listed
      rfl

/-- Any generator draws the sample that the script of its answers leads to. -/
theorem exists_script {γ : Type} [Dice (StateM γ)] (g : γ) :
    ∃ answers, Yields g answers ((draw : StateM γ Sample).run g).2 ∧
      answers ∈ ((draw : StateM γ Sample).run g).1.scripts := by
  obtain ⟨⟨case, next⟩, rolled⟩ : ∃ x, (Dice.roll : StateM γ _).run g = x := ⟨_, rfl⟩
  rw [draw, StateT.run_bind, rolled]
  dsimp only [bind]
  split
  case h_1 =>
    exact ⟨_, .roll rolled (.field rfl (.flag rfl (.flag rfl (.done _)))), List.mem_singleton_self _⟩
  case h_2 =>
    exact ⟨_, .roll rolled (.field rfl (.field rfl (.field rfl (.flag rfl (.flag rfl (.done _)))))),
      List.mem_singleton_self _⟩
  case h_3 =>
    exact ⟨_, .roll rolled (.pick rfl (.field rfl (.field rfl (.field rfl (.flag rfl (.done _)))))),
      List.mem_singleton_self _⟩
  case h_4 =>
    exact ⟨_, .roll rolled (.pick rfl (.field rfl (.field rfl (.field rfl (.done _))))),
      List.mem_cons_self⟩
  case h_5 =>
    exact ⟨_, .roll rolled (.pick rfl (.field rfl (.field rfl (.field rfl (.done _))))),
      List.mem_cons_of_mem _ List.mem_cons_self⟩
  case h_6 =>
    exact ⟨_, .roll rolled (.field rfl (.field rfl (.done _))), List.mem_singleton_self _⟩
  case h_7 =>
    exact ⟨_, .roll rolled (.field rfl (.field rfl (.done _))), List.mem_singleton_self _⟩
  case h_8 => exact ⟨_, .roll rolled (.number rfl (.done _)), List.mem_singleton_self _⟩

def scripted (answers : List Answer) : Option Word :=
  match (draw : Script Sample).run answers with
  | some (s, []) => some s.word
  | _ => none

theorem scripted_eq_some_iff {answers : List Answer} {w : Word} :
    scripted answers = some w ↔ ∃ s : Sample, answers ∈ s.scripts ∧ s.word = w := by
  have whole (s : Sample) : (draw : Script Sample).run answers = some (s, []) ↔ answers ∈ s.scripts := by
    simp [draw_eq_some_iff]
  simp only [← whole, scripted]
  rcases (draw : Script Sample).run answers with _ | ⟨s, _ | ⟨a, rest⟩⟩ <;> simp

end Sample

end IdentifyBench

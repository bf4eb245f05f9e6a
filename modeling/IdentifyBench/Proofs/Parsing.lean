import IdentifyBench.Settings.Reader
import IdentifyBench.Proofs.Spelling

/-! The reader of settings along a document, part by part. A value is read as one step wherever it stands, a
row of items or members is read one after the other, and a value that nobody asks for leaves no trace,
whatever is in it. -/
namespace IdentifyBench

namespace Document

/-- Items with commas between them, and white space around each. -/
inductive Listed {α : Type} (Item : α → List Char → Prop) : List α → List Char → Prop
  | nil {space : List Char} (blank : Blank space) : Listed Item [] space
  | last {x : α} {before text after : List Char} (blank : Blank before) (item : Item x text)
      (trailing : Blank after) : Listed Item [x] (before ++ (text ++ after))
  | more {x : α} {xs : List α} {before text after others : List Char} (blank : Blank before)
      (item : Item x text) (trailing : Blank after) (more : xs ≠ [])
      (rest : Listed Item xs others) :
      Listed Item (x :: xs) (before ++ (text ++ (after ++ ',' :: others)))

inductive Member {ν : Type} (Name : ν → List Char → Prop) : ν × List Char → List Char → Prop
  | pair {name : ν} {spelled before after value : List Char} (named : Name name spelled)
      (blank : Blank before) (trailing : Blank after) :
      Member Name (name, value) ('"' :: (spelled ++ '"' :: (before ++ ':' :: (after ++ value))))

inductive WellFormed : List Char → Prop
  | null : WellFormed "null".toList
  | true : WellFormed "true".toList
  | false : WellFormed "false".toList
  | number {text : List Char} (numeric : Numeric text) : WellFormed text
  | text {text : List Char} (body : Body text) : WellFormed ('"' :: (text ++ ['"']))
  | list {items : List (List Char)} {text : List Char} (listed : Listed Eq items text)
      (each : ∀ v ∈ items, WellFormed v) : WellFormed ('[' :: (text ++ [']']))
  | object {members : List (List Char × List Char)} {text : List Char}
      (listed : Listed (Member fun name spelled => name = spelled ∧ Body spelled) members text)
      (each : ∀ m ∈ members, WellFormed m.2) : WellFormed ('{' :: (text ++ ['}']))

end Document

namespace Settings.Reader
open Document

def run (root : Layout) (r : Reader) (text : List Char) : Except Fault Reader :=
  (tokens text).foldlM (step root) r

variable {root : Layout} {r r' : Reader} {text rest : List Char} {token : Token}

theorem run_blank {space : List Char} (blank : Blank space) :
    run root r (space ++ rest) = run root r rest :=
  congrArg (List.foldlM (step root) r) (tokens_blank blank rest)

theorem run_token (lexed : tokens text = token :: tokens rest)
    (stepped : step root r token = .ok r') : run root r text = run root r' rest := by
  rw [run, lexed, List.foldlM_cons, stepped]
  rfl

def Awaits : List (Bracket × Document.Place) → Prop
  | [] => True
  | (.object, place) :: _ => place = .valued
  | (.list, place) :: _ => place = .opened ∨ place = .next

theorem step_of_awaits {stack : List (Bracket × Document.Place)} (awaits : Awaits stack)
    (value : token ≠ .closeList) : Grammar.step ⟨stack, false⟩ token = Grammar.startValue stack token := by
  match stack, awaits with
  | [], _ => rfl
  | (.object, _) :: _, rfl => rfl
  | (.list, _) :: _, .inl rfl => cases token <;> first | rfl | exact absurd rfl value
  | (.list, _) :: _, .inr rfl => cases token <;> rfl

/-- Where a value is due for the given purpose, with so many brackets open around it, its text is read
in one go. -/
def Reads (depth : Nat) (aim : Target) (value : List Char) (leave : List Frame → List Frame)
    (change : Settings → Settings) : Prop :=
  ∀ (root : Layout) (stack : List (Bracket × Document.Place)) (frames inner : List Frame) (s : Settings)
    (rest : List Char), Awaits stack → stack.length = depth → Apart rest →
    target root frames = (aim, inner) →
    run root ⟨⟨stack, false⟩, frames, s⟩ (value ++ rest) =
      run root ⟨Grammar.fill stack, leave inner, change s⟩ rest

/-! ### Scalars -/

inductive Scalar : Token → Prop
  | literal (reading : Reading Literal) : Scalar (.literal reading)
  | number (reading : Reading (Option UInt64)) : Scalar (.number reading)
  | text (reading : Reading String) : Scalar (.text reading)

theorem step_scalar {stack : List (Bracket × Document.Place)} {frames : List Frame} {s : Settings}
    (awaits : Awaits stack) (isScalar : Scalar token) :
    step root ⟨⟨stack, false⟩, frames, s⟩ token =
      scalar ⟨Grammar.fill stack, frames, s⟩ root token := by
  have role : Grammar.step ⟨stack, false⟩ token = .ok (Grammar.fill stack, .scalar) := by
    cases isScalar <;> exact step_of_awaits awaits nofun
  rw [step, role]
  rfl

variable {depth : Nat} {aim : Target} {value : List Char} {leave : List Frame → List Frame}
  {change : Settings → Settings}

inductive Handles : Target → Token → (List Frame → List Frame) → (Settings → Settings) → Prop
  | stored {l : Layout} {token : Token} {change : Settings → Settings}
      (read : store l token = .ok change) : Handles (.layout l) token id change
  | passed {token : Token} (read : pass token = .ok ()) : Handles .passed token id id
  | kind {token : Token} {k : SourceKind} (read : kind token = .ok k) :
      Handles .kind token (setKind k) id
  | gathered {token : Token} {x : Gathered} (read : gather token = .ok x) :
      Handles .gathered token (deliver x) id

theorem Handles.scalar (handles : Handles aim token leave change) {inner : List Frame}
    (aimed : target root r.frames = (aim, inner)) :
    r.scalar root token = .ok ⟨r.grammar, leave inner, change r.settings⟩ := by
  rw [Reader.scalar, aimed]
  cases handles with
  | stored read | passed read | kind read | gathered read =>
    dsimp only
    rw [read]
    rfl

/-- A scalar is one token, and what is done with it depends on the purpose only. -/
theorem reads_scalar
    (lexed : ∀ rest, Apart rest → ∃ token, tokens (value ++ rest) = token :: tokens rest ∧
      Scalar token ∧ Handles aim token leave change) : Reads depth aim value leave change := by
  intro root stack frames inner s rest awaits _ apart aimed
  obtain ⟨token, lexed, isScalar, handles⟩ := lexed rest apart
  exact run_token lexed ((step_scalar awaits isScalar).trans (handles.scalar aimed))

/-! ### Brackets -/

def opening : Bracket → Char
  | .object => '{'
  | .list => '['

def closing : Bracket → Char
  | .object => '}'
  | .list => ']'

theorem run_opening {stack : List (Bracket × Document.Place)} {frames frames' : List Frame}
    {s : Settings} {bracket : Bracket} (awaits : Awaits stack)
    (started : start ⟨⟨(bracket, .opened) :: stack, false⟩, frames, s⟩ root bracket =
      .ok ⟨⟨(bracket, .opened) :: stack, false⟩, frames', s⟩) :
    run root ⟨⟨stack, false⟩, frames, s⟩ (opening bracket :: rest) =
      run root ⟨⟨(bracket, .opened) :: stack, false⟩, frames', s⟩ rest := by
  cases bracket with
  | object =>
    have lexed : tokens ('{' :: rest) = .openObject :: tokens rest := tokens_cons rfl rfl rfl
    have role : Grammar.step ⟨stack, false⟩ .openObject =
        .ok (⟨(.object, .opened) :: stack, false⟩, .start .object) := step_of_awaits awaits nofun
    apply run_token lexed
    rw [step, role]
    exact started
  | list =>
    have lexed : tokens ('[' :: rest) = .openList :: tokens rest := tokens_cons rfl rfl rfl
    have role : Grammar.step ⟨stack, false⟩ .openList =
        .ok (⟨(.list, .opened) :: stack, false⟩, .start .list) := step_of_awaits awaits nofun
    apply run_token lexed
    rw [step, role]
    exact started

theorem run_closing {stack : List (Bracket × Document.Place)} {place : Document.Place}
    {frames frames' : List Frame} {s s' : Settings} {bracket : Bracket}
    (closes : place = .opened ∨ place = .filled)
    (finished : finish ⟨Grammar.fill stack, frames, s⟩ = .ok ⟨Grammar.fill stack, frames', s'⟩) :
    run root ⟨⟨(bracket, place) :: stack, false⟩, frames, s⟩ (closing bracket :: rest) =
      run root ⟨Grammar.fill stack, frames', s'⟩ rest := by
  cases bracket with
  | object =>
    have lexed : tokens ('}' :: rest) = .closeObject :: tokens rest := tokens_cons rfl rfl rfl
    rcases closes with rfl | rfl <;> exact run_token lexed finished
  | list =>
    have lexed : tokens (']' :: rest) = .closeList :: tokens rest := tokens_cons rfl rfl rfl
    rcases closes with rfl | rfl <;> exact run_token lexed finished

theorem run_comma {stack : List (Bracket × Document.Place)} {frame : Frame} {outer : List Frame}
    {s : Settings} {bracket : Bracket} (goesOn : frame ≠ .row []) :
    run root ⟨⟨(bracket, .filled) :: stack, false⟩, frame :: outer, s⟩ (',' :: rest) =
      run root ⟨⟨(bracket, .next) :: stack, false⟩, frame :: outer, s⟩ rest := by
  have lexed : tokens (',' :: rest) = .comma :: tokens rest := tokens_cons rfl rfl rfl
  apply run_token lexed
  have more : comma ⟨⟨(bracket, .next) :: stack, false⟩, frame :: outer, s⟩ =
      .ok ⟨⟨(bracket, .next) :: stack, false⟩, frame :: outer, s⟩ := by
    unfold comma
    split
    · rename_i same
      exact absurd (List.cons.inj same).1 goesOn
    · rfl
  cases bracket <;> exact more

section

variable {α : Type} {bracket : Bracket} {Item : α → List Char → Prop} {xs : List α}

/-- What is known of the innermost bracket and of the settings, with items still to come, is kept up by
each item. -/
def Advances (bracket : Bracket) (depth : Nat) (Item : α → List Char → Prop)
    (P : List α → Frame → Settings → Prop) : Prop :=
  ∀ (x : α) (xs : List α) (frame : Frame) (s : Settings), P (x :: xs) frame s →
    ∃ frame' s', P xs frame' s' ∧ frame' ≠ .row [] ∧
      ∀ (root : Layout) (stack : List (Bracket × Document.Place)) (outer : List Frame)
        (place : Document.Place) (text rest : List Char), stack.length = depth →
        place = .opened ∨ place = .next →
        Item x text → Apart rest →
        run root ⟨⟨(bracket, place) :: stack, false⟩, frame :: outer, s⟩ (text ++ rest) =
          run root ⟨⟨(bracket, .filled) :: stack, false⟩, frame' :: outer, s'⟩ rest

theorem apart_closing (bracket : Bracket) (rest : List Char) : Apart (closing bracket :: rest) := by
  apply apart_cons
  cases bracket <;> decide

theorem run_listed {P : List α → Frame → Settings → Prop} (advances : Advances bracket depth Item P)
    (listed : Listed Item xs text) {frame : Frame} {s : Settings} (holds : P xs frame s) :
    ∃ frame' s', P [] frame' s' ∧
      ∀ (root : Layout) (stack : List (Bracket × Document.Place)) (outer : List Frame)
        (place : Document.Place) (rest : List Char), stack.length = depth →
        place = .opened ∨ place = .next ∧ xs ≠ [] →
        ∃ place', (place' = .opened ∨ place' = .filled) ∧
          run root ⟨⟨(bracket, place) :: stack, false⟩, frame :: outer, s⟩
              (text ++ closing bracket :: rest) =
            run root ⟨⟨(bracket, place') :: stack, false⟩, frame' :: outer, s'⟩
              (closing bracket :: rest) := by
  induction listed generalizing frame s with
  | nil blank =>
    refine ⟨frame, s, holds, ?_⟩
    intro root stack outer place rest _ starts
    exact ⟨place, .inl (starts.resolve_right fun next => next.2 rfl), run_blank blank⟩
  | last blank item trailing =>
    obtain ⟨frame', s', holds', _, reads⟩ := advances _ _ _ _ holds
    refine ⟨frame', s', holds', ?_⟩
    intro root stack outer place rest size starts
    refine ⟨.filled, .inr rfl, ?_⟩
    have apart := Apart.of_blank trailing (apart_closing bracket rest)
    rw [List.append_assoc, List.append_assoc, run_blank blank,
      reads root stack outer place _ _ size (starts.imp_right And.left) item apart,
      run_blank trailing]
  | more blank item trailing more rest ih =>
    obtain ⟨frame₁, s₁, holds₁, goesOn, reads⟩ := advances _ _ _ _ holds
    obtain ⟨frame', s', holds', others⟩ := ih holds₁
    refine ⟨frame', s', holds', ?_⟩
    intro root stack outer place rest size starts
    obtain ⟨place', ends, others⟩ := others root stack outer .next rest size (.inr ⟨rfl, more⟩)
    refine ⟨place', ends, ?_⟩
    have comma (more : List Char) : Apart (',' :: more) := apart_cons more (by decide)
    rw [List.append_assoc, List.append_assoc, List.append_assoc, List.cons_append, run_blank blank,
      reads root stack outer place _ _ size (starts.imp_right And.left) item
        (Apart.of_blank trailing (comma _)),
      run_blank trailing, run_comma goesOn, others]

/-- A bracketed value is read by keeping an invariant from its opening to its closing bracket. The
settings it will end with are the first argument of the invariant. -/
theorem reads_bracket (bracket : Bracket) (P : Settings → List α → Frame → Settings → Prop)
    (frame : Frame) (listed : Listed Item xs text)
    (started : ∀ (root : Layout) (r : Reader) (inner : List Frame),
      target root r.frames = (aim, inner) → r.grammar.depth = depth + 1 →
      r.start root bracket = .ok { r with frames := frame :: inner })
    (entered : ∀ s, P (change s) xs frame s)
    (advances : ∀ result, Advances bracket depth Item (P result))
    (finished : ∀ result frame s g outer, P result [] frame s →
      finish ⟨g, frame :: outer, s⟩ = .ok ⟨g, leave outer, result⟩) :
    Reads depth aim (opening bracket :: (text ++ [closing bracket])) leave change := by
  intro root stack frames inner s rest awaits size apart aimed
  obtain ⟨last, s', holds, reads⟩ := run_listed (advances (change s)) listed (entered s)
  obtain ⟨place, ends, reads⟩ := reads root stack inner .opened rest size (.inl rfl)
  have start := started root ⟨⟨(bracket, .opened) :: stack, false⟩, frames, s⟩ inner aimed
    (congrArg (· + 1) size)
  rw [List.cons_append, List.append_assoc, List.singleton_append, run_opening awaits start, reads]
  exact run_closing ends (finished _ _ _ _ _ holds)

end

theorem advances_item {α : Type} (value : α → List Char) {P : List α → Frame → Settings → Prop}
    (each : ∀ x xs frame s, P (x :: xs) frame s → ∃ aim leave change frame',
      Reads (depth + 1) aim (value x) leave change ∧ P xs frame' (change s) ∧ frame' ≠ .row [] ∧
      ∀ root outer, target root (frame :: outer) = (aim, frame :: outer) ∧
        leave (frame :: outer) = frame' :: outer) :
    Advances .list depth (fun x text => value x = text) P := by
  intro x xs frame s holds
  obtain ⟨aim, leave, change, frame', reads, holds', goesOn, aimed⟩ := each x xs frame s holds
  refine ⟨frame', change s, holds', goesOn, ?_⟩
  rintro root stack outer place _ rest size starts rfl apart
  rw [reads root ((.list, place) :: stack) _ _ s rest starts (congrArg (· + 1) size) apart
    (aimed root outer).1, (aimed root outer).2]
  rfl

theorem run_member {ν : Type} {Name : ν → List Char → Prop} {m : ν × List Char}
    (member : Member Name m text) {frame frame₁ : Frame} {outer : List Frame}
    (named : ∀ spelled rest, Name m.1 spelled → ∃ reading,
      tokens ('"' :: (spelled ++ '"' :: rest)) = .text reading :: tokens rest ∧
      ∀ g s, name ⟨g, frame :: outer, s⟩ (.text reading) = .ok ⟨g, frame₁ :: outer, s⟩)
    (reads : Reads (depth + 1) aim m.2 leave change)
    (aimed : target root (frame₁ :: outer) = (aim, frame₁ :: outer))
    {stack : List (Bracket × Document.Place)} (size : stack.length = depth) {place : Document.Place}
    (starts : place = .opened ∨ place = .next) (s : Settings) (apart : Apart rest) :
    run root ⟨⟨(.object, place) :: stack, false⟩, frame :: outer, s⟩ (text ++ rest) =
      run root ⟨⟨(.object, .filled) :: stack, false⟩, leave (frame₁ :: outer), change s⟩ rest := by
  cases member with
  | @pair label spelled before after value spells blank trailing =>
    obtain ⟨reading, lexed, taken⟩ := named spelled (before ++ ':' :: (after ++ (value ++ rest))) spells
    have first : step root ⟨⟨(.object, place) :: stack, false⟩, frame :: outer, s⟩ (.text reading) =
        .ok ⟨⟨(.object, .named) :: stack, false⟩, frame₁ :: outer, s⟩ := by
      rcases starts with rfl | rfl <;> exact taken _ s
    have colon : tokens (':' :: (after ++ (value ++ rest))) = .colon :: tokens (after ++ (value ++ rest)) :=
      tokens_cons rfl rfl rfl
    have second : step root ⟨⟨(.object, .named) :: stack, false⟩, frame₁ :: outer, s⟩ .colon =
        .ok ⟨⟨(.object, .valued) :: stack, false⟩, frame₁ :: outer, s⟩ := rfl
    simp only [List.cons_append, List.append_assoc]
    rw [run_token lexed first, run_blank blank, run_token colon second, run_blank trailing]
    exact reads root _ _ _ s rest rfl (congrArg (· + 1) size) apart aimed

theorem advances_member {ν : Type} {Name : ν → List Char → Prop}
    {P : List (ν × List Char) → Frame → Settings → Prop}
    (each : ∀ m ms frame s, P (m :: ms) frame s → ∃ aim leave change frame₁ frame',
      Reads (depth + 1) aim m.2 leave change ∧ P ms frame' (change s) ∧ frame' ≠ .row [] ∧
      (∀ spelled rest, Name m.1 spelled → ∃ reading,
        tokens ('"' :: (spelled ++ '"' :: rest)) = .text reading :: tokens rest ∧
        ∀ g s outer, name ⟨g, frame :: outer, s⟩ (.text reading) = .ok ⟨g, frame₁ :: outer, s⟩) ∧
      ∀ root outer, target root (frame₁ :: outer) = (aim, frame₁ :: outer) ∧
        leave (frame₁ :: outer) = frame' :: outer) :
    Advances .object depth (Member Name) P := by
  intro m ms frame s holds
  obtain ⟨aim, leave, change, frame₁, frame', reads, holds', goesOn, named, aimed⟩ :=
    each m ms frame s holds
  refine ⟨frame', change s, holds', goesOn, ?_⟩
  intro root stack outer place text rest size starts member apart
  have named (spelled rest : List Char) (spells : Name m.1 spelled) : ∃ reading,
      tokens ('"' :: (spelled ++ '"' :: rest)) = .text reading :: tokens rest ∧
      ∀ g s, name ⟨g, frame :: outer, s⟩ (.text reading) = .ok ⟨g, frame₁ :: outer, s⟩ := by
    obtain ⟨reading, lexed, taken⟩ := named spelled rest spells
    exact ⟨reading, lexed, fun g s => taken g s outer⟩
  rw [run_member member named reads (aimed root outer).1 size starts s apart, (aimed root outer).2]

/-! ### Values passed over -/

/-- The items still to come are passed over wherever they stand. -/
def Passing {α : Type} (value : α → List Char) (result : Settings) (xs : List α) (frame : Frame)
    (s : Settings) : Prop :=
  result = s ∧ frame = .passed ∧ ∀ x ∈ xs, ∀ depth, Reads depth .passed (value x) id id

/-- A value that is passed over leaves nothing behind, however deep it is. -/
theorem reads_of_wellFormed {value : List Char} (wellFormed : WellFormed value) (depth : Nat) :
    Reads depth .passed value id id := by
  induction wellFormed generalizing depth with
  | null => exact reads_scalar fun rest _ => ⟨_, tokens_null rest, .literal _, .passed rfl⟩
  | true => exact reads_scalar fun rest _ => ⟨_, tokens_true rest, .literal _, .passed rfl⟩
  | false => exact reads_scalar fun rest _ => ⟨_, tokens_false rest, .literal _, .passed rfl⟩
  | number numeric =>
    apply reads_scalar
    intro rest apart
    obtain ⟨strict, lexed⟩ := tokens_numeric numeric apart
    exact ⟨_, lexed, .number _, .passed rfl⟩
  | text body =>
    apply reads_scalar
    intro rest apart
    obtain ⟨strict, lexed⟩ := tokens_body body rest
    refine ⟨.text ⟨strict, .ok ()⟩, ?_, .text _, .passed rfl⟩
    simpa using lexed
  | @list items text listed each ih =>
    refine reads_bracket .list (Passing id) .passed listed ?_ ?_ ?_ ?_
    · intro root r inner aimed _
      rw [start, aimed]
    · intro s
      exact ⟨rfl, rfl, ih⟩
    · intro result
      apply advances_item id
      rintro v xs frame s ⟨rfl, rfl, reads⟩
      exact ⟨.passed, id, id, .passed, reads v List.mem_cons_self _,
        ⟨rfl, rfl, fun w inside => reads w (List.mem_cons_of_mem v inside)⟩, nofun,
        fun root outer => ⟨rfl, rfl⟩⟩
    · rintro result frame s g outer ⟨rfl, rfl, _⟩
      rfl
  | @object members text listed each ih =>
    refine reads_bracket .object (Passing (·.2)) .passed listed ?_ ?_ ?_ ?_
    · intro root r inner aimed _
      rw [start, aimed]
    · intro s
      exact ⟨rfl, rfl, ih⟩
    · intro result
      apply advances_member
      rintro m ms frame s ⟨rfl, rfl, reads⟩
      refine ⟨.passed, id, id, .passed, .passed, reads m List.mem_cons_self _,
        ⟨rfl, rfl, fun w inside => reads w (List.mem_cons_of_mem m inside)⟩, nofun, ?_,
        fun root outer => ⟨rfl, rfl⟩⟩
      rintro spelled rest ⟨rfl, body⟩
      obtain ⟨strict, lexed⟩ := tokens_body body rest
      exact ⟨_, lexed, fun g s outer => rfl⟩
    · rintro result frame s g outer ⟨rfl, rfl, _⟩
      rfl

end Settings.Reader

end IdentifyBench

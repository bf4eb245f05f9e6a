import IdentifyBench.Document.Grammar
import IdentifyBench.Settings.Layout

/-! Reading settings from a document, token by token: the first fault met in the order of the text
is the answer. Members that are not given keep their standard values. Unknown members are passed
over, and only have to be well formed. The description of a word source is gathered first and
judged when it ends. -/
namespace IdentifyBench.Settings
open Document

inductive SourceKind
  | random
  | fixed
  deriving DecidableEq, Repr

/-- What is kept of a value inside the description of a word source. -/
inductive Gathered
  | number (n : UInt64)
  /-- A list of numbers, the latest first. -/
  | numbers (reversed : List UInt64)
  | other
  deriving DecidableEq

/-- The description of a word source as far as it is read: its kind, and the other members or
items, the latest first. -/
structure Draft where
  kind : Option SourceKind
  parts : List (String × Gathered)
  deriving DecidableEq

namespace Draft

def new : Draft := ⟨none, []⟩

def source? (kind : SourceKind) (values : List Gathered) : Option SourceSettings :=
  match kind, values with
  | .random, [] => some (.random SourceSettings.standardSeed)
  | .random, [.number seed] => some (.random seed)
  | .fixed, [.numbers reversed] =>
    if reversed.all (· < 0x100000000) then
      some (.fixed (reversed.reverse.map fun n => .ofNat 32 n.toNat))
    else none
  | _, _ => none

def member : SourceKind → String
  | .random => "seed"
  | .fixed => "words"

/-- Written as an object: members that do not belong to the kind are ignored. -/
def ofObject? (d : Draft) : Option SourceSettings := do
  let kind ← d.kind
  source? kind ((d.parts.filter (·.1 == member kind)).map (·.2))

def ofList? (d : Draft) : Option SourceSettings := do
  let kind ← d.kind
  source? kind (d.parts.map (·.2))

end Draft

/-- An open bracket and what is known about the values in it. -/
inductive Frame
  /-- A record written as an object. The layout is that of the member under way. -/
  | record (members : List (String × Layout)) (seen : List String) (current : Option Layout)
  /-- A record written as a list, with the layouts of the values to come. -/
  | row (rest : List Layout)
  /-- Part of a value that is passed over. -/
  | passed
  /-- A word source written as an object. The name is that of the member under way. -/
  | tagged (store : SourceSettings → Settings → Settings) (draft : Draft) (name : String)
  /-- A word source written as a list. -/
  | listed (store : SourceSettings → Settings → Settings) (draft : Draft)
  | gathered (value : Gathered)

inductive Target
  | layout (l : Layout)
  | passed
  | kind
  | gathered

structure Reader where
  grammar : Grammar
  frames : List Frame
  settings : Settings

namespace Reader

/-- The brackets that may be open at once where values are gathered. -/
def maxDepth : Nat := 127

/-- What the next value is for. A record written as a list moves on to its next member. -/
def target (root : Layout) : List Frame → Target × List Frame
  | [] => (.layout root, [])
  | .record members seen (some l) :: outer => (.layout l, .record members seen (some l) :: outer)
  | .record members seen none :: outer => (.passed, .record members seen none :: outer)
  | .row (l :: rest) :: outer => (.layout l, .row rest :: outer)
  | .row [] :: outer => (.passed, .row [] :: outer)
  | .passed :: outer => (.passed, .passed :: outer)
  | .tagged store draft name :: outer =>
    (if name = "kind" then .kind else .gathered, .tagged store draft name :: outer)
  | .listed store draft :: outer =>
    (if draft.kind.isNone then .kind else .gathered, .listed store draft :: outer)
  | .gathered value :: outer => (.gathered, .gathered value :: outer)

def deliver (value : Gathered) : List Frame → List Frame
  | .tagged store draft name :: outer =>
    .tagged store { draft with parts := (name, value) :: draft.parts } name :: outer
  | .listed store draft :: outer =>
    .listed store { draft with parts := ("", value) :: draft.parts } :: outer
  | .gathered around :: outer =>
    let around := match around, value with
      | .numbers ns, .number n => .numbers (n :: ns)
      | _, _ => .other
    .gathered around :: outer
  | frames => frames

def setKind (kind : SourceKind) : List Frame → List Frame
  | .tagged store draft name :: outer => .tagged store { draft with kind := some kind } name :: outer
  | .listed store draft :: outer => .listed store { draft with kind := some kind } :: outer
  | frames => frames

/-- The scalar is well formed for a strict reader, but is not what is asked for. -/
def refuse {α : Type} (token : Token) : Except Fault α :=
  match token with
  | .literal r => r.strict >>= fun _ => .error .mismatch
  | .number r => r.strict >>= fun _ => .error .mismatch
  | .text r => r.strict >>= fun _ => .error .mismatch
  | _ => .error .mismatch

def pass : Token → Except Fault Unit
  | .literal r => r.skipped
  | .number r => r.skipped
  | .text r => r.skipped
  | _ => .ok ()

/-- The value of a scalar of the given layout, as the change it makes to the settings. -/
def store (l : Layout) (token : Token) : Except Fault (Settings → Settings) :=
  match l, token with
  | .number put, .number r => do
    match ← r.strict with
    | some n => return put n
    | none => throw .mismatch
  | .limit put, .number r => do
    match ← r.strict with
    | some n => return put (some n)
    | none => throw .mismatch
  | .limit put, .literal r => do
    match ← r.strict with
    | .null => return put none
    | .bool _ => throw .mismatch
  | .flag put, .literal r => do
    match ← r.strict with
    | .bool value => return put value
    | .null => throw .mismatch
  | .text put, .text r => return put (← r.strict)
  | _, token => refuse token

def kind (token : Token) : Except Fault SourceKind :=
  match token with
  | .text r => do
    match ← r.strict with
    | "Random" => return .random
    | "Fixed" => return .fixed
    | _ => throw .mismatch
  | token => refuse token

def gather (token : Token) : Except Fault Gathered :=
  match token with
  | .literal r => return (fun _ => .other) (← r.strict)
  | .number r => return (← r.strict).elim .other .number
  | .text r => return (fun _ => .other) (← r.strict)
  | _ => .ok .other

def scalar (r : Reader) (root : Layout) (token : Token) : Except Fault Reader :=
  match target root r.frames with
  | (.layout l, frames) => do
    let change ← store l token
    return { r with frames, settings := change r.settings }
  | (.passed, frames) => do
    pass token
    return { r with frames }
  | (.kind, frames) => return { r with frames := setKind (← kind token) frames }
  | (.gathered, frames) => return { r with frames := deliver (← gather token) frames }

/-- A bracket opens. The grammar has counted it already. -/
def start (r : Reader) (root : Layout) (bracket : Bracket) : Except Fault Reader :=
  let deep := maxDepth < r.grammar.depth
  match target root r.frames with
  | (.layout (.record members), frames) =>
    let frame := match bracket with
      | .object => Frame.record members [] none
      | .list => .row (members.map (·.2))
    .ok { r with frames := frame :: frames }
  | (.layout (.source put), frames) =>
    let frame := match bracket with
      | .object => Frame.tagged put .new ""
      | .list => .listed put .new
    .ok { r with frames := frame :: frames }
  | (.layout _, _) => .error .mismatch
  | (.kind, _) => .error .mismatch
  | (.passed, frames) => .ok { r with frames := .passed :: frames }
  | (.gathered, frames) =>
    let value := match bracket with
      | .object => Gathered.other
      | .list => .numbers []
    if deep then .error .malformed else .ok { r with frames := .gathered value :: frames }

def name (r : Reader) (token : Token) : Except Fault Reader :=
  match token, r.frames with
  | .text reading, .passed :: _ => do
    reading.skipped
    return r
  | .text reading, .record members seen _ :: outer => do
    let name ← reading.strict
    match members.find? (·.1 == name) with
    | none => return { r with frames := .record members seen none :: outer }
    | some (_, l) =>
      if seen.contains name then throw .mismatch
      return { r with frames := .record members (name :: seen) (some l) :: outer }
  | .text reading, .tagged put draft _ :: outer => do
    let name ← reading.strict
    if name = "kind" ∧ draft.kind.isSome then throw .mismatch
    return { r with frames := .tagged put draft name :: outer }
  | .text reading, _ => do
    let _ ← reading.strict
    return r
  | _, _ => .ok r

/-- A record written as a list ends with its last member. -/
def comma (r : Reader) : Except Fault Reader :=
  match r.frames with
  | .row [] :: _ => .error .malformed
  | _ => .ok r

def finish (r : Reader) : Except Fault Reader :=
  let conclude (put : SourceSettings → Settings → Settings) (source : Option SourceSettings)
      (frames : List Frame) : Except Fault Reader :=
    match source with
    | none => .error .mismatch
    | some source => .ok { r with frames, settings := put source r.settings }
  match r.frames with
  | [] => .ok r
  | .tagged put draft _ :: outer => conclude put draft.ofObject? outer
  | .listed put draft :: outer => conclude put draft.ofList? outer
  | .gathered value :: outer => .ok { r with frames := deliver value outer }
  | _ :: outer => .ok { r with frames := outer }

def step (root : Layout) (r : Reader) (token : Token) : Except Fault Reader := do
  let (grammar, role) ← r.grammar.step token
  let r := { r with grammar }
  match role with
  | .scalar => r.scalar root token
  | .start bracket => r.start root bracket
  | .name => r.name token
  | .comma => r.comma
  | .colon => return r
  | .finish => r.finish

end Reader

def readAs (layout : Layout) (text : String) : Except Fault Settings := do
  let last ← (tokens text.toList).foldlM (Reader.step layout) ⟨.new, [], .standard⟩
  if last.grammar.complete then return last.settings else throw .truncated

def read (text : String) : Except Fault Settings := readAs .document text

def readStimulus (text : String) : Except Fault StimulusSettings :=
  return (← readAs .stimulus text).stimulus

end IdentifyBench.Settings

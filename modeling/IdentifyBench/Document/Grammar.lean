import IdentifyBench.Document.Token

/-! The grammar of a JSON document as a machine that takes one token at a time. Each token it
accepts plays a role; a token that fits nowhere makes the document malformed. -/
namespace IdentifyBench.Document

inductive Place
  /-- Just after the opening bracket. -/
  | opened
  /-- After a comma. -/
  | next
  /-- After the name of a member. -/
  | named
  /-- After the colon of a member. -/
  | valued
  /-- After a value. -/
  | filled
  deriving DecidableEq, Repr

inductive Bracket
  | object
  | list
  deriving DecidableEq, Repr

inductive Role
  | start (bracket : Bracket)
  | finish
  | name
  | scalar
  | comma
  | colon
  deriving DecidableEq, Repr

/-- The open brackets, innermost first, and whether the document's value is complete. -/
structure Grammar where
  stack : List (Bracket × Place)
  complete : Bool
  deriving DecidableEq, Repr

namespace Grammar

def new : Grammar := ⟨[], false⟩

def fill : List (Bracket × Place) → Grammar
  | [] => ⟨[], true⟩
  | (bracket, _) :: outer => ⟨(bracket, .filled) :: outer, false⟩

def startValue (stack : List (Bracket × Place)) : Token → Except Fault (Grammar × Role)
  | .openObject => .ok (⟨(.object, .opened) :: stack, false⟩, .start .object)
  | .openList => .ok (⟨(.list, .opened) :: stack, false⟩, .start .list)
  | .literal _ => .ok (fill stack, .scalar)
  | .number _ => .ok (fill stack, .scalar)
  | .text _ => .ok (fill stack, .scalar)
  | _ => .error .malformed

def step (g : Grammar) (token : Token) : Except Fault (Grammar × Role) :=
  match g.stack with
  | [] => if g.complete then .error .malformed else startValue [] token
  | (.object, place) :: outer =>
    let move (place : Place) (role : Role) : Except Fault (Grammar × Role) :=
      .ok (⟨(.object, place) :: outer, false⟩, role)
    match place, token with
    | .opened, .closeObject => .ok (fill outer, .finish)
    | .opened, .text _ => move .named .name
    | .next, .text _ => move .named .name
    | .named, .colon => move .valued .colon
    | .valued, token => startValue g.stack token
    | .filled, .comma => move .next .comma
    | .filled, .closeObject => .ok (fill outer, .finish)
    | _, _ => .error .malformed
  | (.list, place) :: outer =>
    match place, token with
    | .opened, .closeList => .ok (fill outer, .finish)
    | .filled, .closeList => .ok (fill outer, .finish)
    | .filled, .comma => .ok (⟨(.list, .next) :: outer, false⟩, .comma)
    | .filled, _ => .error .malformed
    | _, token => startValue g.stack token

def depth (g : Grammar) : Nat := g.stack.length

end Grammar

end IdentifyBench.Document

import IdentifyBench.Failure

/-! Paths: as they are written, and the places in the tree of directories that they lead to. -/
namespace IdentifyBench

/-- A place in the tree, by the names that lead to it from the root or else from the working
directory. Steps above the working directory come first, as double dots. -/
structure Place where
  absolute : Bool
  names : List String
  deriving DecidableEq, Repr

namespace Place

/-- The root of the tree is its own parent. -/
def parent (p : Place) : Place :=
  if !p.absolute && p.names.all (· == "..") then { p with names := p.names ++ [".."] }
  else { p with names := p.names.dropLast }

def step (p : Place) (name : String) : Place :=
  if name = "." then p
  else if name = ".." then p.parent
  else { p with names := p.names ++ [name] }

def text (p : Place) : String :=
  let names := "/".intercalate p.names
  if p.absolute then "/" ++ names
  else if p.names.isEmpty then "."
  else names

end Place

structure Path where
  absolute : Bool
  /-- What stands between the slashes, dots included. -/
  names : List String
  /-- The path ends with a slash. -/
  slash : Bool
  deriving DecidableEq, Repr

namespace Path

def maxBytes : Nat := 4096

def maxNameBytes : Nat := 255

def ofText (text : String) : Except StorageFault Path :=
  if text.toList.contains '\x00' then .error .nulInName
  else if text = "" then .error .noEntry
  else if maxBytes ≤ text.utf8ByteSize then .error .nameTooLong
  else .ok ⟨text.startsWith "/", (text.splitOn "/").filter (· != ""), text.endsWith "/"⟩

def start (p : Path) : Place := ⟨p.absolute, []⟩

def way (p : Path) : List String := p.names.dropLast

/-- The name at the end. Of the root, it is the root itself. -/
def last (p : Path) : String := p.names.getLast?.getD "."

/-- The places that names lead to one after the other. -/
def placesFrom : Place → List String → List Place
  | _, [] => []
  | p, name :: rest => p.step name :: placesFrom (p.step name) rest

def directories (p : Path) : List Place := placesFrom p.start p.way

def place (p : Path) : Place := p.names.foldl Place.step p.start

end Path

end IdentifyBench

import IdentifyBench.Files
import IdentifyBench.Storage.Path

/-! Files, and a stream that fills one of them. A path is followed name by name, and each name but
the last has to lead to a directory. A stream holds text back until a buffer is full, and it writes
at a place of its own: where a file is created anew under it, it goes on at that place. The device
`/dev/full` can be opened but never takes anything. -/
namespace IdentifyBench

inductive Node
  | directory
  | file
  /-- The device that is always full. -/
  | full
  deriving DecidableEq, Repr

inductive Destination
  | file (place : Place)
  | full
  deriving DecidableEq, Repr

structure Stream where
  target : Destination
  /-- Number of bytes written so far. -/
  offset : Nat
  pending : String
  deriving DecidableEq, Repr

structure Storage where
  files : List (Place × ByteArray)
  /-- The directories that exist besides those that always do. -/
  directories : List Place
  stream : Option Stream

namespace Storage

def empty : Storage := ⟨[], [], none⟩

/-- Text held back by a stream at most. -/
def capacity : Nat := 8192

def contents? (s : Storage) (place : Place) : Option ByteArray := s.files.lookup place

def store (s : Storage) (place : Place) (bytes : ByteArray) : Storage :=
  { s with files := (place, bytes) :: s.files.filter (·.1 != place) }

def fullDevice : Place := ⟨true, ["dev", "full"]⟩

/-- The working directory and those above it, the root, and the directory of the device. -/
def alwaysDirectory (place : Place) : Bool :=
  if place.absolute then place.names == [] || place.names == ["dev"]
  else place.names.all (· == "..")

def node? (s : Storage) (place : Place) : Option Node :=
  if alwaysDirectory place || s.directories.contains place then some .directory
  else if place = fullDevice then some .full
  else if (s.contents? place).isSome then some .file
  else none

def install (s : Storage) (path : Path) (bytes : ByteArray) : Storage :=
  { s with directories := path.directories ++ s.directories }.store path.place bytes

def seek (s : Storage) (directory : Place) (name : String) :
    Except StorageFault (Place × Option Node) :=
  if Path.maxNameBytes < name.utf8ByteSize then .error .nameTooLong
  else .ok (directory.step name, s.node? (directory.step name))

def walk (s : Storage) : Place → List String → Except StorageFault Place
  | place, [] => .ok place
  | place, name :: rest => do
    match ← s.seek place name with
    | (next, some .directory) => walk s next rest
    | (_, some _) => throw .notDirectory
    | (_, none) => throw .noEntry

/-- The text of a file. What the full device gives has no end. -/
def read (s : Storage) (text : String) : Except StorageFault String := do
  let path ← Path.ofText text
  match ← s.seek (← s.walk path.start path.way) path.last with
  | (_, none) => throw .noEntry
  | (_, some .directory) => throw .isDirectory
  | (place, some node) =>
    if path.slash then throw .notDirectory
    match node, (s.contents? place).bind String.fromUTF8? with
    | .file, some text => return text
    | .file, none => throw .notText
    | _, _ => throw (.other "out of memory")

/-- Makes an empty file, in place of what the path stood for before. A slash at the end asks for a
directory, which is not made. -/
def create (s : Storage) (text : String) : Except StorageFault (Storage × Destination) := do
  let path ← Path.ofText text
  let directory ← s.walk path.start path.way
  if path.slash then throw .isDirectory
  match ← s.seek directory path.last with
  | (_, some .directory) => throw .isDirectory
  | (_, some .full) => return (s, .full)
  | (place, _) => return (s.store place .empty, .file place)

/-- Lays bytes over the contents of a file. A gap before them is filled with zeros. -/
def overlay (contents : ByteArray) (offset : Nat) (bytes : ByteArray) : ByteArray :=
  if offset = contents.size then contents ++ bytes
  else
    let gap : ByteArray := ⟨Array.replicate (offset - contents.size) 0⟩
    contents.extract 0 offset ++ gap ++ bytes ++
      contents.extract (offset + bytes.size) contents.size

def flushStream (s : Storage) : Storage × Option StorageFault :=
  match s.stream with
  | none => (s, none)
  | some stream =>
    if stream.pending.isEmpty then (s, none)
    else
      match stream.target with
      | .full => (s, some .noSpace)
      | .file place =>
        let bytes := stream.pending.toUTF8
        let contents := overlay ((s.contents? place).getD .empty) stream.offset bytes
        ({ s.store place contents with
            stream := some { stream with offset := stream.offset + bytes.size, pending := "" } },
          none)

instance : Sink Storage where
  put s piece :=
    let held := s.stream.elim 0 (·.pending.utf8ByteSize)
    let (s, fault) :=
      if capacity < held + piece.utf8ByteSize then s.flushStream else (s, none)
    match fault with
    | some fault => (s, some fault)
    | none =>
      let hold (stream : Stream) : Stream := { stream with pending := stream.pending ++ piece }
      ({ s with stream := s.stream.map hold }, none)
  flush := flushStream

def close (s : Storage) : Storage := { s.flushStream.1 with stream := none }

def openStream (s : Storage) (path : String) : Except StorageFault Storage := do
  let (created, target) ← s.create path
  return { created.close with stream := some ⟨target, 0, ""⟩ }

/-- Opens a stream to an empty file in place of the one open before, which is not ended. -/
def openBeside (s : Storage) (path : String) : Except StorageFault Storage := do
  let (created, target) ← s.create path
  return { created with stream := some ⟨target, 0, ""⟩ }

def resume (before beside : Storage) : Storage := { beside.close with stream := before.stream }

def abandon (s : Storage) : Storage := { s with stream := none }

instance : Files Storage where
  read := read
  openStream := openStream
  openBeside := openBeside
  resume := resume
  close := close
  abandon := abandon

end Storage

end IdentifyBench

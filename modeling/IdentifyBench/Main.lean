import IdentifyBench.CommandLine

/-! The program on real files: it looks up what the arguments and the settings name, lets the
command line act on that, and writes the files that have changed. -/
namespace IdentifyBench.CommandLine

def isDirectory (place : Place) : IO Bool := do
  try
    discard (IO.FS.realPath (place.text ++ "/."))
    return true
  catch _ => return false

def lookAt (s : Storage) (place : Place) : IO Storage := do
  if (s.node? place).isSome then return s
  if ← isDirectory place then return { s with directories := place :: s.directories }
  try
    let bytes ← IO.FS.readBinFile place.text
    return s.store place bytes
  catch _ => return s

def look (s : Storage) (text : String) : IO Storage := do
  match Path.ofText text with
  | .error _ => return s
  | .ok path => (path.directories ++ [path.place]).foldlM lookAt s

def gather (args : List String) : IO Storage := do
  match Request.ofArguments? args with
  | some (.run options) =>
    let mut s := Storage.empty
    for path in options.config.toList ++ options.trace.toList ++ options.events.toList do
      s ← look s path
    match options.settings s with
    | .ok settings => look s settings.trace.path
    | .error _ => return s
  | _ => return .empty

end IdentifyBench.CommandLine

open IdentifyBench IdentifyBench.CommandLine in
def main (args : List String) : IO UInt32 := do
  let before ← gather args
  let result := perform args before
  IO.print result.stdout
  for (place, bytes) in result.storage.files do
    if before.contents? place != some bytes then
      IO.FS.writeBinFile place.text bytes
  IO.eprint result.stderr
  return result.code.toUInt32

import IdentifyBench.Settings.Reader
import IdentifyBench.Storage

/-! Settings that a run can use: read from a text or a file, and checked. -/
namespace IdentifyBench.Settings

def check (s : Settings) : Except Failure Settings :=
  match s.problem? with
  | none => .ok s
  | some problem => .error (.settingsInvalid problem.text)

def parse (text : String) : Except Failure Settings := do
  let s ← (read text).mapError .settingsMalformed
  s.check

def ofFile (path : String) (text : Except StorageFault String) : Except Failure Settings := do
  let text ← text.mapError (.settingsUnread path)
  parse text

def load (storage : Storage) (path : String) : Except Failure Settings :=
  ofFile path (storage.read path)

end IdentifyBench.Settings

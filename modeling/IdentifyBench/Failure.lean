import IdentifyBench.Document.Token
import IdentifyBench.Instant

/-! What can go wrong around the stage. The stage itself never fails: every word is identified, if
only as unrecognized. Each failure belongs to one component and is worded in one place. -/
namespace IdentifyBench

inductive StorageFault
  | noEntry
  | notDirectory
  | isDirectory
  | noSpace
  | nameTooLong
  | nulInName
  | notText
  | other (text : String)
  deriving DecidableEq, Repr

def StorageFault.text : StorageFault → String
  | .noEntry => "No such file or directory (os error 2)"
  | .notDirectory => "Not a directory (os error 20)"
  | .isDirectory => "Is a directory (os error 21)"
  | .noSpace => "No space left on device (os error 28)"
  | .nameTooLong => "File name too long (os error 36)"
  | .nulInName => "file name contained an unexpected NUL byte"
  | .notText => "stream did not contain valid UTF-8"
  | .other text => text

inductive Component
  | trace
  | stimulus
  | scheduler
  | config
  | events
  deriving DecidableEq, Repr

def Component.name : Component → String
  | .trace => "trace"
  | .stimulus => "stimulus"
  | .scheduler => "scheduler"
  | .config => "config"
  | .events => "events"

inductive Failure
  | traceOpen (path : String) (cause : StorageFault)
  | traceWrite (time : Instant) (cause : StorageFault)
  /-- The source ran dry before the last word was presented. -/
  | exhausted (issued expected : Nat)
  /-- The limit passed before the stimulus asked for the stop. -/
  | timeLimit (limit : Instant)
  /-- Nothing is scheduled, and nobody asked for the stop. -/
  | starved (time : Instant)
  /-- Lines still move after the allowed rounds. -/
  | unsettled (time : Instant) (rounds : Nat)
  | eventsWrite (path : String) (cause : StorageFault)
  | settingsUnread (path : String) (cause : StorageFault)
  | settingsMalformed (fault : Document.Fault)
  | settingsInvalid (problem : String)
  deriving DecidableEq, Repr

namespace Failure

def component : Failure → Component
  | traceOpen .. | traceWrite .. => .trace
  | exhausted .. | timeLimit .. => .stimulus
  | starved .. | unsettled .. => .scheduler
  | settingsUnread .. | settingsMalformed .. | settingsInvalid .. => .config
  | eventsWrite .. => .events

def faultText : Document.Fault → String
  | .malformed => "the document is not well formed"
  | .truncated => "the document breaks off"
  | .mismatch => "a value is not what its member takes"

def message : Failure → String
  | traceOpen path cause => "cannot create trace file " ++ path ++ ": " ++ cause.text
  | traceWrite time cause => "trace write failed at " ++ time.text ++ ": " ++ cause.text
  | exhausted issued expected =>
    "instruction source exhausted after " ++ toString issued ++ " of " ++ toString expected ++
      " words without a stop"
  | timeLimit limit => "no stop request before the " ++ limit.text ++ " time limit"
  | starved time => "event queue drained at " ++ time.text ++ " without a stop request"
  | unsettled time rounds =>
    "signals still changing at " ++ time.text ++ " after " ++ toString rounds ++ " delta rounds"
  | eventsWrite path cause => "cannot write events to " ++ path ++ ": " ++ cause.text
  | settingsUnread path cause => "cannot read configuration " ++ path ++ ": " ++ cause.text
  | settingsMalformed fault => "malformed configuration: " ++ faultText fault
  | settingsInvalid problem => "invalid configuration: " ++ problem

def cause? : Failure → Option StorageFault
  | traceOpen _ cause => some cause
  | traceWrite _ cause => some cause
  | eventsWrite _ cause => some cause
  | settingsUnread _ cause => some cause
  | _ => none

end Failure

end IdentifyBench

import IdentifyBench.Settings

/-! How settings are laid out in a document: the name of each member, what its value looks like,
and where the value goes. A record may also be written as the list of its values in this order. -/
namespace IdentifyBench.Settings

inductive Layout
  | number (store : UInt64 → Settings → Settings)
  /-- A number of 64 bits, or null. -/
  | limit (store : Option UInt64 → Settings → Settings)
  | flag (store : Bool → Settings → Settings)
  | text (store : String → Settings → Settings)
  /-- A word source, told apart by its kind. -/
  | source (store : SourceSettings → Settings → Settings)
  | record (members : List (String × Layout))

namespace Layout

def general : Layout := .record
  [("max_time_ps", .limit fun v s => { s with general.maxTime := v }),
   ("max_delta_rounds", .number fun v s => { s with general.maxDeltaRounds := v }),
   ("log_observations", .flag fun v s => { s with general.logObservations := v }),
   ("keep_observations", .flag fun v s => { s with general.keepObservations := v })]

def clock : Layout := .record
  [("period_ps", .number fun v s => { s with clock.period := v })]

def stimulus : Layout := .record
  [("reset_ps", .number fun v s => { s with stimulus.reset := v }),
   ("settle_ps", .number fun v s => { s with stimulus.settle := v }),
   ("fetch_delay_ps", .number fun v s => { s with stimulus.fetchDelay := v }),
   ("cycles", .number fun v s => { s with stimulus.cycles := v }),
   ("arbiter_full_every", .number fun v s => { s with stimulus.arbiterFullEvery := v }),
   ("source", .source fun v s => { s with stimulus.source := v })]

def trace : Layout := .record
  [("enabled", .flag fun v s => { s with trace.enabled := v }),
   ("path", .text fun v s => { s with trace.path := v })]

def document : Layout := .record
  [("general", general), ("clock", clock), ("stimulus", stimulus), ("trace", trace)]

end Layout

end IdentifyBench.Settings

import IdentifyBench.Word.Fields

/-! The settings of a run, their standard values, and which of them a run cannot use. Times are in
picoseconds. -/
namespace IdentifyBench

inductive SourceSettings
  | random (seed : UInt64)
  | fixed (words : List Word)
  deriving DecidableEq

structure GeneralSettings where
  /-- The run fails once its time passes this limit. -/
  maxTime : Option UInt64
  /-- Rounds of commits allowed within one instant. -/
  maxDeltaRounds : UInt64
  logObservations : Bool
  keepObservations : Bool
  deriving DecidableEq

structure ClockSettings where
  period : UInt64
  deriving DecidableEq

structure StimulusSettings where
  /-- Length of the reset pulse. -/
  reset : UInt64
  /-- From the end of reset to enable. -/
  settle : UInt64
  /-- From a rising clock edge to the next word. -/
  fetchDelay : UInt64
  /-- Number of words presented. -/
  cycles : UInt64
  /-- The arbiter is full on every word of this number; zero stands for never. -/
  arbiterFullEvery : UInt64
  source : SourceSettings
  deriving DecidableEq

structure TraceSettings where
  enabled : Bool
  path : String
  deriving DecidableEq

structure Settings where
  general : GeneralSettings
  clock : ClockSettings
  stimulus : StimulusSettings
  trace : TraceSettings
  deriving DecidableEq

namespace SourceSettings

def standardSeed : UInt64 := 501686016

def text : SourceSettings → String
  | .random seed => "Random \x7b seed: " ++ toString seed.toNat ++ " \x7d"
  | .fixed words =>
    "Fixed \x7b words: [" ++ ", ".intercalate (words.map fun w => toString w.toNat) ++ "] \x7d"

end SourceSettings

def StimulusSettings.standard : StimulusSettings where
  reset := 12000
  settle := 3000
  fetchDelay := 7000
  cycles := 100
  arbiterFullEvery := 0
  source := .random SourceSettings.standardSeed

namespace Settings

def standard : Settings where
  general := {
    maxTime := none, maxDeltaRounds := 64, logObservations := true, keepObservations := false }
  clock := { period := 10000 }
  stimulus := .standard
  trace := { enabled := true, path := "trace.vcd" }

inductive Problem
  | periodTooShort (period : UInt64)
  | noDeltaRounds
  deriving DecidableEq

def Problem.text : Problem → String
  | .periodTooShort period =>
    "clock period must be at least 2 ps, got " ++ toString period.toNat
  | .noDeltaRounds => "max_delta_rounds must be non-zero"

def problem? (s : Settings) : Option Problem :=
  if s.clock.period < 2 then some (.periodTooShort s.clock.period)
  else if s.general.maxDeltaRounds = 0 then some .noDeltaRounds
  else none

def Valid (s : Settings) : Prop := s.problem? = none

instance (s : Settings) : Decidable s.Valid := inferInstanceAs (Decidable (_ = none))

end Settings

end IdentifyBench

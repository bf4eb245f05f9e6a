import IdentifyBench.Bench.Recording
import IdentifyBench.CommandLine.Arguments
import IdentifyBench.Settings.Load
import IdentifyBench.Tally.Report

/-! The program: decodes words, or runs the bench and reports what came of it. Options overrule the
settings of a file, and settings are checked again after that. A run that fails is reported with the
component that failed, and so is the file of observations that cannot be written. -/
namespace IdentifyBench.CommandLine

structure Result (κ : Type) where
  code : Nat
  stdout : String
  stderr : String
  storage : κ

def Result.usage {κ : Type} (files : κ) : Result κ := ⟨2, "", "", files⟩

/-- Options that are not given leave a setting as it is. Words that are given are presented once,
unless a number of cycles is given too. -/
def Options.apply (o : Options) (s : Settings) : Settings where
  general := {
    s.general with
    maxTime := (o.maxTimeNs.map fun ns =>
        (min (Instant.ofNanoseconds ns.toNat) Instant.last).toUInt64) <|> s.general.maxTime
    keepObservations := o.events.isSome || s.general.keepObservations }
  clock := s.clock
  stimulus := {
    s.stimulus with
    cycles := (o.cycles <|> o.words.map fun words => words.length.toUInt64).getD s.stimulus.cycles
    source := (o.words.map SourceSettings.fixed <|> o.seed.map SourceSettings.random).getD s.stimulus.source }
  trace := {
    enabled := !o.noTrace && (o.trace.isSome || s.trace.enabled)
    path := o.trace.getD s.trace.path }

variable {κ : Type} [Files κ]

def Options.base (o : Options) (files : κ) : Except Failure Settings :=
  match o.config with
  | some path => Settings.ofFile path (Files.read files path)
  | none => .ok .standard

def Options.settings (o : Options) (files : κ) : Except Failure Settings := do
  let base ← o.base files
  (o.apply base).check

def failed (f : Failure) : String := "[!] " ++ f.component.name ++ " failed: " ++ f.message ++ "\n"

def Halt.text : Halt → String
  | .failure f => failed f
  | .endless => "[!] scheduler failed: the run does not end\n"

def opening (s : Settings) : String :=
  "[*] Identify stage simulation\n" ++
  "    clock " ++ toString s.clock.period.toNat ++ " ps  cycles " ++
    toString s.stimulus.cycles.toNat ++ "  source " ++ s.stimulus.source.text ++ "\n" ++
  if s.trace.enabled then "    trace " ++ s.trace.path ++ "\n" else ""

def prepare (s : Settings) (files : κ) : Turn (Recording Source κ) Unit :=
  let new : Recording Source κ := .plain (.new s (.ofSettings s.stimulus.source)) files
  if s.trace.enabled then new.openTrace s.trace.path else .done new []

/-- Reports a run after the observations were written, or not asked for. A run that fails leaves
what its trace still holds back unwritten. -/
def conclude (stdout : String) (turn : Turn (Recording Source κ) Tally) (files : κ) : Result κ :=
  match turn.result with
  | .ok tally =>
    { code := 0
      stdout := stdout ++ "\n[*] Stopped at " ++ turn.state.bench.now.text ++ "\n" ++
        tally.report []
      stderr := ""
      storage := Files.close files }
  | .error halt =>
    { code := 1
      stdout := stdout ++ turn.state.bench.tally.report []
      stderr := "\n" ++ Halt.text halt
      storage := Files.abandon files }

def runBench (events : Option String) (s : Settings) (files : κ) : Result κ :=
  let stdout := opening s
  let prepared := prepare s files
  match prepared.result with
  | .error halt => ⟨1, stdout, Halt.text halt, prepared.state.out⟩
  | .ok () =>
    let turn := prepared.state.run
    match events with
    | none => conclude stdout turn turn.state.out
    | some path =>
      match turn.state.bench.observer.exportTo turn.state.out path with
      | (written, .error f) => ⟨1, stdout, failed f, Files.abandon written⟩
      | (written, .ok count) =>
        conclude
          (stdout ++ "[*] " ++ toString count ++ " observations written to " ++ path ++ "\n")
          turn written

def decodeLine (w : Word) : String :=
  Digits.word w ++ "  " ++ Digits.column 24 (disassemble w) ++ " " ++
    Event.classText (identify w) ++ " prefixed=" ++ Digits.boolean (identify w).prefixed ++ "\n"

def Request.perform (r : Request) (files : κ) : Result κ :=
  match r with
  | .version => ⟨0, "idsim 0.3.0\n", "", files⟩
  | .help => ⟨0, "", "", files⟩
  | .decode words => ⟨0, String.join (words.map decodeLine), "", files⟩
  | .run options =>
    match options.settings files with
    | .error f => ⟨1, "", failed f, files⟩
    | .ok s => runBench options.events s files

def perform (args : List String) (files : κ) : Result κ :=
  match Request.ofArguments? args with
  | none => .usage files
  | some request => request.perform files

end IdentifyBench.CommandLine

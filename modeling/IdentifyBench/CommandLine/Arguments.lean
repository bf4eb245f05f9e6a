import IdentifyBench.CommandLine.Number

/-! The arguments of the program. What cannot be understood has no request. -/
namespace IdentifyBench.CommandLine

structure Options where
  config : Option String
  cycles : Option UInt64
  trace : Option String
  noTrace : Bool
  seed : Option UInt64
  words : Option (List Word)
  events : Option String
  maxTimeNs : Option UInt64
  /-- How often more output was asked for. -/
  verbose : Nat
  deriving DecidableEq, Repr

inductive Request
  | version
  | help
  | decode (words : List Word)
  | run (options : Options)
  deriving DecidableEq, Repr

inductive Parameter
  | config
  | cycles
  | trace
  | seed
  | words
  | events
  | maxTimeNs
  deriving DecidableEq, Repr

def Parameter.ofName? : String → Option Parameter
  | "config" => some .config
  | "cycles" => some .cycles
  | "trace" => some .trace
  | "seed" => some .seed
  | "words" => some .words
  | "events" => some .events
  | "max-time-ns" => some .maxTimeNs
  | _ => none

namespace Options

def absent : Options := ⟨none, none, none, false, none, none, none, none, 0⟩

def path? (text : String) : Option String := if text = "" then none else some text

def words? (text : String) : Option (List Word) := (text.splitOn ",").mapM word?

def once {α : Type} (before value : Option α) : Option (Option α) :=
  if before.isSome then none else value.map some

/-- Words may be given several times; their lists are joined. -/
def set (o : Options) (p : Parameter) (text : String) : Option Options :=
  match p with
  | .config => return { o with config := ← once o.config (path? text) }
  | .cycles => return { o with cycles := ← once o.cycles (count? text) }
  | .trace => return { o with trace := ← once o.trace (path? text) }
  | .seed => return { o with seed := ← once o.seed (count? text) }
  | .words => return { o with words := some (o.words.getD [] ++ (← words? text)) }
  | .events => return { o with events := ← once o.events (path? text) }
  | .maxTimeNs => return { o with maxTimeNs := ← once o.maxTimeNs (count? text) }

def conflict (o : Options) : Bool :=
  o.trace.isSome && o.noTrace || o.seed.isSome && o.words.isSome

end Options

def isOption (arg : String) : Bool := arg.startsWith "-" && arg != "-"

inductive Step
  | next (options : Options)
  /-- The next argument is a value. -/
  | value (options : Options) (parameter : Parameter)
  | done (request : Request)

/-- Single letters after one dash. The rest after `c` is its value. -/
def letters (o : Options) : List Char → Option Step
  | [] => some (.next o)
  | 'v' :: rest => letters { o with verbose := o.verbose + 1 } rest
  | 'V' :: _ => some (.done .version)
  | 'h' :: _ => some (.done .help)
  | 'c' :: [] => some (.value o .config)
  | 'c' :: '=' :: rest => (o.set .config (String.ofList rest)).map .next
  | 'c' :: rest => (o.set .config (String.ofList rest)).map .next
  | _ => none

def named (o : Options) (text : String) : Option Step :=
  match text.splitOn "=" with
  | [name] =>
    match name, Parameter.ofName? name with
    | _, some p => some (.value o p)
    | "no-trace", none => if o.noTrace then none else some (.next { o with noTrace := true })
    | "verbose", none => some (.next { o with verbose := o.verbose + 1 })
    | "version", none => some (.done .version)
    | "help", none => some (.done .help)
    | _, none => none
  | name :: value => do
    let p ← Parameter.ofName? name
    return .next (← o.set p ("=".intercalate value))
  | [] => none

/-- The words to decode. After a double dash nothing is an option any more. -/
def decodeRequest (o : Options) (escaped : Bool) (words : List Word) : List String → Option Request
  | [] => if words.isEmpty || o.conflict then none else some (.decode words)
  | arg :: rest =>
    if !escaped && arg = "--" then decodeRequest o true words rest
    else if !escaped && isOption arg then
      if arg = "--help" || arg.startsWith "-h" then some .help else none
    else do
      let word ← word? arg
      decodeRequest o escaped (words ++ [word]) rest

def request (o : Options) (awaited : Option Parameter) : List String → Option Request
  | [] => if awaited.isSome || o.conflict then none else some (.run o)
  | arg :: rest =>
    match awaited with
    | some p => if isOption arg then none else do request (← o.set p arg) none rest
    | none =>
      if arg = "decode" then decodeRequest o false [] rest
      else if arg = "help" then
        if rest = [] || rest = ["decode"] || rest = ["help"] then some .help else none
      else if arg = "--" then
        if rest.isEmpty && !o.conflict then some (.run o) else none
      else
        let step := match arg.toList with
          | '-' :: '-' :: name => named o (String.ofList name)
          | '-' :: c :: rest => letters o (c :: rest)
          | _ => none
        match step with
        | some (.next o) => request o none rest
        | some (.value o p) => request o (some p) rest
        | some (.done r) => some r
        | none => none

def Request.ofArguments? (args : List String) : Option Request := request .absent none args

end IdentifyBench.CommandLine

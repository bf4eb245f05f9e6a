import IdentifyBench.Decimal
import IdentifyBench.Tally

/-! The printed statistics, in three sections. -/
namespace IdentifyBench.Tally

inductive Section
  | summary
  | mix
  | coverage
  deriving DecidableEq, Repr

def Section.name : Section → String
  | .summary => "summary"
  | .mix => "mix"
  | .coverage => "coverage"

def thick : String := "=========================================================="

def thin : String := "----------------------------------------------------------"

def share (t : Tally) (n : Nat) : String :=
  Decimal.twoPlaces (n.toUInt64.toFloat / (max t.observations 1).toUInt64.toFloat * 100) ++ "%"

def counted (t : Tally) (n : Nat) : String := toString n ++ " (" ++ t.share n ++ ")"

def lines (t : Tally) : Section → List String
  | .summary =>
    ["", thick,
     "IDENTIFY STAGE SIMULATION STATISTICS",
     thick,
     "sim_time                 " ++ t.simTime.text,
     "sim_cycles               " ++ toString t.clockCycles,
     "words_issued             " ++ toString t.wordsIssued,
     "stage_evaluations        " ++ toString t.stageEvaluations,
     "max_delta_rounds         " ++ toString t.deltaRounds,
     "observations             " ++ toString t.observations,
     thin]
  | .mix =>
    ["INSTRUCTION MIX",
     "  branch.i_form          " ++ t.counted t.iForm,
     "  branch.b_form          " ++ t.counted t.bForm,
     "  branch.register        " ++ t.counted t.register,
     "  condreg                " ++ t.counted t.condition,
     "  unrecognized           " ++ t.counted t.unrecognized,
     "  stalled                " ++ t.counted t.stalled,
     thin]
  | .coverage =>
    let c := t.coverage
    let flag (l : Line) : String :=
      "  " ++ Digits.column 24 l.name ++ " 0:" ++ Digits.column 8 (toString (c.hits l false)) ++
        " 1:" ++ toString (c.hits l true)
    let cross (branch condition : Bool) : String := toString (c.crossHits branch condition)
    ["COVERAGE                 " ++ Decimal.twoPlaces c.percent ++ "%"] ++
    Coverage.points.map flag ++
    ["  cross branch x condreg   00:" ++ cross false false ++ " 10:" ++ cross true false ++
      " 01:" ++ cross false true ++ " 11:" ++ cross true true] ++
    c.holes.map (fun hole => "  hole: " ++ hole.text) ++
    [thick]

/-- The named sections, in the order of the report; all of them where no name is given. -/
def report (t : Tally) (names : List String) : String :=
  let wanted := [Section.summary, .mix, .coverage].filter fun s =>
    names.isEmpty || names.contains s.name
  String.join ((wanted.flatMap t.lines).map (· ++ "\n"))

end IdentifyBench.Tally

import IdentifyBench.Proofs.Reading
import IdentifyBench.Proofs.Settling
import IdentifyBench.Waveform
import Mathlib

/-! What a tally has counted. Every counter of a tally adds up one condition on the observations, so
that it does not mind their order; the bin of a covered line adds up the level that the line would
carry. For consistent identifications the counters fit together, since every observation falls into
exactly one class and each class is known by its lines. -/
namespace IdentifyBench

namespace Bin

theorem hits_count (b : Bin) (high value : Bool) :
    (b.count high).hits value = b.hits value + (decide (high = value)).toNat := by
  cases high <;> cases value <;> rfl

theorem count_comm (b : Bin) (high high' : Bool) :
    (b.count high).count high' = (b.count high').count high := by
  cases high <;> cases high' <;> rfl

end Bin

namespace Coverage

theorem flag?_of_point (o : Observation) {l : Line} (point : l ∈ points) :
    ((⟨o.identified, o.stall⟩ : StageOutputs).on l).map l.level = (flag? o l).map .bit := by
  cases l <;> first | rfl | exact absurd point (by decide)

theorem isSome_flag? (o : Observation) {l : Line} (point : l ∈ points) :
    ∃ high, flag? o l = some high := by
  cases l <;> first | exact ⟨_, rfl⟩ | exact absurd point (by decide)

/-- Driven and committed, a covered line carries its value, whatever the lines carried before. -/
theorem levelOf_driven (o : Observation) {l : Line} (point : l ∈ points) (b : Bus) (high : Bool) :
    Waveform.levelOf (b.drive ⟨o.identified, o.stall⟩).commit.1 l = .bit high ↔
      flag? o l = some high := by
  have flagged := flag?_of_point o point
  obtain ⟨value, seen⟩ := isSome_flag? o point
  rw [seen] at flagged ⊢
  obtain ⟨driven, on, level⟩ := Option.map_eq_some_iff.mp flagged
  have carried := (b.promises_drive ⟨o.identified, o.stall⟩).commit l driven on
  rw [Waveform.levelOf, carried, level, Level.bit.injEq, Option.some.injEq]

theorem hits_sample (c : Coverage) (o : Observation) (l : Line) (high : Bool) :
    (c.sample o).hits l high = c.hits l high + (decide (flag? o l = some high)).toNat := by
  unfold hits sample
  rw [LineTable.get_map]
  cases flag? o l with
  | none => simp
  | some value => simp [Bin.hits_count]

theorem crossHits_sample (c : Coverage) (o : Observation) (branch condition : Bool) :
    (c.sample o).crossHits branch condition = c.crossHits branch condition +
      (decide (o.identified.branch = branch ∧ o.identified.condition = condition)).toNat := by
  unfold crossHits sample
  cases o.identified.branch <;> cases branch <;> simp [Bin.hits_count]

theorem sample_comm (c : Coverage) (o p : Observation) :
    (c.sample o).sample p = (c.sample p).sample o := by
  unfold sample
  rw [Coverage.mk.injEq]
  refine ⟨LineTable.ext_get fun l => ?_, ?_, ?_⟩
  · simp only [LineTable.get_map]
    cases flag? o l <;> cases flag? p l <;> simp [Bin.count_comm]
  · cases o.identified.branch <;> cases p.identified.branch <;> simp [Bin.count_comm]
  · cases o.identified.branch <;> cases p.identified.branch <;> simp [Bin.count_comm]

end Coverage

namespace Tally

inductive Kind
  | iForm
  | bForm
  | register
  | condition
  | unrecognized
  deriving DecidableEq

def Kind.of (d : Identification) : Kind :=
  match d.form, d.target with
  | some .iForm, _ => iForm
  | some .bForm, none => bForm
  | some .bForm, some _ => register
  | none, _ => if d.condition then condition else unrecognized

def ofKind (t : Tally) : Kind → Nat
  | .iForm => t.iForm
  | .bForm => t.bForm
  | .register => t.register
  | .condition => t.condition
  | .unrecognized => t.unrecognized

section

variable (d : Identification)

theorem Kind.iForm_eq : (decide (of d = .iForm)).toNat = d.flags.iForm.toNat := by
  obtain ⟨_, form, target, condition, _⟩ := d
  rcases form with _ | _ | _ <;> cases target <;> cases condition <;> rfl

theorem Kind.bForm_eq :
    (decide (of d = .bForm)).toNat + (decide (of d = .register)).toNat = d.flags.bForm.toNat := by
  obtain ⟨_, form, target, condition, _⟩ := d
  rcases form with _ | _ | _ <;> cases target <;> cases condition <;> rfl

theorem Kind.one : (decide (of d = .iForm)).toNat + (decide (of d = .bForm)).toNat +
    (decide (of d = .register)).toNat + (decide (of d = .condition)).toNat +
    (decide (of d = .unrecognized)).toNat = 1 := by
  cases of d <;> rfl

variable {d} (consistent : d.Consistent)

include consistent

/-- Only a branch of the conditional form names a register, and it names one. -/
theorem Kind.register_eq : (decide (of d = .register)).toNat =
    d.flags.lr.toNat + d.flags.ctr.toNat + d.flags.tar.toNat := by
  have named := consistent.2.1
  obtain ⟨_, form, target, condition, _⟩ := d
  cases target with
  | none => rcases form with _ | _ | _ <;> cases condition <;> rfl
  | some r =>
    obtain rfl : form = some .bForm := named rfl
    cases r <;> rfl

theorem Kind.cross_one : (decide (d.branch = false ∧ d.condition = false)).toNat +
    (decide (d.branch = false ∧ d.condition = true)).toNat +
    (decide (d.branch = true ∧ d.condition = false)).toNat = 1 := by
  have apart := consistent.2.2.2
  cases branch : d.branch <;> cases condition : d.condition <;>
    first | rfl | exact absurd ⟨branch, condition⟩ apart

/-- What tells of an operation is no branch. -/
theorem Kind.condition_eq :
    (decide (of d = .condition)).toNat = (decide (d.branch = false ∧ d.condition = true)).toNat ∧
      (decide (of d = .condition)).toNat = d.flags.condition.toNat := by
  obtain ⟨formed, _, _, apart⟩ := consistent
  obtain ⟨branch, form, target, condition, _⟩ := d
  obtain rfl : branch = form.isSome := formed
  rcases form with _ | _ | _ <;> cases target <;> cases condition <;>
    simp_all [of, Identification.flags]

theorem Kind.operations_eq : d.flags.condition.toNat =
    (ConditionOp.all.map fun op => (d.flags.ops op).toNat).sum := by
  have given := consistent.2.2.1
  obtain ⟨_, _, _, condition, op, _⟩ := d
  obtain rfl : condition = op.isSome := given
  rcases op with _ | op
  · rfl
  · cases op <;> rfl

end

theorem ofKind_record (t : Tally) (o : Observation) (k : Kind) :
    (t.record o).ofKind k = t.ofKind k + (decide (Kind.of o.identified = k)).toNat := by
  obtain ⟨_, _, _, ⟨_, form, target, condition, _⟩, _⟩ := o
  unfold record classify Kind.of
  rcases form with _ | _ | _ <;> cases target <;> cases condition <;> cases k <;> rfl

theorem record_eq (t : Tally) (o : Observation) :
    t.record o = { t.classify o.identified with
      observations := t.observations + 1
      stalled := t.stalled + o.stall.toNat
      coverage := t.coverage.sample o } := by
  rw [record, classify_eq]
  cases o.stall <;> rfl

theorem observations_record (t : Tally) (o : Observation) :
    (t.record o).observations = t.observations + 1 := by
  rw [record_eq]

theorem stalled_record (t : Tally) (o : Observation) :
    (t.record o).stalled = t.stalled + o.stall.toNat := by
  rw [record_eq]

theorem coverage_record (t : Tally) (o : Observation) :
    (t.record o).coverage = t.coverage.sample o := by
  rw [record_eq]

theorem classify_comm (t : Tally) (d e : Identification) :
    (t.classify d).classify e = (t.classify e).classify d := by
  obtain ⟨_, form, target, condition, _⟩ := d
  obtain ⟨_, form', target', condition', _⟩ := e
  unfold classify
  rcases form with _ | _ | _ <;> rcases form' with _ | _ | _ <;> cases condition <;>
    cases condition' <;> cases target <;> cases target' <;> rfl

theorem classify_set (t : Tally) (d : Identification) (observations stalled : Nat)
    (coverage : Coverage) :
    { t with observations, stalled, coverage }.classify d =
      { t.classify d with observations, stalled, coverage } := by
  obtain ⟨_, form, target, condition, _⟩ := d
  unfold classify
  rcases form with _ | _ | _ <;> cases target <;> cases condition <;> rfl

theorem record_comm (t : Tally) (o p : Observation) :
    (t.record o).record p = (t.record p).record o := by
  have twice (o p : Observation) : (t.record o).record p =
      { (t.classify o.identified).classify p.identified with
        observations := t.observations + 2
        stalled := t.stalled + o.stall.toNat + p.stall.toNat
        coverage := (t.coverage.sample o).sample p } := by
    rw [record_eq (t.record o) p, record_eq t o, classify_set]
  rw [twice, twice, classify_comm, Coverage.sample_comm, Nat.add_right_comm]

instance : RightCommutative record := ⟨record_comm⟩

/-- A counter that each observation raises by one or leaves is the number of those that raise it. -/
theorem foldl_record_eq (counter : Tally → Nat) (raises : Observation → Bool)
    (step : ∀ t o, counter (record t o) = counter t + (raises o).toNat) (t : Tally)
    (observations : List Observation) :
    counter (observations.foldl record t) = counter t + observations.countP raises := by
  induction observations generalizing t with
  | nil => rfl
  | cons o rest ih =>
    rw [List.foldl_cons, ih, step, List.countP_cons, Nat.add_assoc, Nat.add_comm (raises o).toNat]
    cases raises o <;> rfl

structure Balanced (t : Tally) : Prop where
  points : ∀ l ∈ Coverage.points, t.coverage.hits l false + t.coverage.hits l true = t.observations
  cross : t.coverage.crossHits false false + t.coverage.crossHits false true +
    t.coverage.crossHits true false = t.observations
  apart : t.coverage.crossHits true true = 0
  kinds : t.iForm + t.bForm + t.register + t.condition + t.unrecognized = t.observations
  iForm : t.iForm = t.coverage.hits .iForm true
  bForm : t.bForm + t.register = t.coverage.hits .bForm true
  register : t.register = t.coverage.hits .targetLr true + t.coverage.hits .targetCtr true +
    t.coverage.hits .targetTar true
  condition : t.condition = t.coverage.hits .condition true
  operations : t.condition = (ConditionOp.all.map fun op => t.coverage.hits (.ofOp op) true).sum
  plain : t.condition = t.coverage.crossHits false true
  stalled : t.stalled = t.coverage.hits .stall true

theorem balanced_empty : Balanced empty := by
  constructor <;> first | rfl | decide

theorem hits_record (t : Tally) (o : Observation) {l : Line} {value : Bool}
    (seen : Coverage.flag? o l = some value) (high : Bool) :
    (t.record o).coverage.hits l high =
      t.coverage.hits l high + (decide (value = high)).toNat := by
  rw [coverage_record, Coverage.hits_sample, seen]
  simp only [Option.some.injEq]

theorem crossHits_record (t : Tally) (o : Observation) (branch condition : Bool) :
    (t.record o).coverage.crossHits branch condition = t.coverage.crossHits branch condition +
      (decide (o.identified.branch = branch ∧ o.identified.condition = condition)).toNat := by
  rw [coverage_record, Coverage.crossHits_sample]

theorem Balanced.record {t : Tally} (balanced : t.Balanced) {o : Observation}
    (consistent : o.identified.Consistent) : (t.record o).Balanced := by
  have iForm : (t.record o).iForm = t.iForm + _ := ofKind_record t o .iForm
  have bForm : (t.record o).bForm = t.bForm + _ := ofKind_record t o .bForm
  have register : (t.record o).register = t.register + _ := ofKind_record t o .register
  have condition : (t.record o).condition = t.condition + _ := ofKind_record t o .condition
  have unrecognized : (t.record o).unrecognized = t.unrecognized + _ :=
    ofKind_record t o .unrecognized
  have high {l : Line} {value : Bool} (seen : Coverage.flag? o l = some value) :
      (t.record o).coverage.hits l true = t.coverage.hits l true + value.toNat := by
    rw [hits_record t o seen, Bool.decide_eq_true]
  constructor
  case points =>
    intro l point
    obtain ⟨value, seen⟩ := Coverage.isSome_flag? o point
    have before := balanced.points l point
    rw [hits_record t o seen, hits_record t o seen, observations_record, ← before]
    cases value <;> simp <;> omega
  case cross =>
    have one := Kind.cross_one consistent
    simp only [crossHits_record, observations_record, ← balanced.cross]
    omega
  case apart =>
    have impossible := consistent.2.2.2
    simp only [crossHits_record, balanced.apart, impossible, decide_false, Bool.toNat_false]
  case kinds =>
    have one := Kind.one o.identified
    rw [iForm, bForm, register, condition, unrecognized, observations_record, ← balanced.kinds]
    omega
  case iForm =>
    rw [iForm, Kind.iForm_eq, balanced.iForm]
    exact (high (l := .iForm) rfl).symm
  case bForm =>
    rw [bForm, register, high (l := .bForm) rfl, ← balanced.bForm, ← Kind.bForm_eq]
    omega
  case register =>
    rw [register, Kind.register_eq consistent, high (l := .targetLr) rfl, high (l := .targetCtr) rfl,
      high (l := .targetTar) rfl, balanced.register]
    omega
  case condition =>
    rw [condition, (Kind.condition_eq consistent).2, balanced.condition]
    exact (high (l := .condition) rfl).symm
  case operations =>
    have raised (op : ConditionOp) : (t.record o).coverage.hits (.ofOp op) true =
        t.coverage.hits (.ofOp op) true + (o.identified.flags.ops op).toNat := by
      apply high
      cases op <;> rfl
    rw [condition, (Kind.condition_eq consistent).2, Kind.operations_eq consistent,
      balanced.operations]
    simp only [raised, List.sum_map_add]
  case plain =>
    rw [condition, (Kind.condition_eq consistent).1, crossHits_record, balanced.plain]
  case stalled =>
    rw [stalled_record, balanced.stalled]
    exact (high (l := .stall) rfl).symm

theorem Balanced.foldl {t : Tally} (balanced : t.Balanced) {observations : List Observation}
    (consistent : ∀ o ∈ observations, o.identified.Consistent) :
    (observations.foldl Tally.record t).Balanced := by
  induction observations generalizing t with
  | nil => exact balanced
  | cons o rest ih =>
    exact ih (balanced.record (consistent o List.mem_cons_self))
      fun p inside => consistent p (List.mem_cons_of_mem o inside)

theorem hits_foldl (observations : List Observation) {l : Line} (point : l ∈ Coverage.points)
    (high : Bool) :
    (observations.foldl record empty).coverage.hits l high =
      observations.countP fun o => decide (Coverage.flag? o l = some high) := by
  have counted := foldl_record_eq (fun t => t.coverage.hits l high)
    (fun o => decide (Coverage.flag? o l = some high))
    (fun t o => by rw [coverage_record, Coverage.hits_sample]) empty observations
  have zero : empty.coverage.hits l high = 0 := by
    revert point
    cases l <;> cases high <;> decide
  rw [counted, zero, Nat.zero_add]

/-- What has been recorded is counted, whatever the order: in the bin of a covered line and a value lie
those observations whose outputs, once driven and committed, carry that value on the line. Both bins of
a line hold all observations, and so do the cells of the two identification flags, one of which stays
empty. Each observation is of one kind, and each kind is known by its lines. -/
theorem counts_observations (observations : List Observation)
    (consistent : ∀ o ∈ observations, o.identified.Consistent) :
    let t := observations.foldl record empty
    let hits := t.coverage.hits
    let cross := t.coverage.crossHits
    (∀ l ∈ Coverage.points, ∀ (high : Bool) (b : Bus),
      hits l high = observations.countP fun o =>
        decide (Waveform.levelOf (b.drive ⟨o.identified, o.stall⟩).commit.1 l = .bit high)) ∧
    t.observations = observations.length ∧
    (∀ l ∈ Coverage.points, hits l false + hits l true = t.observations) ∧
    cross false false + cross false true + cross true false + cross true true = t.observations ∧
    cross true true = 0 ∧
    t.iForm + t.bForm + t.register + t.condition + t.unrecognized = t.observations ∧
    t.iForm = hits .iForm true ∧
    t.bForm + t.register = hits .bForm true ∧
    t.register = hits .targetLr true + hits .targetCtr true + hits .targetTar true ∧
    t.condition = hits .condition true ∧
    t.condition = (ConditionOp.all.map fun op => hits (.ofOp op) true).sum ∧
    t.condition = cross false true ∧
    t.stalled = hits .stall true ∧
    ∀ other, observations.Perm other → other.foldl record empty = t := by
  intro t hits cross
  have balanced : t.Balanced := balanced_empty.foldl consistent
  have recorded : t.observations = observations.length := by
    have counted := foldl_record_eq Tally.observations (fun _ => true) observations_record empty
      observations
    rw [List.countP_true] at counted
    exact counted.trans (Nat.zero_add _)
  refine ⟨?_, recorded, balanced.points, ?_, balanced.apart, balanced.kinds, balanced.iForm,
    balanced.bForm, balanced.register, balanced.condition, balanced.operations, balanced.plain,
    balanced.stalled, ?_⟩
  · intro l point high b
    refine (hits_foldl observations point high).trans (List.countP_congr fun o _ => ?_)
    rw [decide_eq_true_iff, decide_eq_true_iff, Coverage.levelOf_driven o point]
  · exact (congrArg (_ + ·) balanced.apart).trans balanced.cross
  · exact fun other same => (same.foldl_eq empty).symm

/-- A branch seen twice, once while the arbiter is full, beside two other words. -/
theorem counts_of_four_words :
    ∃ observations : List Observation,
      observations = [(0x48000000, false), (0x4C221A02, false), (0x48000000, true), (0, false)].map
        (fun (word, full) => ⟨0, word, ⟨false, true, full⟩, identify word, full⟩) ∧
      (∀ o ∈ observations, o.identified.Consistent) ∧
      (observations.foldl record empty).iForm = 2 ∧
      (observations.foldl record empty).coverage.hits .iForm true = 2 ∧
      (observations.foldl record empty).coverage.crossHits true true = 0 ∧
      observations.reverse.foldl record empty = observations.foldl record empty := by
  obtain ⟨observations, same⟩ : ∃ observations : List Observation, observations =
      [(0x48000000, false), (0x4C221A02, false), (0x48000000, true), (0, false)].map
        (fun (word, full) => ⟨0, word, ⟨false, true, full⟩, identify word, full⟩) := ⟨_, rfl⟩
  have consistent : ∀ o ∈ observations, o.identified.Consistent := by
    rw [same]
    decide +kernel
  obtain ⟨_, _, _, _, apart, _, iForm, _, _, _, _, _, _, unordered⟩ :=
    counts_observations observations consistent
  have branches : (observations.foldl record empty).iForm = 2 := by
    rw [same]
    decide +kernel
  exact ⟨observations, same, consistent, branches, iForm.symm.trans branches, apart,
    unordered _ observations.reverse_perm.symm⟩

end Tally

end IdentifyBench

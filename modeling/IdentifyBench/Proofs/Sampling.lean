import IdentifyBench.Proofs.Drawing
import IdentifyBench.Proofs.Encoding
import Mathlib.Data.Set.Function

/-! What random words can be. The first draw picks a case, and the draws of a case stand in one to one
correspondence with the words it is there for: all the words of its instructions that have no stray bit in
them. So every instruction comes up with each of its operands, and a sample of an instruction is recognized
as that instruction. -/
namespace IdentifyBench

theorem Rule.find?_of_accepts {r : Rule} (listed : r ∈ table) {w : Word} (accepted : r.accepts w = true) :
    find? w = some r := by
  have few := length_accepting w
  have inside : r ∈ accepting w := List.mem_filter.mpr ⟨listed, accepted⟩
  rw [find?, ← List.head?_filter]
  change (accepting w).head? = some r
  cases listing : accepting w with
  | nil => simp [listing] at inside
  | cons first rest =>
    rw [listing, List.length_cons] at few
    obtain rfl : rest = [] := List.eq_nil_of_length_eq_zero (by omega)
    rw [listing, List.mem_singleton] at inside
    rw [inside, List.head?_cons]

theorem Rule.eq_of_kind {r s : Rule} (listed : r ∈ table) (listed' : s ∈ table)
    (same : r.kind = s.kind) : r = s := by
  have distinct : ∀ r ∈ table, ∀ s ∈ table, r.kind = s.kind → r = s := by decide
  exact distinct r listed s listed' same

def Word.mnemonic? (w : Word) : Option String := (Rule.find? w).map (·.mnemonic)

namespace Sample

open Word

def targets : Vector TargetRegister 3 := #v[.lr, .ctr, .tar]

def logicals : Vector ConditionOp 8 :=
  #v[.crand, .crnand, .cror, .crxor, .crnor, .creqv, .crandc, .crorc]

/-- What the word of a sample is meant to be; stray words are meant to be nothing in particular. -/
def kind? : Sample → Option InstructionClass
  | branch .. => some (.branch .iForm none)
  | conditional .. => some (.branch .bForm none)
  | toRegister register .. => some (.branch .bForm (some (targets.get register)))
  | logical operation .. => some (.condition (logicals.get operation))
  | move .. => some (.condition .mcrf)
  | opcode19 .. => none
  | stray .. => none

theorem bijOn_of_inverse {α : Type} {build : α → Word} {words : Set Word} (fields : Word → α)
    (inside : ∀ x, build x ∈ words) (recovered : ∀ x, fields (build x) = x)
    (rebuilt : ∀ w ∈ words, build (fields w) = w) : Set.BijOn build Set.univ words :=
  Set.InvOn.bijOn ⟨fun x _ => recovered x, rebuilt⟩ (fun x _ => inside x) fun _ _ => trivial

theorem branch_bijOn :
    Set.BijOn (fun x : BitVec 24 × Bool × Bool => (branch x.1 x.2.1 x.2.2).word) Set.univ
      {w | w.primaryOpcode = 18} := by
  apply bijOn_of_inverse (fun w => (w.longBody, w.absolute, w.link))
  · intro x
    exact primaryOpcode_iForm ..
  · intro x
    simp only [word, longBody_iForm, absolute_iForm, link_iForm]
    rw [longBody, extract_signExtend (by omega)]
  · intro w primary
    exact iForm_fields _ w primary w.longBody_liDisplacement

theorem conditional_bijOn :
    Set.BijOn (fun x : BitVec 14 × BitVec 5 × BitVec 5 × Bool × Bool =>
      (conditional x.1 x.2.1 x.2.2.1 x.2.2.2.1 x.2.2.2.2).word) Set.univ
      {w | w.primaryOpcode = 16} := by
  apply bijOn_of_inverse (fun w => (w.shortBody, w.bo, w.bi, w.absolute, w.link))
  · intro x
    exact primaryOpcode_bForm ..
  · intro x
    simp only [word, shortBody_bForm, bo_bForm, bi_bForm, absolute_bForm, link_bForm,
      setWidth_widened (by omega : 5 ≤ 32)]
    rw [shortBody, extract_signExtend (by omega)]
  · intro w primary
    exact bForm_fields _ w primary w.shortBody_bdDisplacement

theorem word_toRegister (register : Fin 3) (bo bi : BitVec 5) (bh : BitVec 2) (link : Bool) :
    (toRegister register bo bi bh link).word =
      groupRow 19 bo bi (0#3 ++ bh) (registers.get register) link := by
  simp only [word, xlBranch_eq_groupRow, setWidth_widened (by omega : 5 ≤ 32),
    setWidth_widened (by omega : 2 ≤ 32), setWidth_widened (by omega : 10 ≤ 32)]
  rfl

theorem word_logical (operation : Fin 8) (bt ba bb : BitVec 5) :
    (logical operation bt ba bb).word = groupRow 19 bt ba bb (operations.get operation) false := by
  simp only [word, xlLogical_eq_groupRow, setWidth_widened (by omega : 5 ≤ 32),
    setWidth_widened (by omega : 10 ≤ 32)]
  rfl

theorem word_move (bf bfa : BitVec 3) :
    (move bf bfa).word = groupRow 19 (bf ++ 0#2) (bfa ++ 0#2) 0#5 0#10 false := by
  simp only [word, moveField_eq_groupRow, setWidth_widened (by omega : 3 ≤ 32)]

theorem primaryOpcode_opcode19 (extended : BitVec 10) (link : BitVec 1) :
    (opcode19 extended link).word.primaryOpcode = 19 := by
  simp only [word, primaryOpcode]
  simp (disch := omega) only [BitVec.extractLsb'_append_eq_of_le]
  exact BitVec.extractLsb'_eq_self

def placeIn {n : Nat} (opcodes : Vector (BitVec 10) (n + 1)) (opcode : BitVec 10) : Fin (n + 1) :=
  Fin.ofNat (n + 1) (opcodes.toList.idxOf opcode)

theorem placeIn_registers : ∀ i : Fin 3, placeIn registers (registers.get i) = i := by decide

theorem placeIn_operations : ∀ i : Fin 8, placeIn operations (operations.get i) = i := by decide

theorem mnemonic?_of_group {w : Word} (primary : w.primaryOpcode = 19) :
    w.mnemonic? = (Rule.ofExtended? w.extendedOpcode.toNat).map (·.mnemonic) := by
  rw [mnemonic?, Rule.find?_of_group primary]

/-- A word whose name is one of these is in the group of opcode 19 if all rules of these names are. -/
theorem grouped_of_mnemonic? {names : List String} {P : BitVec 10 → Prop}
    (grouped : ∀ r ∈ Rule.table, r.mnemonic ∈ names →
      r.pattern.primaryOpcode = 19 ∧ P r.pattern.extendedOpcode) {w : Word}
    (named : ∃ name ∈ names, w.mnemonic? = some name) : w.primaryOpcode = 19 ∧ P w.extendedOpcode := by
  obtain ⟨name, listed, spelled⟩ := named
  obtain ⟨r, found, rfl⟩ := Option.map_eq_some_iff.mp spelled
  have inTable := Rule.listed_of_find? found
  obtain ⟨primary, extended⟩ := grouped r inTable listed
  obtain ⟨samePrimary, sameExtended⟩ := (Rule.accepts_iff inTable w).mp (Rule.accepts_of_find? found)
  rw [samePrimary, sameExtended primary]
  exact ⟨primary, extended⟩

theorem toRegister_bijOn :
    Set.BijOn (fun x : Fin 3 × BitVec 5 × BitVec 5 × BitVec 2 × Bool =>
      (toRegister x.1 x.2.1 x.2.2.1 x.2.2.2.1 x.2.2.2.2).word) Set.univ
      {w | (∃ name ∈ ["bclr", "bcctr", "bctar"], w.mnemonic? = some name) ∧ w &&& 0x0000e000 = 0} := by
  apply bijOn_of_inverse
    (fun w => (placeIn registers w.extendedOpcode, w.bo, w.bi, w.bh, w.link))
  · intro x
    have named : ∀ i : Fin 3, ∃ name ∈ ["bclr", "bcctr", "bctar"],
        (Rule.ofExtended? (registers.get i).toNat).map (·.mnemonic) = some name := by decide
    have clear := Word.and_not_eq_self_iff (toRegister x.1 x.2.1 x.2.2.1 x.2.2.2.1 x.2.2.2.2).word
      Format.register.unused
    refine ⟨?_, clear.mp ?_⟩
    · rw [mnemonic?_of_group (by rw [word_toRegister, primaryOpcode_groupRow]), word_toRegister,
        extendedOpcode_groupRow]
      exact named x.1
    · rw [and_unused_register, word_toRegister]
      simp only [primaryOpcode_groupRow, bo_groupRow, bi_groupRow, extendedOpcode_groupRow,
        link_groupRow, bh_eq, bb_groupRow, BitVec.extractLsb'_append_eq_right]
  · intro x
    simp only [word_toRegister, extendedOpcode_groupRow, bo_groupRow, bi_groupRow, link_groupRow, bh_eq,
      bb_groupRow, BitVec.extractLsb'_append_eq_right, placeIn_registers]
  · rintro w ⟨named, clear⟩
    obtain ⟨primary, place⟩ := grouped_of_mnemonic?
      (P := fun opcode => registers.get (placeIn registers opcode) = opcode) (by decide) named
    have row := (Word.and_not_eq_self_iff w Format.register.unused).mpr clear
    rw [and_unused_register, primary] at row
    rw [word_toRegister, place]
    exact row

theorem logical_bijOn :
    Set.BijOn (fun x : Fin 8 × BitVec 5 × BitVec 5 × BitVec 5 =>
      (logical x.1 x.2.1 x.2.2.1 x.2.2.2).word) Set.univ
      {w | (∃ name ∈ ["crand", "crnand", "cror", "crxor", "crnor", "creqv", "crandc", "crorc"],
        w.mnemonic? = some name) ∧ w &&& 0x00000001 = 0} := by
  apply bijOn_of_inverse
    (fun w => (placeIn operations w.extendedOpcode, w.bo, w.bi, w.bb))
  · intro x
    have named : ∀ i : Fin 8,
        ∃ name ∈ ["crand", "crnand", "cror", "crxor", "crnor", "creqv", "crandc", "crorc"],
          (Rule.ofExtended? (operations.get i).toNat).map (·.mnemonic) = some name := by decide
    have clear := Word.and_not_eq_self_iff (logical x.1 x.2.1 x.2.2.1 x.2.2.2).word
      Format.logical.unused
    refine ⟨?_, clear.mp ?_⟩
    · rw [mnemonic?_of_group (by rw [word_logical, primaryOpcode_groupRow]), word_logical,
        extendedOpcode_groupRow]
      exact named x.1
    · rw [and_unused_logical, word_logical]
      simp only [primaryOpcode_groupRow, bo_groupRow, bi_groupRow, bb_groupRow,
        extendedOpcode_groupRow]
  · intro x
    simp only [word_logical, extendedOpcode_groupRow, bo_groupRow, bi_groupRow, bb_groupRow,
      placeIn_operations]
  · rintro w ⟨named, clear⟩
    obtain ⟨primary, place⟩ := grouped_of_mnemonic?
      (P := fun opcode => operations.get (placeIn operations opcode) = opcode) (by decide) named
    have row := (Word.and_not_eq_self_iff w Format.logical.unused).mpr clear
    rw [and_unused_logical, primary] at row
    rw [word_logical, place]
    exact row

/-- A mask that leaves nothing but the primary opcode and the two fields of a move. -/
theorem and_fields_move (w : Word) :
    w &&& ~~~0x0063ffff = groupRow w.primaryOpcode (w.bf ++ 0#2) (w.bfa ++ 0#2) 0#5 0#10 false := by
  have mask : ~~~(0x0063ffff : Word) =
      groupRow (BitVec.allOnes 6) 28#5 28#5 0#5 0#10 false := by decide
  have high : ∀ x : BitVec 5, x &&& 28#5 = x.extractLsb' 2 3 ++ 0#2 := by decide
  conv_lhs => rw [mask, ← groupRow_fields w]
  rw [groupRow_and, high, high, bf_eq, bfa_eq]
  simp only [BitVec.and_allOnes, BitVec.and_zero, Bool.and_false]

theorem move_bijOn :
    Set.BijOn (fun x : BitVec 3 × BitVec 3 => (move x.1 x.2).word) Set.univ
      {w | w.mnemonic? = some "mcrf" ∧ w &&& 0x0063ffff = 0} := by
  apply bijOn_of_inverse (fun w => (w.bf, w.bfa))
  · intro x
    refine ⟨?_, (Word.and_not_eq_self_iff (move x.1 x.2).word 0x0063ffff).mp ?_⟩
    · rw [mnemonic?_of_group (by rw [word_move, primaryOpcode_groupRow]), word_move,
        extendedOpcode_groupRow]
      decide
    · rw [and_fields_move, word_move]
      simp only [primaryOpcode_groupRow, bf_eq, bfa_eq, bo_groupRow, bi_groupRow,
        BitVec.extractLsb'_append_eq_left]
  · intro x
    simp only [word_move, bf_eq, bfa_eq, bo_groupRow, bi_groupRow, BitVec.extractLsb'_append_eq_left]
  · rintro w ⟨named, clear⟩
    have grouped := grouped_of_mnemonic? (P := fun _ => True) (by decide)
      ⟨"mcrf", List.mem_singleton_self _, named⟩
    have row := (Word.and_not_eq_self_iff w 0x0063ffff).mpr clear
    rw [and_fields_move, grouped.1] at row
    rw [word_move]
    exact row

theorem exists_rule {s : Sample} {kind : InstructionClass} (meant : s.kind? = some kind) :
    ∃ r, Rule.find? s.word = some r ∧ r.kind = kind := by
  rw [← Option.map_eq_some_iff]
  cases s with
  | branch displacement absolute link =>
    cases meant
    rw [word, Rule.find?_of_unconditional (primaryOpcode_iForm ..)]
    rfl
  | conditional displacement bo bi absolute link =>
    cases meant
    rw [word, Rule.find?_of_conditional (primaryOpcode_bForm ..)]
    rfl
  | toRegister register bo bi bh link =>
    have kinds : ∀ i : Fin 3, (Rule.ofExtended? (registers.get i).toNat).map (·.kind) =
        some (.branch .bForm (some (targets.get i))) := by decide
    cases meant
    rw [word_toRegister, Rule.find?_of_group (primaryOpcode_groupRow ..), extendedOpcode_groupRow]
    exact kinds register
  | logical operation bt ba bb =>
    have kinds : ∀ i : Fin 8, (Rule.ofExtended? (operations.get i).toNat).map (·.kind) =
        some (.condition (logicals.get i)) := by decide
    cases meant
    rw [word_logical, Rule.find?_of_group (primaryOpcode_groupRow ..), extendedOpcode_groupRow]
    exact kinds operation
  | move bf bfa =>
    cases meant
    rw [word_move, Rule.find?_of_group (primaryOpcode_groupRow ..), extendedOpcode_groupRow]
    decide
  | opcode19 extended link => cases meant
  | stray word => cases meant

theorem identify_word {s : Sample} {kind : InstructionClass} (meant : s.kind? = some kind) :
    identify s.word = (Identification.plain s.word).classified kind := by
  obtain ⟨r, found, rfl⟩ := exists_rule meant
  rw [identify, found]

def ofFormat (f : Format) (w : Word) : Sample :=
  match f with
  | .unconditional => branch w.longBody w.absolute w.link
  | .conditional => conditional w.shortBody w.bo w.bi w.absolute w.link
  | .register => toRegister (placeIn registers w.extendedOpcode) w.bo w.bi w.bh w.link
  | .logical => logical (placeIn operations w.extendedOpcode) w.bo w.bi w.bb
  | .move => move w.bf w.bfa

theorem ofFormat_of_find? {r : Rule} {w : Word} (found : Rule.find? w = some r) :
    (ofFormat r.format w).kind? = some r.kind ∧ (ofFormat r.format w).word = r.format.rebuild w := by
  have listed := Rule.listed_of_find? found
  cases format : r.format with
  | unconditional =>
    have kinds : ∀ r ∈ Rule.table, r.format = .unconditional → r.kind = .branch .iForm none := by decide
    exact ⟨congrArg some (kinds r listed format).symm, rfl⟩
  | conditional =>
    have kinds : ∀ r ∈ Rule.table, r.format = .conditional → r.kind = .branch .bForm none := by decide
    exact ⟨congrArg some (kinds r listed format).symm, rfl⟩
  | register =>
    have kinds : ∀ r ∈ Rule.table, r.format = .register →
        registers.get (placeIn registers r.pattern.extendedOpcode) = r.pattern.extendedOpcode ∧
        r.kind = .branch .bForm (some (targets.get (placeIn registers r.pattern.extendedOpcode))) := by decide
    obtain ⟨place, kind⟩ := kinds r listed format
    simp only [← Rule.extended_of_find? found (congrArg Format.primary format)] at place kind
    refine ⟨congrArg some kind.symm, ?_⟩
    rw [Format.rebuild, ← place]
    rfl
  | logical =>
    have kinds : ∀ r ∈ Rule.table, r.format = .logical →
        operations.get (placeIn operations r.pattern.extendedOpcode) = r.pattern.extendedOpcode ∧
        r.kind = .condition (logicals.get (placeIn operations r.pattern.extendedOpcode)) := by decide
    obtain ⟨place, kind⟩ := kinds r listed format
    simp only [← Rule.extended_of_find? found (congrArg Format.primary format)] at place kind
    refine ⟨congrArg some kind.symm, ?_⟩
    rw [Format.rebuild, ← place]
    rfl
  | move =>
    have kinds : ∀ r ∈ Rule.table, r.format = .move → r.kind = .condition .mcrf := by decide
    exact ⟨congrArg some (kinds r listed format).symm, rfl⟩

theorem scripted_of_mem {s : Sample} {answers : List Answer} (listed : answers ∈ s.scripts) :
    scripted answers = some s.word :=
  scripted_eq_some_iff.mpr ⟨s, listed, rfl⟩

/-- What the samples stand in one to one correspondence with, their scripts do too. -/
theorem scripted_bijOn {α : Type} {sample : α → Sample} {script : α → List Answer} {words : Set Word}
    (bij : Set.BijOn (fun x => (sample x).word) Set.univ words)
    (listed : ∀ x, script x ∈ (sample x).scripts) :
    Set.BijOn (fun x => scripted (script x)) Set.univ (some '' words) := by
  have each : Set.EqOn (some ∘ fun x => (sample x).word) (fun x => scripted (script x)) Set.univ :=
    fun x _ => (scripted_of_mem (listed x)).symm
  exact ((Option.some_injective _).injOn.bijOn_image.comp bij).congr each

theorem exists_mem_scripts (s : Sample) : ∃ answers, answers ∈ s.scripts := by
  cases s <;> exact ⟨_, List.mem_cons_self⟩

theorem exists_kind_of_roll {s : Sample} {answers : List Answer} {case : Fin 8}
    (listed : answers ∈ s.scripts) (first : answers.head? = some (.roll case)) (early : case ≤ 5) :
    ∃ kind, s.kind? = some kind := by
  cases s with
  | opcode19 extended link =>
    obtain rfl := List.mem_singleton.mp listed
    cases first
    exact absurd early (by decide)
  | stray word =>
    obtain rfl := List.mem_singleton.mp listed
    cases first
    exact absurd early (by decide)
  | _ => exact ⟨_, rfl⟩

theorem primaryOpcode_of_roll {s : Sample} {answers : List Answer} (listed : answers ∈ s.scripts)
    (first : answers.head? = some (.roll 6)) : s.word.primaryOpcode = 19 := by
  cases s with
  | opcode19 extended link => exact primaryOpcode_opcode19 extended link
  | logical operation bt ba bb =>
    rw [scripts, List.mem_pair] at listed
    rcases listed with rfl | rfl <;> cases first
  | _ =>
    obtain rfl := List.mem_singleton.mp listed
    cases first

/-- What is drawn depends on the answers of the generator alone, and any answers in the ranges asked for lead
to a word. In each case up to the fifth they stand in one to one correspondence with the words of its
instructions that set no bit without a meaning. Each of these words is recognized as what it was drawn for,
and for each rule and each word it accepts there are answers that lead to a word with the same operands. The
sixth case stays under opcode 19. -/
theorem samples_cover_encodings :
    (∀ (γ : Type) [Dice (StateM γ)] (g : γ), ∃ answers,
      Yields g answers ((draw : StateM γ Sample).run g).2 ∧
        scripted answers = some ((draw : StateM γ Sample).run g).1.word) ∧
    (∀ g : Generator, ∃ answers w next, Yields g answers next ∧ scripted answers = some w ∧
      WordSource.next (Source.random g) = (some w, .random next)) ∧
    (∀ answers w, scripted answers = some w ↔ ∃ s : Sample, answers ∈ s.scripts ∧ s.word = w) ∧
    Set.BijOn (fun x : BitVec 24 × Bool × Bool =>
      scripted [.roll 0, .field 24 x.1, .flag x.2.1, .flag x.2.2]) Set.univ
      (some '' {w | w.primaryOpcode = 18}) ∧
    Set.BijOn (fun x : BitVec 14 × BitVec 5 × BitVec 5 × Bool × Bool =>
      scripted [.roll 1, .field 14 x.1, .field 5 x.2.1, .field 5 x.2.2.1, .flag x.2.2.2.1,
        .flag x.2.2.2.2]) Set.univ (some '' {w | w.primaryOpcode = 16}) ∧
    Set.BijOn (fun x : Fin 3 × BitVec 5 × BitVec 5 × BitVec 2 × Bool =>
      scripted [.roll 2, .pick 3 x.1, .field 5 x.2.1, .field 5 x.2.2.1, .field 2 x.2.2.2.1,
        .flag x.2.2.2.2]) Set.univ
      (some '' {w | (∃ name ∈ ["bclr", "bcctr", "bctar"], w.mnemonic? = some name) ∧
        w &&& 0x0000e000 = 0}) ∧
    (∀ case : Fin 8, case = 3 ∨ case = 4 →
      Set.BijOn (fun x : Fin 8 × BitVec 5 × BitVec 5 × BitVec 5 =>
        scripted [.roll case, .pick 8 x.1, .field 5 x.2.1, .field 5 x.2.2.1, .field 5 x.2.2.2]) Set.univ
        (some '' {w | (∃ name ∈ ["crand", "crnand", "cror", "crxor", "crnor", "creqv", "crandc", "crorc"],
          w.mnemonic? = some name) ∧ w &&& 0x00000001 = 0})) ∧
    Set.BijOn (fun x : BitVec 3 × BitVec 3 => scripted [.roll 5, .field 3 x.1, .field 3 x.2]) Set.univ
      (some '' {w | w.mnemonic? = some "mcrf" ∧ w &&& 0x0063ffff = 0}) ∧
    (∀ s : Sample, ∀ answers ∈ s.scripts, ∀ case : Fin 8, answers.head? = some (.roll case) →
      (case ≤ 5 → ∃ kind, s.kind? = some kind ∧
        identify s.word = (Identification.plain s.word).classified kind ∧
        (identify s.word).unrecognized = false) ∧
      (case = 6 → s.word.primaryOpcode = 19)) ∧
    ∀ r ∈ Rule.table, ∀ w : Word, r.accepts w = true → ∃ s : Sample, ∃ answers ∈ s.scripts,
      s.kind? = some r.kind ∧ scripted answers = some (r.format.rebuild w) ∧
        r.accepts (r.format.rebuild w) = true := by
  have drawn (γ : Type) [Dice (StateM γ)] (g : γ) : ∃ answers,
      Yields g answers ((draw : StateM γ Sample).run g).2 ∧
        scripted answers = some ((draw : StateM γ Sample).run g).1.word := by
    obtain ⟨answers, yields, listed⟩ := exists_script g
    exact ⟨answers, yields, scripted_of_mem listed⟩
  have given (g : Generator) : ∃ answers w next, Yields g answers next ∧ scripted answers = some w ∧
      WordSource.next (Source.random g) = (some w, .random next) := by
    obtain ⟨answers, yields, scripted⟩ := drawn Generator g
    exact ⟨answers, _, _, yields, scripted, rfl⟩
  refine ⟨drawn, given, fun _ _ => scripted_eq_some_iff,
    scripted_bijOn branch_bijOn fun _ => List.mem_singleton_self _,
    scripted_bijOn conditional_bijOn fun _ => List.mem_singleton_self _,
    scripted_bijOn toRegister_bijOn fun _ => List.mem_singleton_self _, ?_,
    scripted_bijOn move_bijOn fun _ => List.mem_singleton_self _, ?_, ?_⟩
  · rintro case (rfl | rfl)
    · exact scripted_bijOn logical_bijOn fun _ => List.mem_cons_self
    · exact scripted_bijOn logical_bijOn fun _ => List.mem_cons_of_mem _ List.mem_cons_self
  · intro s answers listed case first
    refine ⟨fun early => ?_, ?_⟩
    · obtain ⟨kind, meant⟩ := exists_kind_of_roll listed first early
      refine ⟨kind, meant, identify_word meant, ?_⟩
      rw [identify_word meant]
      cases kind <;> rfl
    · rintro rfl
      exact primaryOpcode_of_roll listed first
  · intro r listed w accepted
    have found := Rule.find?_of_accepts listed accepted
    obtain ⟨meant, built⟩ := ofFormat_of_find? found
    obtain ⟨r', found', same⟩ := exists_rule meant
    obtain rfl := Rule.eq_of_kind (Rule.listed_of_find? found') listed same
    obtain ⟨answers, script⟩ := exists_mem_scripts (ofFormat r'.format w)
    rw [← built]
    exact ⟨_, answers, script, meant, scripted_of_mem script, Rule.accepts_of_find? found'⟩

/-- A branch to the count register with one of its bits without a meaning set: no draw gives that word, and
just one gives the same branch without the bit. -/
theorem covered_of_reserved_bit :
    (∃ x : Fin 3 × BitVec 5 × BitVec 5 × BitVec 2 × Bool,
      scripted [.roll 2, .pick 3 x.1, .field 5 x.2.1, .field 5 x.2.2.1, .field 2 x.2.2.2.1,
        .flag x.2.2.2.2] = some 0x4ce41421) ∧
    (∀ x : Fin 3 × BitVec 5 × BitVec 5 × BitVec 2 × Bool,
      scripted [.roll 2, .pick 3 x.1, .field 5 x.2.1, .field 5 x.2.2.1, .field 2 x.2.2.2.1,
        .flag x.2.2.2.2] ≠ some 0x4ce43421) ∧
    (∃ s : Sample, ∃ answers ∈ s.scripts, s.kind? = some (.branch .bForm (some .ctr)) ∧
      scripted answers = some 0x4ce41421) ∧
    (∃ kind, (move 7 1).kind? = some kind ∧
      identify (move 7 1).word = (Identification.plain (move 7 1).word).classified kind) ∧
    (opcode19 3 1).word.primaryOpcode = 19 := by
  obtain ⟨_, _, _, _, _, registered, _, _, meant, covered⟩ := samples_cover_encodings
  refine ⟨?_, fun x same => ?_, ?_, ?_, ?_⟩
  · obtain ⟨x, _, drawn⟩ := registered.surjOn (a := some 0x4ce41421) ⟨_, by decide, rfl⟩
    exact ⟨x, drawn⟩
  · obtain ⟨w, ⟨_, clear⟩, drawn⟩ := registered.mapsTo (Set.mem_univ x)
    obtain rfl := Option.some.inj (drawn.trans same)
    exact absurd clear (by decide)
  · obtain ⟨s, answers, listed, kind, drawn, _⟩ :=
      covered (.extended "bcctr" 528 (.branch .bForm (some .ctr))) (by decide) 0x4ce43421 (by decide)
    exact ⟨s, answers, listed, kind, drawn⟩
  · obtain ⟨kind, same, identified, _⟩ :=
      (meant (move 7 1) _ (List.mem_singleton_self _) 5 rfl).1 (by decide)
    exact ⟨kind, same, identified⟩
  · exact (meant (opcode19 3 1) _ (List.mem_singleton_self _) 6 rfl).2 rfl

end Sample

end IdentifyBench

import IdentifyBench.Proofs.Layout
import IdentifyBench.Proofs.Reading
import Mathlib.Data.List.Perm.Basic

/-! What a word is, by its opcodes alone. The rules are disjoint, so the table may be searched in any
order; the primary opcode decides outside the group of opcode 19, the extended opcode within it, and no
other bit of a word matters. -/
namespace IdentifyBench

/-- The part of an answer that says what a word is, without the slices of the word. -/
structure Verdict where
  branch : Bool
  form : Option BranchForm
  target : Option TargetRegister
  condition : Bool
  op : Option ConditionOp
  deriving DecidableEq, Repr

namespace Verdict

def unrecognized : Verdict := ⟨false, none, none, false, none⟩

def ofBranch (form : BranchForm) (target : Option TargetRegister) : Verdict :=
  ⟨true, some form, target, false, none⟩

def ofCondition (op : ConditionOp) : Verdict := ⟨false, none, none, true, some op⟩

def ofExtended : Nat → Verdict
  | 16 => ofBranch .bForm (some .lr)
  | 528 => ofBranch .bForm (some .ctr)
  | 560 => ofBranch .bForm (some .tar)
  | 257 => ofCondition .crand
  | 225 => ofCondition .crnand
  | 449 => ofCondition .cror
  | 193 => ofCondition .crxor
  | 33 => ofCondition .crnor
  | 289 => ofCondition .creqv
  | 129 => ofCondition .crandc
  | 417 => ofCondition .crorc
  | 0 => ofCondition .mcrf
  | _ => unrecognized

/-- The classification as the instruction set has it, by opcode numbers. -/
def ofOpcodes (primary extended : Nat) : Verdict :=
  match primary with
  | 18 => ofBranch .iForm none
  | 16 => ofBranch .bForm none
  | 19 => ofExtended extended
  | _ => unrecognized

theorem ofOpcodes_outside_group {primary : Nat} (outside : primary ≠ 19) (x y : Nat) :
    ofOpcodes primary x = ofOpcodes primary y := by
  unfold ofOpcodes
  split
  · rfl
  · rfl
  · exact absurd rfl outside
  · rfl

end Verdict

def Identification.verdict (d : Identification) : Verdict :=
  ⟨d.branch, d.form, d.target, d.condition, d.op⟩

namespace Word

theorem primaryOpcode_toNat (w : Word) : w.primaryOpcode.toNat = w.toNat / 2 ^ 26 := by
  have bound := w.isLt
  rw [primaryOpcode, BitVec.extractLsb'_toNat, Nat.shiftRight_eq_div_pow]
  omega

theorem extendedOpcode_toNat (w : Word) : w.extendedOpcode.toNat = w.toNat / 2 % 2 ^ 10 := by
  rw [extendedOpcode, BitVec.extractLsb'_toNat, Nat.shiftRight_eq_div_pow, Nat.pow_one]

theorem and_relevantBits (w : Word) :
    w &&& Rule.relevantBits = groupRow w.primaryOpcode 0#5 0#5 0#5 w.extendedOpcode false := by
  have mask : Rule.relevantBits =
      groupRow (BitVec.allOnes 6) 0#5 0#5 0#5 (BitVec.allOnes 10) false := by decide
  conv_lhs => rw [mask, ← groupRow_fields w]
  rw [groupRow_and]
  simp only [BitVec.and_allOnes, BitVec.and_zero, Bool.and_false]

theorem and_primaryMask (w : Word) : w &&& 0xfc000000 = w.primaryOpcode ++ 0#26 := by
  have whole : w.extractLsb' 26 6 ++ w.extractLsb' 0 26 = w.extractLsb' 0 32 := slices w 0 26 6
  have mask : (0xfc000000 : Word) = BitVec.allOnes 6 ++ 0#26 := by decide
  calc
    w &&& 0xfc000000 = (w.extractLsb' 26 6 ++ w.extractLsb' 0 26) &&& (BitVec.allOnes 6 ++ 0#26) := by
      rw [whole, BitVec.extractLsb'_eq_self, mask]
    _ = (w.extractLsb' 26 6 &&& BitVec.allOnes 6) ++ (w.extractLsb' 0 26 &&& 0#26) :=
      BitVec.and_append
    _ = w.primaryOpcode ++ 0#26 := by rw [BitVec.and_allOnes, BitVec.and_zero, primaryOpcode]

theorem primaryOpcode_append (opcode : BitVec 6) (rest : BitVec 26) :
    primaryOpcode (opcode ++ rest) = opcode := by
  unfold primaryOpcode
  simp (disch := omega) only [BitVec.extractLsb'_append_eq_of_le]
  exact BitVec.extractLsb'_eq_self

/-- Bits outside a mask do not show through it. -/
theorem and_of_noise (w noise mask : Word) : (w ^^^ (noise &&& ~~~mask)) &&& mask = w &&& mask := by
  ext i inside
  simp only [BitVec.getElem_and, BitVec.getElem_xor, BitVec.getElem_not]
  cases mask[i] <;> simp

end Word

namespace Rule

theorem accepts_primary (mnemonic : String) (opcode : BitVec 6) (kind : InstructionClass)
    (w : Word) :
    (primary mnemonic opcode kind).accepts w = true ↔ w.primaryOpcode = opcode := by
  unfold accepts primary
  rw [beq_iff_eq, Word.and_primaryMask]
  constructor
  · intro same
    have primary := congrArg Word.primaryOpcode same
    simpa only [Word.primaryOpcode_append] using primary
  · intro same
    rw [same]

theorem accepts_extended (mnemonic : String) (opcode : BitVec 10) (kind : InstructionClass)
    (w : Word) :
    (extended mnemonic opcode kind).accepts w = true ↔
      w.primaryOpcode = 19 ∧ w.extendedOpcode = opcode := by
  have pattern : (extended mnemonic opcode kind).pattern =
      Word.groupRow 19 0#5 0#5 0#5 opcode false := rfl
  unfold accepts
  rw [beq_iff_eq, pattern, show (extended mnemonic opcode kind).mask = relevantBits from rfl,
    Word.and_relevantBits]
  constructor
  · intro same
    have primary := congrArg Word.primaryOpcode same
    have extended := congrArg Word.extendedOpcode same
    simp only [Word.primaryOpcode_groupRow, Word.extendedOpcode_groupRow] at primary extended
    exact ⟨primary, extended⟩
  · rintro ⟨primary, extended⟩
    rw [primary, extended]

theorem listed_of_find? {r : Rule} {w : Word} (found : find? w = some r) : r ∈ table :=
  List.mem_of_find?_eq_some found

theorem accepts_of_find? {r : Rule} {w : Word} (found : find? w = some r) : r.accepts w = true := by
  unfold find? at found
  exact (List.find?_eq_some_iff_append.mp found).1

/-- No word has what both rules ask of it. -/
def Disjoint (r s : Rule) : Prop := r.pattern &&& s.mask ≠ s.pattern &&& r.mask

instance (r s : Rule) : Decidable (r.Disjoint s) := by
  unfold Disjoint; infer_instance

theorem Disjoint.not_both {r s : Rule} (disjoint : r.Disjoint s) (w : Word) :
    ¬(r.accepts w = true ∧ s.accepts w = true) := by
  rintro ⟨left, right⟩
  apply disjoint
  unfold accepts at left right
  rw [← beq_iff_eq.mp left, ← beq_iff_eq.mp right, BitVec.and_assoc, BitVec.and_assoc,
    BitVec.and_comm s.mask]

theorem table_disjoint : table.Pairwise Disjoint := by decide

def accepting (w : Word) : List Rule := table.filter fun r => r.accepts w

theorem length_accepting (w : Word) : (accepting w).length ≤ 1 := by
  have apart : (accepting w).Pairwise Disjoint := table_disjoint.filter _
  have accepted (r : Rule) (listed : r ∈ accepting w) : r.accepts w = true :=
    (List.mem_filter.mp listed).2
  cases listing : accepting w with
  | nil => exact Nat.zero_le 1
  | cons r rest =>
    cases rest with
    | nil => exact Nat.le_refl 1
    | cons s rest =>
      rw [listing] at apart accepted
      have disjoint : r.Disjoint s := List.rel_of_pairwise_cons apart (.head _)
      exact absurd ⟨accepted r (.head _), accepted s (.tail _ (.head _))⟩ (disjoint.not_both w)

theorem find?_of_perm {order : List Rule} (permuted : order.Perm table) (w : Word) :
    order.find? (·.accepts w) = find? w := by
  have filtered : (order.filter (·.accepts w)).Perm (accepting w) := permuted.filter _
  have few := length_accepting w
  rw [find?, ← List.head?_filter, ← List.head?_filter]
  change _ = (accepting w).head?
  -- A list of at most one rule has only one order.
  cases listing : accepting w with
  | nil =>
    rw [listing] at filtered
    rw [filtered.eq_nil]
  | cons r rest =>
    cases rest with
    | nil =>
      rw [listing] at filtered
      rw [List.perm_singleton.mp filtered]
    | cons s rest =>
      rw [listing] at few
      exact absurd few (by simp)

/-- The bits a rule asks for are those of the primary opcode and, in the group of opcode 19, of the
extended opcode. -/
theorem accepts_iff {r : Rule} (listed : r ∈ table) (w : Word) :
    r.accepts w = true ↔ w.primaryOpcode = r.pattern.primaryOpcode ∧
      (r.pattern.primaryOpcode = 19 → w.extendedOpcode = r.pattern.extendedOpcode) := by
  have shape : (∃ mnemonic opcode kind, opcode ≠ 19 ∧ r = primary mnemonic opcode kind) ∨
      ∃ mnemonic opcode kind, r = extended mnemonic opcode kind := by
    unfold table at listed
    simp only [List.mem_cons, List.not_mem_nil, or_false] at listed
    rcases listed with rfl | rfl | inGroup
    · exact .inl ⟨_, _, _, by decide, rfl⟩
    · exact .inl ⟨_, _, _, by decide, rfl⟩
    · rcases inGroup with rfl | rfl | rfl | rfl | rfl | rfl | rfl | rfl | rfl | rfl | rfl | rfl <;>
        exact .inr ⟨_, _, _, rfl⟩
  rcases shape with ⟨mnemonic, opcode, kind, outside, rfl⟩ | ⟨mnemonic, opcode, kind, rfl⟩
  · rw [accepts_primary]
    have own : (primary mnemonic opcode kind).pattern.primaryOpcode = opcode :=
      Word.primaryOpcode_append opcode 0#26
    rw [own]
    exact ⟨fun same => ⟨same, fun inGroup => absurd inGroup outside⟩, And.left⟩
  · rw [accepts_extended]
    have own : (extended mnemonic opcode kind).pattern =
        Word.groupRow 19 0#5 0#5 0#5 opcode false := rfl
    rw [own, Word.primaryOpcode_groupRow, Word.extendedOpcode_groupRow]
    exact ⟨fun ⟨primary, same⟩ => ⟨primary, fun _ => same⟩, fun ⟨primary, same⟩ => ⟨primary, same rfl⟩⟩

def verdict (r : Rule) : Verdict := ((Identification.neutral).classified r.kind).verdict

theorem verdict_eq {r : Rule} (listed : r ∈ table) :
    r.verdict =
      Verdict.ofOpcodes r.pattern.primaryOpcode.toNat r.pattern.extendedOpcode.toNat := by
  revert r
  decide

theorem verdict_of_accepts {r : Rule} (listed : r ∈ table) {w : Word} (accepted : r.accepts w = true) :
    r.verdict = Verdict.ofOpcodes w.primaryOpcode.toNat w.extendedOpcode.toNat := by
  obtain ⟨primary, extended⟩ := (accepts_iff listed w).mp accepted
  rw [verdict_eq listed, ← primary]
  by_cases inGroup : w.primaryOpcode = 19
  · rw [extended (primary.symm.trans inGroup)]
  · exact Verdict.ofOpcodes_outside_group (fun same => inGroup (BitVec.eq_of_toNat_eq same)) _ _

theorem exists_extended {opcode : BitVec 10}
    (named : Verdict.ofExtended opcode.toNat ≠ .unrecognized) :
    ∃ r ∈ table, r.pattern.primaryOpcode = 19 ∧ r.pattern.extendedOpcode = opcode := by
  have known (n : BitVec 10) (same : opcode.toNat = n.toNat)
      (has : ∃ r ∈ table, r.pattern.primaryOpcode = 19 ∧ r.pattern.extendedOpcode = n) :
      ∃ r ∈ table, r.pattern.primaryOpcode = 19 ∧ r.pattern.extendedOpcode = opcode :=
    BitVec.eq_of_toNat_eq same ▸ has
  unfold Verdict.ofExtended at named
  split at named
  · exact known 16 ‹_› (by decide)
  · exact known 528 ‹_› (by decide)
  · exact known 560 ‹_› (by decide)
  · exact known 257 ‹_› (by decide)
  · exact known 225 ‹_› (by decide)
  · exact known 449 ‹_› (by decide)
  · exact known 193 ‹_› (by decide)
  · exact known 33 ‹_› (by decide)
  · exact known 289 ‹_› (by decide)
  · exact known 129 ‹_› (by decide)
  · exact known 417 ‹_› (by decide)
  · exact known 0 ‹_› (by decide)
  · exact absurd rfl named

theorem exists_accepting {w : Word}
    (named : Verdict.ofOpcodes w.primaryOpcode.toNat w.extendedOpcode.toNat ≠ .unrecognized) :
    ∃ r ∈ table, r.accepts w = true := by
  unfold Verdict.ofOpcodes at named
  split at named
  · rename_i unconditional
    have same : w.primaryOpcode = 18 := BitVec.eq_of_toNat_eq unconditional
    exact ⟨_, .head _, (accepts_primary _ _ _ w).mpr same⟩
  · rename_i conditional
    have same : w.primaryOpcode = 16 := BitVec.eq_of_toNat_eq conditional
    exact ⟨_, .tail _ (.head _), (accepts_primary _ _ _ w).mpr same⟩
  · rename_i inGroup
    have same : w.primaryOpcode = 19 := BitVec.eq_of_toNat_eq inGroup
    obtain ⟨r, listed, primary, extended⟩ := exists_extended named
    exact ⟨r, listed, (accepts_iff listed w).mpr ⟨same.trans primary.symm, fun _ => extended.symm⟩⟩
  · exact absurd rfl named

end Rule

theorem verdict_classified (w : Word) (kind : InstructionClass) :
    ((Identification.plain w).classified kind).verdict =
      (Identification.neutral.classified kind).verdict := by
  cases kind <;> rfl

theorem verdict_identify (w : Word) :
    (identify w).verdict = Verdict.ofOpcodes w.primaryOpcode.toNat w.extendedOpcode.toNat := by
  unfold identify
  split
  · rename_i missing
    by_contra differs
    obtain ⟨r, listed, accepted⟩ := Rule.exists_accepting fun missing => differs missing.symm
    exact List.find?_eq_none.mp missing r listed accepted
  · rename_i rule found
    rw [verdict_classified]
    exact Rule.verdict_of_accepts (Rule.listed_of_find? found) (Rule.accepts_of_find? found)

theorem slices_identify (w : Word) :
    (identify w).opcode = w.primaryOpcode.setWidth 32 ∧ (identify w).word = w ∧
      (identify w).prefixed = (w.primaryOpcode == 1) := by
  unfold identify
  split
  · exact ⟨rfl, rfl, rfl⟩
  · rename_i rule found
    cases rule.kind <;> exact ⟨rfl, rfl, rfl⟩

theorem verdict_of_opcodes {v w : Word} (primary : v.primaryOpcode = w.primaryOpcode)
    (extended : v.extendedOpcode = w.extendedOpcode) : (identify v).verdict = (identify w).verdict := by
  rw [verdict_identify, verdict_identify, primary, extended]

/-- At most one rule accepts a word, so the rules may be tried in any order. The answer is what the
primary opcode and, under opcode 19 only, the extended opcode say; no other bit changes it. A word is
never both a branch and a condition register operation, every branch has a form, and the slices of the
word stand in every answer. -/
theorem identify_classifies (w : Word) :
    Rule.table.countP (·.accepts w) ≤ 1 ∧
    (∀ order : List Rule, order.Perm Rule.table → order.find? (·.accepts w) = Rule.find? w) ∧
    (identify w).verdict = Verdict.ofOpcodes (w.toNat / 2 ^ 26) (w.toNat / 2 % 2 ^ 10) ∧
    (∀ noise : Word,
      (identify (w ^^^ (noise &&& ~~~Rule.relevantBits))).verdict = (identify w).verdict) ∧
    (w.toNat / 2 ^ 26 ≠ 19 → ∀ noise : Word,
      (identify (w ^^^ (noise &&& ~~~0xfc000000))).verdict = (identify w).verdict) ∧
    ¬((identify w).branch = true ∧ (identify w).condition = true) ∧
    (identify w).Consistent ∧
    ((identify w).branch = true → (identify w).form.isSome = true) ∧
    (identify w).opcode.toNat = w.toNat / 2 ^ 26 ∧
    (identify w).word = w ∧
    (identify w).prefixed = decide (w.toNat / 2 ^ 26 = 1) := by
  have consistent := identify_consistent w
  obtain ⟨opcode, word, prefixed⟩ := slices_identify w
  refine ⟨?_, fun order permuted => Rule.find?_of_perm permuted w, ?_, fun noise => ?_,
    fun outside noise => ?_, consistent.2.2.2, consistent, fun branch => consistent.1 ▸ branch, ?_,
    word, ?_⟩
  · rw [List.countP_eq_length_filter]
    exact Rule.length_accepting w
  · rw [verdict_identify, Word.primaryOpcode_toNat, Word.extendedOpcode_toNat]
  · have masked := Word.and_of_noise w noise Rule.relevantBits
    rw [Word.and_relevantBits, Word.and_relevantBits] at masked
    have primary := congrArg Word.primaryOpcode masked
    have extended := congrArg Word.extendedOpcode masked
    simp only [Word.primaryOpcode_groupRow, Word.extendedOpcode_groupRow] at primary extended
    exact verdict_of_opcodes primary extended
  · have masked := Word.and_of_noise w noise 0xfc000000
    rw [Word.and_primaryMask, Word.and_primaryMask] at masked
    have primary := congrArg Word.primaryOpcode masked
    simp only [Word.primaryOpcode_append] at primary
    rw [verdict_identify, verdict_identify, primary]
    exact Verdict.ofOpcodes_outside_group (Word.primaryOpcode_toNat w ▸ outside) _ _
  · rw [opcode, BitVec.toNat_setWidth_of_le (by omega), Word.primaryOpcode_toNat]
  · rw [prefixed, ← Word.primaryOpcode_toNat, Bool.beq_eq_decide_eq]
    exact decide_eq_decide.mpr (BitVec.toNat_inj (y := 1)).symm

/-- A branch is found in the reversed table too, and none of its low 26 bits makes it anything else. -/
theorem classifies_of_branch :
    Rule.table.reverse.find? (·.accepts 0x48032bfb) = Rule.find? 0x48032bfb ∧
    (∀ noise : Word, (identify (0x48032bfb ^^^ (noise &&& ~~~0xfc000000))).verdict =
      Verdict.ofBranch .iForm none) ∧
    (identify 0x48032bfb).form.isSome = true := by
  obtain ⟨_, anyOrder, _, _, outside, _, _, formed, _⟩ := identify_classifies 0x48032bfb
  refine ⟨anyOrder _ (List.reverse_perm _), fun noise => ?_, formed (by decide)⟩
  rw [outside (by decide) noise]
  decide

end IdentifyBench

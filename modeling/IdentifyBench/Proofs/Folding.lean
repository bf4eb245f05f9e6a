import IdentifyBench.Proofs.Classification

/-! Flags folded back. The flags of a consistent identification are read as that identification, on the
output lines as in the record, and no other flags are read at all. Every word's flags are among them, but not
only those: a prefix flag beside a recognized instruction is read too, and no word has both. -/
namespace IdentifyBench

namespace Flags

theorem form?_eq_some_iff (f : Flags) (form : Option BranchForm) :
    f.form? = some form ↔ (form == some .iForm) = f.iForm ∧ (form == some .bForm) = f.bForm := by
  unfold form?
  cases f.iForm <;> cases f.bForm <;> rcases form with _ | _ | _ <;> simp

theorem target?_eq_some_iff (f : Flags) (target : Option TargetRegister) :
    f.target? = some target ↔ (target == some .lr) = f.lr ∧ (target == some .ctr) = f.ctr ∧
      (target == some .tar) = f.tar := by
  unfold target?
  cases f.lr <;> cases f.ctr <;> cases f.tar <;> rcases target with _ | _ | _ | _ <;> simp

theorem op?_eq_some_iff (f : Flags) (op : Option ConditionOp) :
    f.op? = some op ↔ (fun o => op == some o) = f.ops := by
  constructor
  · intro read
    have high (o : ConditionOp) : f.ops o = true ↔ o ∈ ConditionOp.all.filter f.ops := by
      simp [ConditionOp.mem_all]
    funext o
    rw [Bool.eq_iff_iff, high]
    unfold op? at read
    split at read
    · rename_i low
      cases read
      simp [low]
    · rename_i one single
      cases read
      rw [single, List.mem_singleton, beq_iff_eq, Option.some_inj, eq_comm]
    · cases read
  · intro same
    unfold op?
    rw [← same]
    rcases op with _ | op
    · rfl
    · cases op <;> rfl

/-- Reading flags is the inverse of giving them, on consistent identifications and nowhere else. -/
theorem identification?_eq_some_iff (f : Flags) (opcode word : Word) (d : Identification) :
    f.identification? opcode word = some d ↔
      d.flags = f ∧ d.Consistent ∧ d.opcode = opcode ∧ d.word = word := by
  constructor
  · intro read
    obtain ⟨form, formed, read⟩ := Option.bind_eq_some_iff.mp read
    obtain ⟨target, targeted, read⟩ := Option.bind_eq_some_iff.mp read
    obtain ⟨op, operated, read⟩ := Option.bind_eq_some_iff.mp read
    dsimp only at read
    split at read
    · rename_i consistent
      cases read
      obtain ⟨iForm, bForm⟩ := (form?_eq_some_iff f form).mp formed
      obtain ⟨lr, ctr, tar⟩ := (target?_eq_some_iff f target).mp targeted
      have ops := (op?_eq_some_iff f op).mp operated
      refine ⟨?_, consistent, rfl, rfl⟩
      unfold Identification.flags
      simp only [iForm, bForm, lr, ctr, tar, ops]
    · cases read
  · rintro ⟨rfl, consistent, rfl, rfl⟩
    exact consistent.identification?_flags

theorem isSome_identification?_iff (f : Flags) (opcode word : Word) :
    (f.identification? opcode word).isSome = true ↔
      ∃ d : Identification, d.Consistent ∧ d.flags = f := by
  rw [Option.isSome_iff_exists]
  constructor
  · rintro ⟨d, read⟩
    obtain ⟨same, consistent, _⟩ := (identification?_eq_some_iff f opcode word d).mp read
    exact ⟨d, consistent, same⟩
  · rintro ⟨d, consistent, same⟩
    exact ⟨{ d with opcode, word }, (identification?_eq_some_iff _ _ _ _).mpr ⟨same, consistent, rfl, rfl⟩⟩

end Flags

theorem Identification.eq_of_flags {d e : Identification} (flags : d.flags = e.flags)
    (opcode : d.opcode = e.opcode) (word : d.word = e.word) : d = e := by
  have form : some d.form = some e.form := by
    rw [← Flags.form?_flags, ← Flags.form?_flags, flags]
  have target : some d.target = some e.target := by
    rw [← Flags.target?_flags, ← Flags.target?_flags, flags]
  have op : some d.op = some e.op := by
    rw [← Flags.op?_flags, ← Flags.op?_flags, flags]
  have branch : d.branch = e.branch := congrArg Flags.branch flags
  have condition : d.condition = e.condition := congrArg Flags.condition flags
  have prefixed : d.prefixed = e.prefixed := congrArg Flags.prefixed flags
  cases d
  simp_all

namespace Bus

theorem Carries.unique {b : Bus} {o o' : StageOutputs} (carries : b.Carries o)
    (carries' : b.Carries o') : o = o' := by
  have flags : o.identified.flags = o'.identified.flags :=
    (flags_of_carries carries).symm.trans (flags_of_carries carries')
  have opcode : o.identified.opcode = o'.identified.opcode :=
    (carries .opcodeOut _ rfl).symm.trans (carries' .opcodeOut _ rfl)
  have word : o.identified.word = o'.identified.word :=
    (carries .wordOut _ rfl).symm.trans (carries' .wordOut _ rfl)
  have stall : o.stall = o'.stall := (carries .stall _ rfl).symm.trans (carries' .stall _ rfl)
  have identified := Identification.eq_of_flags flags opcode word
  cases o
  simp_all

theorem identification?_eq_some_iff {b : Bus} {d : Identification} {stall : Bool}
    (carries : b.Carries ⟨d, stall⟩) : b.identification? = some d ↔ d.Consistent := by
  constructor
  · intro read
    exact ((Flags.identification?_eq_some_iff _ _ _ _).mp read).2.1
  · intro consistent
    exact identification?_of_carries carries consistent

/-- Nothing is lost on the way over the lines, whatever was on them or was to come there. What is driven and
committed is read back just if it is consistent, and the stall line has its value. Flags with slices of a word
are read as the one consistent identification that gives them, if there is one. Outputs that leave the same
levels on the output lines are the same. -/
theorem outputs_fold_back :
    (∀ (b : Bus) (d : Identification) (stall : Bool),
      let after := (b.drive ⟨d, stall⟩).commit.1
      (after.identification? = some d ↔ d.Consistent) ∧ after.level .stall = stall) ∧
    (∀ d : Identification, d.flags.identification? d.opcode d.word = some d ↔ d.Consistent) ∧
    (∀ (f : Flags) (opcode word : Word) (d : Identification),
      f.identification? opcode word = some d ↔
        d.flags = f ∧ d.Consistent ∧ d.opcode = opcode ∧ d.word = word) ∧
    ∀ (b b' : Bus) (o o' : StageOutputs),
      (∀ l, o.on l ≠ none → (b.drive o).commit.1.level l = (b'.drive o').commit.1.level l) → o = o' := by
  refine ⟨?_, ?_, Flags.identification?_eq_some_iff, ?_⟩
  · intro b d stall
    have carries := (promises_drive b ⟨d, stall⟩).commit
    exact ⟨identification?_eq_some_iff carries, carries .stall _ rfl⟩
  · intro d
    rw [Flags.identification?_eq_some_iff]
    simp
  · intro b b' o o' same
    have carries := (promises_drive b o).commit
    have carries' := (promises_drive b' o').commit
    refine carries.unique fun l value driven => ?_
    have output : o.on l ≠ none := by
      intro input
      rw [StageOutputs.on_eq_none_iff, ← o'.on_eq_none_iff, driven] at input
      cases input
    rw [same l output]
    exact carries' l value driven

/-- A branch back to the link register, driven over lines that carry another word's outputs and await a
third's, and told apart from the same outputs without a stall. -/
theorem outputs_fold_back_of_return :
    let busy := ((idle.drive ⟨identify 0x4c000242, false⟩).commit.1.drive ⟨identify 0x48000001, false⟩)
    let after := (busy.drive ⟨identify 0x4e800020, true⟩).commit.1
    after.identification? = some (identify 0x4e800020) ∧ after.level .stall = true ∧
      ¬∀ l, StageOutputs.on ⟨identify 0x4e800020, true⟩ l ≠ none →
        after.level l = (idle.drive ⟨identify 0x4e800020, false⟩).commit.1.level l := by
  intro busy after
  obtain ⟨folds, _, _, apart⟩ := outputs_fold_back
  obtain ⟨read, stall⟩ := folds busy (identify 0x4e800020) true
  refine ⟨read.mpr (identify_consistent _), stall, fun same => ?_⟩
  have equal := congrArg StageOutputs.stall (apart busy idle _ _ same)
  cases equal

end Bus

theorem Identification.flags_of_verdict {d e : Identification} (same : d.verdict = e.verdict)
    (prefixed : d.prefixed = e.prefixed) : d.flags = e.flags := by
  simp only [verdict, Verdict.mk.injEq] at same
  simp [flags, same, prefixed]

theorem Identification.Consistent.exists_rule {d : Identification} (consistent : d.Consistent)
    (recognized : d.unrecognized = false) : ∃ r ∈ Rule.table, r.verdict = d.verdict := by
  have branches (target : Option TargetRegister) (form : BranchForm)
      (allowed : target.isSome = true → some form = some .bForm) :
      ∃ r ∈ Rule.table, r.verdict = .ofBranch form target := by
    rcases target with _ | _ | _ | _ <;> cases form <;> simp at allowed <;> decide
  have conditions (op : ConditionOp) : ∃ r ∈ Rule.table, r.verdict = .ofCondition op := by
    cases op <;> decide
  obtain ⟨branch, target, condition, single⟩ := consistent
  rcases d with ⟨isBranch, form, register, isCondition, op, _, _, _⟩
  cases form with
  | some form =>
    cases op with
    | some op => simp_all
    | none =>
      obtain ⟨r, listed, same⟩ := branches register form target
      exact ⟨r, listed, by simp_all [verdict, Verdict.ofBranch]⟩
  | none =>
    cases op with
    | none => simp_all [unrecognized]
    | some op =>
      obtain ⟨r, listed, same⟩ := conditions op
      exact ⟨r, listed, by simp_all [verdict, Verdict.ofCondition]⟩

theorem Rule.identify_pattern {r : Rule} (listed : r ∈ table) :
    (identify r.pattern).verdict = r.verdict ∧ (identify r.pattern).prefixed = false := by
  have unprefixed : ∀ r ∈ table, (r.pattern.primaryOpcode == 1) = false := by decide
  obtain ⟨_, _, prefixed⟩ := slices_identify r.pattern
  exact ⟨by rw [verdict_identify, verdict_eq listed], prefixed.trans (unprefixed r listed)⟩

theorem unrecognized_of_prefixed {w : Word} (prefixed : (identify w).prefixed = true) :
    (identify w).verdict = .unrecognized := by
  rw [(slices_identify w).2.2, beq_iff_eq] at prefixed
  rw [verdict_identify, prefixed]
  rfl

namespace Flags

/-- The flags of a consistent identification are those of a word, unless the prefix flag stands beside a
recognized instruction. -/
theorem exists_word_iff {d : Identification} (consistent : d.Consistent) :
    (∃ w, (identify w).flags = d.flags) ↔ (d.prefixed = true → d.unrecognized = true) := by
  constructor
  · rintro ⟨w, same⟩ prefixed
    have raised : (identify w).prefixed = true := (congrArg Flags.prefixed same).trans prefixed
    have plain := unrecognized_of_prefixed raised
    have branch : (identify w).branch = d.branch := congrArg Flags.branch same
    have condition : (identify w).condition = d.condition := congrArg Flags.condition same
    have noBranch : (identify w).branch = false := congrArg Verdict.branch plain
    have noCondition : (identify w).condition = false := congrArg Verdict.condition plain
    simp [Identification.unrecognized, ← branch, ← condition, noBranch, noCondition]
  · intro alone
    cases recognized : d.unrecognized with
    | false =>
      obtain ⟨r, listed, same⟩ := consistent.exists_rule recognized
      obtain ⟨verdict, plain⟩ := Rule.identify_pattern listed
      have unprefixed : d.prefixed = false := by simpa [recognized] using alone
      exact ⟨r.pattern, Identification.flags_of_verdict (verdict.trans same)
        (plain.trans unprefixed.symm)⟩
    | true =>
      have unknown : d.verdict = .unrecognized := by
        obtain ⟨branch, target, condition, _⟩ := consistent
        rcases d with ⟨_, _ | _, _ | _, _, _ | _, _, _, _⟩ <;>
          simp_all [Identification.unrecognized, Identification.verdict, Verdict.unrecognized]
      cases prefixed : d.prefixed with
      | false => exact ⟨0, Identification.flags_of_verdict (.trans (by decide) unknown.symm) prefixed.symm⟩
      | true =>
        exact ⟨0x04000000, Identification.flags_of_verdict (.trans (by decide) unknown.symm) prefixed.symm⟩

theorem unrecognized_iff_flags {f : Flags} {d : Identification} (same : d.flags = f) :
    d.unrecognized = true ↔ f.branch = false ∧ f.condition = false := by
  subst same
  simp [Identification.unrecognized, Identification.flags]

/-- Flags are read if they are those of a word, and else just if they are those of a recognized word with the
prefix flag raised beside them, which no word has. -/
theorem readable_iff_producible (f : Flags) (opcode word : Word) :
    ((f.identification? opcode word).isSome = true ↔
      (∃ w, (identify w).flags = f) ∨
        ∃ w, (identify w).unrecognized = false ∧ { (identify w).flags with prefixed := true } = f) ∧
    ((∃ w, (identify w).flags = f) ↔ (f.identification? opcode word).isSome = true ∧
      (f.prefixed = true → f.branch = false ∧ f.condition = false)) := by
  rw [isSome_identification?_iff]
  refine ⟨⟨?_, ?_⟩, ⟨?_, ?_⟩⟩
  · rintro ⟨d, consistent, rfl⟩
    by_cases alone : d.prefixed = true → d.unrecognized = true
    · exact .inl ((exists_word_iff consistent).mpr alone)
    · simp only [Classical.not_imp, Bool.not_eq_true] at alone
      obtain ⟨prefixed, recognized⟩ := alone
      have lowered : ({ d with prefixed := false } : Identification).Consistent := consistent
      obtain ⟨w, same⟩ := (exists_word_iff lowered).mpr (by simp)
      refine .inr ⟨w, ?_, ?_⟩
      · rw [Bool.eq_false_iff, ne_eq, unrecognized_iff_flags same, ← unrecognized_iff_flags rfl]
        exact Bool.eq_false_iff.mp recognized
      · rw [same]
        simp [Identification.flags, prefixed]
  · rintro (⟨w, rfl⟩ | ⟨w, _, rfl⟩)
    · exact ⟨identify w, identify_consistent w, rfl⟩
    · exact ⟨{ identify w with prefixed := true }, identify_consistent w, rfl⟩
  · rintro ⟨w, rfl⟩
    have consistent := identify_consistent w
    refine ⟨⟨identify w, consistent, rfl⟩, fun prefixed => ?_⟩
    exact (unrecognized_iff_flags rfl).mp ((exists_word_iff consistent).mp ⟨w, rfl⟩ prefixed)
  · rintro ⟨⟨d, consistent, rfl⟩, alone⟩
    exact (exists_word_iff consistent).mpr fun prefixed => (unrecognized_iff_flags rfl).mpr (alone prefixed)

theorem prefixed_branch_readable :
    let f := { (identify 0x48000000).flags with prefixed := true }
    (∀ w, (identify w).flags ≠ f) ∧ (f.identification? 18 0x48000000).isSome = true := by
  refine ⟨fun w same => ?_, by decide⟩
  have raised : (identify w).prefixed = true := congrArg prefixed same
  have branch : (identify w).branch = true := congrArg Flags.branch same
  have plain := congrArg Verdict.branch (unrecognized_of_prefixed raised)
  exact absurd (branch.symm.trans plain) (by decide)

end Flags

end IdentifyBench

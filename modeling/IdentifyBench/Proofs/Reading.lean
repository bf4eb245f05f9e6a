import IdentifyBench.Proofs.Bus

/-! The way back from the output lines to what drives them. A consistent identification is read back
from its flags, and whatever the stage identifies is consistent. -/
namespace IdentifyBench

theorem Flags.form?_flags (d : Identification) : d.flags.form? = some d.form := by
  unfold form? Identification.flags
  rcases d.form with _ | _ | _ <;> rfl

theorem Flags.target?_flags (d : Identification) : d.flags.target? = some d.target := by
  unfold target? Identification.flags
  rcases d.target with _ | _ | _ | _ <;> rfl

theorem Flags.op?_flags (d : Identification) : d.flags.op? = some d.op := by
  unfold op? Identification.flags
  rcases d.op with _ | op
  · rfl
  · cases op <;> rfl

theorem Identification.Consistent.identification?_flags {d : Identification}
    (consistent : d.Consistent) : d.flags.identification? d.opcode d.word = some d := by
  unfold Flags.identification?
  rw [Flags.form?_flags, Flags.target?_flags, Flags.op?_flags]
  exact if_pos consistent

theorem identify_consistent (w : Word) : (identify w).Consistent := by
  unfold identify
  split
  · exact ⟨rfl, nofun, rfl, nofun⟩
  · rename_i rule found
    have listed : rule ∈ Rule.table := List.mem_of_find?_eq_some found
    have regular : ∀ rule ∈ Rule.table, (Identification.neutral.classified rule.kind).Consistent := by
      decide
    have consistent := regular rule listed
    cases kind : rule.kind with
    | branch form target =>
      rw [kind] at consistent
      exact consistent
    | condition op =>
      rw [kind] at consistent
      exact consistent

namespace Bus

theorem flags_of_carries {b : Bus} {d : Identification} {stall : Bool} (carries : b.Carries ⟨d, stall⟩) :
    b.flags = d.flags := by
  have branch : b.branch.level = d.flags.branch := carries .branch _ rfl
  have iForm : b.iForm.level = d.flags.iForm := carries .iForm _ rfl
  have bForm : b.bForm.level = d.flags.bForm := carries .bForm _ rfl
  have lr : b.targetLr.level = d.flags.lr := carries .targetLr _ rfl
  have ctr : b.targetCtr.level = d.flags.ctr := carries .targetCtr _ rfl
  have tar : b.targetTar.level = d.flags.tar := carries .targetTar _ rfl
  have condition : b.condition.level = d.flags.condition := carries .condition _ rfl
  have prefixed : b.prefixed.level = d.flags.prefixed := carries .prefixed _ rfl
  have ops : b.flags.ops = d.flags.ops := by
    funext op
    cases op with
    | crand => exact carries .crand _ rfl
    | crnand => exact carries .crnand _ rfl
    | cror => exact carries .cror _ rfl
    | crxor => exact carries .crxor _ rfl
    | crnor => exact carries .crnor _ rfl
    | creqv => exact carries .creqv _ rfl
    | crandc => exact carries .crandc _ rfl
    | crorc => exact carries .crorc _ rfl
    | mcrf => exact carries .mcrf _ rfl
  unfold flags at ops ⊢
  rw [branch, iForm, bForm, lr, ctr, tar, condition, prefixed]
  exact congrArg (fun ops => { d.flags with ops }) ops

/-- The views tell these outputs: the flags, the two slices of the word, and the stall. -/
structure Tells (b : Bus) (o : StageOutputs) : Prop where
  flags : b.flags = o.identified.flags
  opcode : b.level .opcodeOut = o.identified.opcode
  word : b.level .wordOut = o.identified.word
  stall : b.level .stall = o.stall

theorem Carries.tells {b : Bus} {o : StageOutputs} (carries : b.Carries o) : b.Tells o :=
  ⟨flags_of_carries carries, carries .opcodeOut _ rfl, carries .wordOut _ rfl, carries .stall _ rfl⟩

theorem identification?_of_carries {b : Bus} {d : Identification} {stall : Bool}
    (carries : b.Carries ⟨d, stall⟩) (consistent : d.Consistent) : b.identification? = some d := by
  have opcode : b.opcodeOut.level = d.opcode := carries .opcodeOut _ rfl
  have word : b.wordOut.level = d.word := carries .wordOut _ rfl
  rw [identification?, flags_of_carries carries, opcode, word]
  exact consistent.identification?_flags

end Bus

end IdentifyBench

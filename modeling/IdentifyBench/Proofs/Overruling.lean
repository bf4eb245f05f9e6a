import IdentifyBench.CommandLine
import IdentifyBench.Proofs.Overlay
import IdentifyBench.Proofs.Showing

/-! Options over settings. An option that is given decides, and what no option is about stays as the file
has it, or as it is without one. Words that are given are presented once and in their order, unless a
number of cycles is given too. -/
namespace IdentifyBench.CommandLine

/-- What is given decides, and without it something else holds. -/
def Decides {α : Type} (given : Option α) (decided : α → Prop) (otherwise : Prop) : Prop :=
  given.elim otherwise decided

/-- What options make of settings. -/
structure Overrules (o : Options) (base s : Settings) : Prop where
  general : s.general = { base.general with
    maxTime := s.general.maxTime, keepObservations := s.general.keepObservations }
  limit : Decides o.maxTimeNs
    (fun ns => s.general.maxTime.map (·.toNat) = some (min (ns.toNat * 1000) Instant.last))
    (s.general.maxTime = base.general.maxTime)
  keep : Decides o.events (fun _ => s.general.keepObservations = true)
    (s.general.keepObservations = base.general.keepObservations)
  clock : s.clock = base.clock
  stimulus : s.stimulus = { base.stimulus with cycles := s.stimulus.cycles, source := s.stimulus.source }
  cycles : Decides o.cycles (s.stimulus.cycles = ·)
    (Decides o.words (fun words => s.stimulus.cycles.toNat = words.length % UInt64.size)
      (s.stimulus.cycles = base.stimulus.cycles))
  source : Decides o.words (s.stimulus.source = .fixed ·)
    (Decides o.seed (s.stimulus.source = .random ·) (s.stimulus.source = base.stimulus.source))
  tracing : if o.noTrace then s.trace.enabled = false
    else Decides o.trace (fun _ => s.trace.enabled = true) (s.trace.enabled = base.trace.enabled)
  path : Decides o.trace (s.trace.path = ·) (s.trace.path = base.trace.path)

theorem Options.overrules (o : Options) (base : Settings) : Overrules o base (o.apply base) where
  general := rfl
  limit := by
    cases limit : o.maxTimeNs with
    | none => simp [Decides, Options.apply, limit]
    | some ns =>
      have short : min (ns.toNat * 1000) Instant.last < UInt64.size :=
        Nat.lt_of_le_of_lt (Nat.min_le_right ..) (by decide)
      rw [Options.apply, limit]
      exact congrArg some (UInt64.toNat_ofNat_of_lt' short)
  keep := by cases events : o.events <;> simp [Decides, Options.apply, events]
  clock := rfl
  stimulus := rfl
  cycles := by
    cases cycles : o.cycles with
    | some c => simp [Decides, Options.apply, cycles]
    | none =>
      cases words : o.words with
      | none => simp [Decides, Options.apply, cycles, words]
      | some words =>
        rw [Options.apply, cycles, words]
        exact UInt64.toNat_ofNat'
  source := by cases words : o.words <;> cases seed : o.seed <;> simp [Decides, Options.apply, words, seed]
  tracing := by cases off : o.noTrace <;> cases trace : o.trace <;> simp [Decides, Options.apply, off, trace]
  path := by cases trace : o.trace <;> simp [Decides, Options.apply, trace]

variable {κ : Type} [Files κ]

/-- What a run begins with. If there is to be a trace, its file is open and has taken the header. -/
inductive Begins (s : Settings) (files : κ) : Recording Source κ → Prop
  | plain (off : s.trace.enabled = false) :
    Begins s files (.fresh s (.ofSettings s.stimulus.source) none files)
  | traced {opened out : κ} (on : s.trace.enabled = true)
      (opens : Files.openStream files s.trace.path = .ok opened)
      (starts : Waveform.start opened = (out, none)) :
    Begins s files (.fresh s (.ofSettings s.stimulus.source) (some .blank) out)

variable {s base : Settings} {files : κ} {r : Recording Source κ} {o : Options}

theorem begins_iff :
    Begins s files r ↔ (prepare s files).result = .ok () ∧ (prepare s files).state = r := by
  unfold prepare
  cases on : s.trace.enabled with
  | false =>
    refine ⟨?_, ?_⟩
    · rintro (_ | ⟨enabled, _, _⟩)
      · exact ⟨rfl, rfl⟩
      · cases on.symm.trans enabled
    · rintro ⟨-, rfl⟩
      exact .plain on
  | true =>
    unfold Recording.openTrace Recording.plain
    refine ⟨?_, ?_⟩
    · rintro (off | ⟨_, opens, starts⟩)
      · cases on.symm.trans off
      · rw [if_pos rfl, opens]
        dsimp only
        rw [starts]
        exact ⟨rfl, rfl⟩
    · rw [if_pos rfl]
      cases opens : Files.openStream files s.trace.path with
      | error fault => exact fun ended => nomatch ended.1
      | ok opened =>
        rcases starts : Waveform.start opened with ⟨out, _ | fault⟩
        · dsimp only
          rw [starts]
          rintro ⟨-, rfl⟩
          exact .traced on opens starts
        · dsimp only
          rw [starts]
          exact fun ended => nomatch ended.1

theorem Begins.unique {r' : Recording Source κ} (begins : Begins s files r) (begins' : Begins s files r') :
    r = r' :=
  (begins_iff.mp begins).2.symm.trans (begins_iff.mp begins').2

theorem Begins.fresh (begins : Begins s files r) :
    ∃ waveform out, r = .fresh s (.ofSettings s.stimulus.source) waveform out := by
  cases begins with
  | plain off => exact ⟨_, _, rfl⟩
  | traced on opens starts => exact ⟨_, _, rfl⟩

theorem valid_of_base (loads : o.base files = .ok base) : base.Valid := by
  unfold Options.base at loads
  cases config : o.config with
  | none =>
    rw [config] at loads
    cases loads
    decide
  | some path =>
    rw [config] at loads
    exact Settings.valid_of_ofFile loads

/-- No option touches what makes settings unusable. -/
theorem Options.problem?_apply (o : Options) (base : Settings) :
    (o.apply base).problem? = base.problem? := rfl

theorem settings_eq_check (loads : o.base files = .ok base) : o.settings files = (o.apply base).check := by
  unfold Options.settings
  rw [loads]
  rfl

theorem settings_of_base (loads : o.base files = .ok base) :
    o.settings files = .ok (o.apply base) ∧ (o.apply base).Valid := by
  have valid : (o.apply base).Valid := (o.problem?_apply base).trans (valid_of_base loads)
  refine ⟨?_, valid⟩
  rw [settings_eq_check loads, Settings.check]
  rw [show (o.apply base).problem? = none from valid]

theorem perform_of_settings (loads : o.settings files = .ok s) :
    (Request.run o).perform files = runBench o.events s files := by
  unfold Request.perform
  dsimp only
  rw [loads]

end IdentifyBench.CommandLine

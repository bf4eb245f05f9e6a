import IdentifyBench.Proofs.Exporting
import IdentifyBench.Proofs.Overruling

/-! What the program reports. It ends well exactly if every stage does: the settings, the trace, the run and
the file of views. Otherwise it names the component of one of the failures. A run that fails is reported
with what was counted, unless the file of views fails too: then that failure alone is reported. -/
namespace IdentifyBench.CommandLine

variable {κ : Type} [Files κ] {o : Options} {files : κ} {s : Settings} {r : Recording Source κ}

structure Starts (o : Options) (files : κ) (s : Settings) (r : Recording Source κ) : Prop where
  loads : ∃ base, o.base files = .ok base ∧ s = o.apply base
  valid : s.Valid
  begins : Begins s files r

/-- A file was opened for the views, and it took all of them. -/
def Exported (r : Recording Source κ) (path : String) : Prop :=
  ∃ opened written, Files.openBeside r.out path = .ok opened ∧
    r.bench.observer.writeLines opened = (written, none)

inductive Unexported (r : Recording Source κ) (path : String) (fault : StorageFault) : Prop
  | opening (opens : Files.openBeside r.out path = .error fault)
  | writing {opened written : κ} (opens : Files.openBeside r.out path = .ok opened)
      (writes : r.bench.observer.writeLines opened = (written, some fault))

/-- The failures that can occur in the stages. -/
inductive Occurs (o : Options) (files : κ) : Failure → Prop
  | loading {f : Failure} (refuses : o.base files = .error f) : Occurs o files f
  | checking {f : Failure} {base : Settings} (loads : o.base files = .ok base)
      (refuses : (o.apply base).check = .error f) : Occurs o files f
  | opening {s : Settings} {fault : StorageFault} (accepted : o.settings files = .ok s)
      (on : s.trace.enabled = true) (opens : Files.openStream files s.trace.path = .error fault) :
    Occurs o files (.traceOpen s.trace.path fault)
  | heading {s : Settings} {opened out : κ} {fault : StorageFault} (accepted : o.settings files = .ok s)
      (on : s.trace.enabled = true) (opens : Files.openStream files s.trace.path = .ok opened)
      (starts : Waveform.start opened = (out, some fault)) :
    Occurs o files (.traceOpen s.trace.path fault)
  | running {s : Settings} {r : Recording Source κ} {f : Failure} (starts : Starts o files s r)
      (fails : r.run.result = .error (.failure f)) : Occurs o files f
  | exporting {s : Settings} {r : Recording Source κ} {path : String} {fault : StorageFault}
      (starts : Starts o files s r) (asked : path ∈ o.events)
      (fails : Unexported r.run.state path fault) : Occurs o files (.eventsWrite path fault)

def culprit : Failure → String
  | .traceOpen .. | .traceWrite .. => "trace"
  | .exhausted .. | .timeLimit .. => "stimulus"
  | .starved .. | .unsettled .. => "scheduler"
  | .settingsUnread .. | .settingsMalformed .. | .settingsInvalid .. => "config"
  | .eventsWrite .. => "events"

/-- A line of the text names what has failed, and says how. -/
def Told (text : String) (f : Failure) : Prop :=
  ∃ before after, text = before ++ ("[!] " ++ culprit f ++ " failed: " ++ f.message ++ "\n") ++ after ∧
    (before = "" ∨ ∃ lines, before = lines ++ "\n")

theorem failed_eq (f : Failure) : failed f = "[!] " ++ culprit f ++ " failed: " ++ f.message ++ "\n" := by
  cases f <;> rfl

theorem told_failed (f : Failure) : Told (failed f) f :=
  ⟨"", "", by rw [String.empty_append, String.append_empty, failed_eq], .inl rfl⟩

theorem told_halt (f : Failure) : Told ("\n" ++ Halt.text (.failure f)) f :=
  ⟨"\n", "", by rw [String.append_empty, Halt.text, failed_eq], .inr ⟨"", rfl⟩⟩

theorem failed_eventsWrite (path : String) (fault : StorageFault) :
    failed (.eventsWrite path fault) =
      "[!] events failed: cannot write events to " ++ path ++ ": " ++ fault.text ++ "\n" := by
  have start : "[!] " ++ "events" ++ " failed: " ++ "cannot write events to " =
      "[!] events failed: cannot write events to " := by decide +kernel
  have line : failed (.eventsWrite path fault) = "[!] " ++ "events" ++ " failed: " ++
      ("cannot write events to " ++ path ++ ": " ++ fault.text) ++ "\n" := failed_eq _
  simp only [line, ← String.append_assoc, start]

/-- Where the files are to blame, the line ends with what came of them. -/
theorem failed_of_cause {f : Failure} {cause : StorageFault} (caused : cause ∈ f.cause?) :
    ∃ tried, failed f = "[!] " ++ culprit f ++ " failed: " ++ (tried ++ cause.text) ++ "\n" := by
  suffices ∃ tried, f.message = tried ++ cause.text by
    obtain ⟨tried, said⟩ := this
    exact ⟨tried, by rw [failed_eq, said]⟩
  cases f <;> cases caused <;> exact ⟨_, rfl⟩

theorem Starts.settings (starts : Starts o files s r) : o.settings files = .ok s := by
  obtain ⟨⟨base, loads, rfl⟩, _, _⟩ := starts
  exact (settings_of_base loads).1

theorem exported_or_unexported (r : Recording Source κ) (path : String) :
    Exported r path ∨ ∃ fault, Unexported r path fault := by
  cases opens : Files.openBeside r.out path with
  | error fault => exact .inr ⟨fault, .opening opens⟩
  | ok opened =>
    rcases writes : r.bench.observer.writeLines opened with ⟨written, _ | fault⟩
    · exact .inl ⟨opened, written, opens, writes⟩
    · exact .inr ⟨fault, .writing opens writes⟩

theorem Exported.exportTo {path : String} (exported : Exported r path) :
    ∃ written, r.bench.observer.exportTo r.out path = (written, .ok r.bench.observer.records.size) := by
  obtain ⟨opened, written, opens, writes⟩ := exported
  unfold Observer.exportTo
  rw [opens]
  dsimp only
  rw [writes]
  exact ⟨_, rfl⟩

theorem Unexported.exportTo {path : String} {fault : StorageFault} (unexported : Unexported r path fault) :
    ∃ written, r.bench.observer.exportTo r.out path = (written, .error (.eventsWrite path fault)) := by
  unfold Observer.exportTo
  cases unexported with
  | opening opens =>
    rw [opens]
    exact ⟨_, rfl⟩
  | writing opens writes =>
    rw [opens]
    dsimp only
    rw [writes]
    exact ⟨_, rfl⟩

def Options.written (o : Options) (r : Recording Source κ) : κ :=
  match o.events with
  | none => r.out
  | some path => (r.bench.observer.exportTo r.out path).1

def Options.note (o : Options) (r : Recording Source κ) : String :=
  match o.events with
  | none => ""
  | some path =>
    "[*] " ++ toString r.bench.observer.records.size ++ " observations written to " ++ path ++ "\n"

theorem perform_of_exported (starts : Starts o files s r)
    (exported : ∀ path ∈ o.events, Exported r.run.state path) :
    (Request.run o).perform files =
      conclude (opening s ++ o.note r.run.state) r.run (o.written r.run.state) := by
  obtain ⟨prepared, rfl⟩ := begins_iff.mp starts.begins
  rw [perform_of_settings starts.settings, runBench]
  dsimp only
  rw [prepared]
  dsimp only
  unfold Options.note Options.written
  cases events : o.events with
  | none => rw [String.append_empty]
  | some path =>
    obtain ⟨written, exports⟩ := (exported path events).exportTo
    dsimp only
    rw [exports]
    simp only [String.append_assoc]

theorem perform_of_unexported {path : String} {fault : StorageFault} (starts : Starts o files s r)
    (asked : path ∈ o.events) (unexported : Unexported r.run.state path fault) :
    (Request.run o).perform files =
      ⟨1, opening s, failed (.eventsWrite path fault), Files.abandon (o.written r.run.state)⟩ := by
  obtain ⟨prepared, rfl⟩ := begins_iff.mp starts.begins
  rw [perform_of_settings starts.settings, runBench]
  dsimp only
  rw [prepared]
  dsimp only
  unfold Options.written
  rw [Option.mem_def.mp asked]
  obtain ⟨written, exports⟩ := unexported.exportTo
  dsimp only
  rw [exports]

theorem Starts.unique {s' : Settings} {r' : Recording Source κ} (starts : Starts o files s r)
    (starts' : Starts o files s' r') : s = s' ∧ r = r' := by
  obtain rfl := Except.ok.inj (starts.settings.symm.trans starts'.settings)
  exact ⟨rfl, starts.begins.unique starts'.begins⟩

theorem perform_cases (starts : Starts o files s r) :
    ((∀ path ∈ o.events, Exported r.run.state path) ∧ (Request.run o).perform files =
      conclude (opening s ++ o.note r.run.state) r.run (o.written r.run.state)) ∨
    ∃ path ∈ o.events, ∃ fault, Unexported r.run.state path fault ∧
      (Request.run o).perform files =
        ⟨1, opening s, failed (.eventsWrite path fault), Files.abandon (o.written r.run.state)⟩ := by
  cases events : o.events with
  | none =>
    have exported : ∀ path ∈ o.events, Exported r.run.state path := by
      rw [events]
      exact nofun
    exact .inl ⟨events ▸ exported, perform_of_exported starts exported⟩
  | some path =>
    rcases exported_or_unexported r.run.state path with exported | ⟨fault, unexported⟩
    · have all : ∀ other ∈ o.events, Exported r.run.state other := by
        rw [events]
        rintro _ ⟨⟩
        exact exported
      exact .inl ⟨events ▸ all, perform_of_exported starts all⟩
    · exact .inr ⟨path, rfl, fault, unexported, perform_of_unexported starts events unexported⟩

theorem Starts.told (starts : Starts o files s r) (ends : r.run.result ≠ .error .endless)
    (other : ((Request.run o).perform files).code ≠ 0) :
    ((Request.run o).perform files).code = 1 ∧
      ∃ f, Occurs o files f ∧ Told ((Request.run o).perform files).stderr f := by
  rcases perform_cases starts with ⟨_, concluded⟩ | ⟨path, asked, fault, unexported, ended⟩
  · rw [concluded] at other ⊢
    unfold conclude at other ⊢
    cases returned : r.run.result with
    | ok tally =>
      rw [returned] at other
      exact absurd rfl other
    | error halt =>
      refine ⟨rfl, ?_⟩
      cases halt with
      | failure f => exact ⟨f, .running starts returned, told_halt f⟩
      | endless => exact absurd returned ends
  · rw [ended]
    exact ⟨rfl, _, .exporting starts asked unexported, told_failed _⟩

theorem Starts.storage (starts : Starts o files s r) :
    let result := (Request.run o).perform files
    result.storage = if result.code = 0 then Files.close (o.written r.run.state)
      else Files.abandon (o.written r.run.state) := by
  intro result
  rcases perform_cases starts with ⟨_, concluded⟩ | ⟨_, _, _, _, ended⟩
  · rw [show result = _ from concluded]
    unfold conclude
    cases r.run.result <;> rfl
  · rw [show result = _ from ended]
    rfl

theorem Starts.flush {tally : Tally} (starts : Starts o files s r) (on : s.trace.enabled = true)
    (returns : r.run.result = .ok tally) : ∃ before, Sink.flush before = (r.run.state.out, none) := by
  cases starts.begins with
  | plain off => cases off.symm.trans on
  | traced _ _ _ => exact Recording.run_flush rfl rfl returns

theorem Starts.records (starts : Starts o files s r) {path : String} (asked : path ∈ o.events) :
    let bench := r.run.state.bench
    bench.tally.observations = bench.observer.records.size ∧
      (s.general.logObservations = true →
        r.run.events.filterMap Event.view? = bench.observer.records.toList) := by
  intro bench
  have keeps : s.general.keepObservations = true := by
    obtain ⟨⟨base, _, rfl⟩, _, _⟩ := starts
    have keep := (o.overrules base).keep
    rw [Option.mem_def.mp asked] at keep
    exact keep
  obtain ⟨waveform, out, rfl⟩ := starts.begins.fresh
  obtain ⟨n, made⟩ := (Recording.fresh s (Source.ofSettings s.stimulus.source) waveform out).run_bench
  have balanced := Bench.balanced_new_after s (Source.ofSettings s.stimulus.source) n
  have logs := Recording.run_logs s (Source.ofSettings s.stimulus.source) waveform out
  refine ⟨?_, fun tells => logs.views (logs.log.trans tells) (logs.keep.trans keeps)⟩
  rw [show bench = _ from made]
  exact balanced.records (balanced.keep.trans keeps)

theorem exported_of_file {r : Recording Source Storage} {path : String} {created : Storage} {place : Place}
    (makes : r.out.create path = .ok (created, .file place)) : Exported r path := by
  have opens : r.out.openBeside path = .ok { created with stream := some ⟨.file place, 0, ""⟩ } := by
    unfold Storage.openBeside
    rw [makes]
    rfl
  rcases Storage.openBeside_cases opens with ⟨device, _⟩ | ⟨_, _, _, filling, nothing⟩
  · cases makes.symm.trans device
  · obtain ⟨written, writes, _⟩ := filling.writeLines nothing r.bench.observer
    exact ⟨_, written, opens, writes⟩

def Options.beyond (path : String) : Options :=
  { Options.absent with cycles := some 3, words := some [1], noTrace := true, events := some path }

theorem create_empty : Storage.empty.create "e" =
    .ok (Storage.empty.store ⟨false, ["e"]⟩ .empty, .file ⟨false, ["e"]⟩) := by
  cbv

theorem starts_beyond (path : String) :
    ∃ s r, Starts (.beyond path) Storage.empty s r ∧
      r.run.result = .error (.failure (.exhausted 1 3)) ∧ r.run.state.out = Storage.empty := by
  obtain ⟨s, settings⟩ : ∃ s, s = (Options.beyond path).apply .standard := ⟨_, rfl⟩
  obtain ⟨r, fresh⟩ : ∃ r : Recording Source Storage, r = .fresh s (.fixed [1]) none .empty := ⟨_, rfl⟩
  have loads : (Options.beyond path).base Storage.empty = .ok .standard := rfl
  have starts : Starts (.beyond path) Storage.empty s r := by
    refine ⟨⟨.standard, loads, settings⟩, ?_, ?_⟩
    · rw [settings]
      exact (settings_of_base loads).2
    · rw [fresh, settings]
      exact .plain rfl
  have same : r = .fresh ((Options.beyond "").apply .standard) (.fixed [1]) none .empty := by
    rw [fresh, settings]
    rfl
  have halts : (match r.run.result with
      | .error (.failure f) => decide (f = .exhausted 1 3)
      | _ => false) = true := by
    rw [same]
    decide +kernel
  refine ⟨s, r, starts, ?_, ?_⟩
  · split at halts
    · rename_i f halted
      rw [halted, of_decide_eq_true halts]
    · cases halts
  · have unrecorded : r.waveform = none := by rw [fresh, Recording.fresh]
    rw [Recording.run_out_of_none unrecorded, fresh, Recording.fresh]

/-- A run that fails is reported with what was counted, once the views are written if they are to be. Where
they cannot be written, the program ends with that failure and says nothing of the run. -/
theorem failure_reported (o : Options) (files : κ) {s : Settings} {r : Recording Source κ} {f : Failure}
    (starts : Starts o files s r) (fails : r.run.result = .error (.failure f)) :
    let result := (Request.run o).perform files
    result.code = 1 ∧
    ((∀ path ∈ o.events, Exported r.run.state path) → Told result.stderr f ∧
      result.stdout = opening s ++ o.note r.run.state ++ r.run.state.bench.tally.report []) ∧
    ∀ path ∈ o.events, ∀ fault, Unexported r.run.state path fault →
      result.stderr = "[!] events failed: cannot write events to " ++ path ++ ": " ++ fault.text ++ "\n" ∧
        result.stdout = opening s := by
  intro result
  refine ⟨?_, fun exported => ?_, fun path asked fault unexported => ?_⟩
  · rcases perform_cases starts with ⟨_, concluded⟩ | ⟨_, _, _, _, ended⟩
    · rw [show result = _ from concluded, conclude, fails]
    · rw [show result = _ from ended]
  · rw [show result = _ from perform_of_exported starts exported, conclude, fails]
    exact ⟨told_halt f, rfl⟩
  · rw [show result = _ from perform_of_unexported starts asked unexported]
    exact ⟨failed_eventsWrite path fault, rfl⟩

theorem failure_reported_of_missing_word :
    ∃ s r, Starts (.beyond "e") Storage.empty s r ∧
      r.run.result = .error (.failure (.exhausted 1 3)) ∧ Exported r.run.state "e" ∧
      Told ((Request.run (.beyond "e")).perform Storage.empty).stderr (.exhausted 1 3) := by
  obtain ⟨s, r, starts, fails, out⟩ := starts_beyond "e"
  have exported : Exported r.run.state "e" := exported_of_file (out.symm ▸ create_empty)
  obtain ⟨_, told, _⟩ := failure_reported (.beyond "e") Storage.empty starts fails
  refine ⟨s, r, starts, fails, exported, (told ?_).1⟩
  rintro _ ⟨⟩
  exact exported

/-- There is no directory for the file of views, and so nothing is said of the word that is missing. -/
theorem failure_hidden_by_export :
    ∃ s r, Starts (.beyond "d/e") Storage.empty s r ∧
      r.run.result = .error (.failure (.exhausted 1 3)) ∧
      let result := (Request.run (.beyond "d/e")).perform Storage.empty
      result.stderr =
          "[!] events failed: cannot write events to d/e: No such file or directory (os error 2)\n" ∧
        result.stdout = opening s ∧ ¬Told result.stderr (.exhausted 1 3) := by
  obtain ⟨s, r, starts, fails, out⟩ := starts_beyond "d/e"
  have opens : Storage.empty.openBeside "d/e" = .error .noEntry := by
    cbv
  have unexported : Unexported r.run.state "d/e" .noEntry := .opening (out.symm ▸ opens)
  have alone := perform_of_unexported starts (o := .beyond "d/e") rfl unexported
  refine ⟨s, r, starts, fails, ?_⟩
  rw [alone]
  have said : failed (.eventsWrite "d/e" .noEntry) =
      "[!] events failed: cannot write events to d/e: No such file or directory (os error 2)\n" := by
    decide +kernel
  refine ⟨said, rfl, ?_⟩
  rintro ⟨before, after, text, _⟩
  dsimp only at text
  rw [← failed_eq] at text
  have inside : 'x' ∈ (failed (.exhausted 1 3)).toList := by decide +kernel
  have outside : 'x' ∉ (failed (.eventsWrite "d/e" .noEntry)).toList := by decide +kernel
  refine outside ?_
  rw [text, String.toList_append, String.toList_append]
  exact List.mem_append_left _ (List.mem_append_right _ inside)

end IdentifyBench.CommandLine

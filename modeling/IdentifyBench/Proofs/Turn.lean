import IdentifyBench.Bench

/-! What a part of a run leads to, as a pair of conditions: one for the end with a result, one for
the halt. A sequence of two parts is taken apart by `andThen_ends`. -/
namespace IdentifyBench.Turn

variable {β α γ : Type}

/-- The turn ends with a result as the first condition says, or halts as the second one does. -/
def Ends (t : Turn β α) (ok : β → List Event → α → Prop) (halted : β → List Event → Halt → Prop) :
    Prop :=
  match t.result with
  | .ok x => ok t.state t.events x
  | .error halt => halted t.state t.events halt

variable {ok ok' : β → List Event → α → Prop} {halted halted' : β → List Event → Halt → Prop}

@[simp] theorem ends_done (state : β) (events : List Event)
    (ok : β → List Event → Unit → Prop) (halted : β → List Event → Halt → Prop) :
    (done state events).Ends ok halted ↔ ok state events () := Iff.rfl

@[simp] theorem ends_fail (state : β) (f : Failure) :
    Ends (fail state f : Turn β α) ok halted ↔ halted state [] (.failure f) := Iff.rfl

theorem Ends.mono {t : Turn β α} (ends : t.Ends ok halted)
    (weaker : ∀ b events x, ok b events x → ok' b events x)
    (weaker' : ∀ b events halt, halted b events halt → halted' b events halt) :
    t.Ends ok' halted' := by
  unfold Ends at *
  split <;> simp_all

theorem Ends.and {t : Turn β α} (first : t.Ends ok halted) (second : t.Ends ok' halted') :
    t.Ends (fun b events x => ok b events x ∧ ok' b events x)
      fun b events halt => halted b events halt ∧ halted' b events halt := by
  unfold Ends at *
  split <;> simp_all

theorem Ends.and_state {t : Turn β α} {P : β → Prop} (ends : t.Ends ok halted) (kept : P t.state) :
    t.Ends (fun b events x => ok b events x ∧ P b) fun b events halt => halted b events halt ∧ P b := by
  unfold Ends at *
  split
  · rename_i x returns
    rw [returns] at ends
    exact ⟨ends, kept⟩
  · rename_i halt halts
    rw [halts] at ends
    exact ⟨ends, kept⟩

theorem Ends.state {t : Turn β α} {P : β → Prop}
    (ends : t.Ends (fun b _ _ => P b) fun b _ _ => P b) : P t.state := by
  unfold Ends at ends
  split at ends <;> exact ends

theorem ends_of_state {t : Turn β α} {P : β → Prop} (kept : P t.state) :
    t.Ends (fun b _ _ => P b) fun b _ _ => P b := by
  unfold Ends
  split <;> exact kept

theorem ends_iff_of_ok {t : Turn β α} {x : α} (returns : t.result = .ok x) :
    t.Ends ok halted ↔ ok t.state t.events x := by
  simp [Ends, returns]

theorem ends_iff_of_error {t : Turn β α} {halt : Halt} (halts : t.result = .error halt) :
    t.Ends ok halted ↔ halted t.state t.events halt := by
  simp [Ends, halts]

theorem andThen_ends {ok : β → List Event → γ → Prop} (t : Turn β α) (next : β → α → Turn β γ) :
    (t.andThen next).Ends ok halted ↔
      t.Ends (fun b events x => (next b x).Ends (fun c more y => ok c (events ++ more) y)
        fun c more halt => halted c (events ++ more) halt) halted := by
  unfold andThen
  split
  · rename_i halt halts
    rw [ends_iff_of_error halts]
    rfl
  · rename_i x returns
    rw [ends_iff_of_ok returns]
    rfl

/-- The last part alone decides how a sequence ends with a result. -/
theorem ends_andThen {P : β → Prop} {t : Turn β α} {next : β → α → Turn β γ}
    (last : ∀ b x, (next b x).Ends (fun c _ _ => P c) fun _ _ _ => True) :
    (t.andThen next).Ends (fun c _ _ => P c) fun _ _ _ => True := by
  unfold andThen
  split
  · trivial
  · exact last _ _

theorem state_andThen {P : β → Prop} {t : Turn β α} {next : β → α → Turn β γ} (first : P t.state)
    (second : ∀ b x, P b → P (next b x).state) : P (t.andThen next).state := by
  unfold andThen
  split
  · exact first
  · exact second _ _ first

@[simp] theorem done_andThen (state : β) (events : List Event) (next : β → Unit → Turn β γ) :
    (done state events).andThen next =
      { next state () with events := events ++ (next state ()).events } := rfl

theorem andThen_assoc {δ : Type} (t : Turn β α) (next : β → α → Turn β γ)
    (last : β → γ → Turn β δ) :
    (t.andThen next).andThen last = t.andThen fun b x => (next b x).andThen last := by
  unfold andThen
  cases t.result with
  | error halt => rfl
  | ok x =>
    dsimp only
    cases (next t.state x).result with
    | error halt => rfl
    | ok y => simp only [List.append_assoc]

theorem andThen_of_ok {t : Turn β α} {x : α} (returns : t.result = .ok x)
    (next : β → α → Turn β γ) :
    t.andThen next =
      { next t.state x with events := t.events ++ (next t.state x).events } := by
  simp [andThen, returns]

theorem andThen_of_error {t : Turn β α} {halt : Halt} (halts : t.result = .error halt)
    (next : β → α → Turn β γ) : t.andThen next = ⟨t.state, t.events, .error halt⟩ := by
  simp [andThen, halts]

theorem andThen_done (t : Turn β Unit) : (t.andThen fun b _ => done b []) = t := by
  obtain ⟨state, events, result⟩ := t
  cases result with
  | error halt => rfl
  | ok x => exact congrArg (fun told => (⟨state, told, .ok ()⟩ : Turn β Unit)) (List.append_nil events)

/-- Two turns tell the same and have the same result, and they leave related states. -/
structure Agree (R : β → β → Prop) (t u : Turn β α) : Prop where
  state : R t.state u.state
  events : u.events = t.events
  result : u.result = t.result

theorem Agree.done {R : β → β → Prop} {b d : β} (related : R b d) (events : List Event) :
    Agree R (done b events) (done d events) := ⟨related, rfl, rfl⟩

theorem Agree.prepend {R : β → β → Prop} {t u : Turn β α} (agree : Agree R t u)
    (events : List Event) :
    Agree R { t with events := events ++ t.events } { u with events := events ++ u.events } :=
  ⟨agree.state, congrArg (events ++ ·) agree.events, agree.result⟩

theorem Agree.andThen {R : β → β → Prop} {t u : Turn β α} {next next' : β → α → Turn β γ}
    (first : Agree R t u) (rest : ∀ b d x, R b d → Agree R (next b x) (next' d x)) :
    Agree R (t.andThen next) (u.andThen next') := by
  cases returned : t.result with
  | error halt =>
    rw [andThen_of_error returned, andThen_of_error (first.result.trans returned)]
    exact ⟨first.state, first.events, rfl⟩
  | ok x =>
    rw [andThen_of_ok returned, andThen_of_ok (first.result.trans returned), first.events]
    exact (rest _ _ x first.state).prepend _

theorem Agree.andThen_of_ok {R : β → β → Prop} {t u : Turn β α} {next next' : β → α → Turn β γ}
    {y : γ} (first : Agree R t u) (returns : (t.andThen next).result = .ok y)
    (rest : ∀ b d x, R b d → (next b x).result = .ok y → Agree R (next b x) (next' d x)) :
    Agree R (t.andThen next) (u.andThen next') := by
  cases returned : t.result with
  | error halt =>
    rw [andThen_of_error returned] at returns
    cases returns
  | ok x =>
    rw [Turn.andThen_of_ok returned] at returns ⊢
    rw [Turn.andThen_of_ok (first.result.trans returned), first.events]
    exact (rest _ _ x first.state returns).prepend _

theorem exists_of_isOk {t : Turn β α} (returned : t.result.isOk = true) : ∃ x, t.result = .ok x := by
  cases returns : t.result with
  | error halt =>
    rw [returns] at returned
    cases returned
  | ok x => exact ⟨x, rfl⟩

theorem result_of_toOption {t : Turn β α} {x : α} (returns : t.result.toOption = some x) :
    t.result = .ok x := by
  cases returned : t.result with
  | error halt =>
    rw [returned] at returns
    cases returns
  | ok y =>
    rw [returned] at returns
    cases returns
    rfl

end IdentifyBench.Turn

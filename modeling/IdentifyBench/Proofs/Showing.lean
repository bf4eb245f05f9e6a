import IdentifyBench.Proofs.Presenting

/-! What is told of a word, and the word line. A word that is told of has been written to its line, and
nothing else is written there before the next commit, so that the commit shows it. Until the next word the
line keeps it, also where steps fail. -/
namespace IdentifyBench

/-- The last word that was presented, or the one of the reset if there is none. -/
def Event.lastWord (told : List Event) : Word := (Event.words told).getLast?.getD 0

theorem Event.lastWord_append (told more : List Event) :
    lastWord (told ++ more) = (words more).getLast?.getD (lastWord told) := by
  rw [lastWord, words_append, List.getLast?_append, Option.getD_or, lastWord]

theorem Event.lastWord_of_silent {more : List Event} (silent : words more = []) (told : List Event) :
    lastWord (told ++ more) = lastWord told := by
  rw [lastWord_append, silent, List.getLast?_nil, Option.getD_none]

namespace Stimulus

variable {σ : Type} [WordSource σ]

/-- A resumption that tells of a word has written it, so that the next commit brings it to its line. -/
theorem shows_of_presented (s : Stimulus σ) (now : Instant) (b : Bus) {t : Instant} {word : Word}
    {full : Bool} (told : .presented t word full ∈ (s.resume now b).events) :
    let committed := (s.resume now b).bus.commit.1
    t = now ∧ committed.level .word = word ∧ committed.level .arbiterFull = full := by
  unfold resume at told ⊢
  cases phase : s.phase with
  | present =>
    rw [phase] at told
    dsimp only at told ⊢
    rcases answer : WordSource.next s.source with ⟨_ | drawn, rest⟩
    · rw [answer] at told
      cases told
    · rw [answer] at told
      cases List.mem_singleton.mp told
      exact ⟨rfl, rfl, rfl⟩
  | awaitFetch | done =>
    rw [phase] at told
    cases told
  | _ =>
    rw [phase] at told
    cases List.mem_singleton.mp told

theorem next_word_resume (s : Stimulus σ) (now : Instant) (b : Bus)
    (low : s.phase = .reset → b.next .word = (0 : Word)) :
    (s.resume now b).bus.next .word =
      (Event.words (s.resume now b).events).getLast?.getD (b.next .word) := by
  unfold resume
  cases phase : s.phase with
  | reset => exact (low phase).symm
  | present =>
    dsimp only
    rcases WordSource.next s.source with ⟨_ | word, rest⟩ <;> rfl
  | _ => rfl

theorem phase_resume_ne (s : Stimulus σ) (now : Instant) (b : Bus) :
    (s.resume now b).stimulus.phase ≠ .reset := by
  have next (s : Stimulus σ) : s.nextCycle.1.phase ≠ .reset := by
    unfold nextCycle
    split <;> exact nofun
  unfold resume
  cases phase : s.phase with
  | enable => exact next s
  | present =>
    dsimp only
    rcases WordSource.next s.source with ⟨_ | word, rest⟩
    · change Phase.present ≠ .reset
      exact nofun
    · exact next _
  | done =>
    change s.phase ≠ .reset
    rw [phase]
    exact nofun
  | _ => exact nofun

end Stimulus

namespace Bench

variable {σ : Type} {b : Bench σ} {told : List Event}

/-- The next commit brings the last word told of to its line, and before the reset there is none. -/
structure Shows (told : List Event) (b : Bench σ) : Prop where
  word : b.bus.next .word = Event.lastWord told
  unbegun : b.stimulus.phase = .reset → Event.words told = []

theorem Shows.of_silent (shows : b.Shows told) {more : List Event}
    (silent : more.filter Event.isPresented = []) {d : Bench σ} (stimulus : d.stimulus = b.stimulus)
    (bus : d.bus.next .word = b.bus.next .word) : d.Shows (told ++ more) := by
  have wordless := Event.words_of_filter silent
  refine ⟨?_, fun phase => ?_⟩
  · rw [bus, Event.lastWord_of_silent wordless]
    exact shows.word
  · rw [stimulus] at phase
    rw [Event.words_append, shows.unbegun phase, wordless, List.append_nil]

variable [WordSource σ]

theorem Shows.resumeStimulus (shows : b.Shows told) :
    b.resumeStimulus.state.Shows (told ++ b.resumeStimulus.events) := by
  have low (phase : b.stimulus.phase = .reset) : b.bus.next .word = (0 : Word) := by
    rw [shows.word, Event.lastWord, shows.unbegun phase]
    rfl
  have written := b.stimulus.next_word_resume b.now b.bus low
  rw [shows.word, ← Event.lastWord_append] at written
  have begun := b.stimulus.phase_resume_ne b.now b.bus
  cases waits : (b.stimulus.resume b.now b.bus).wait with
  | error f =>
    rw [resumeStimulus_of_error waits]
    exact ⟨written, fun phase => absurd phase begun⟩
  | ok wait =>
    have conducted : (b.conduct (b.stimulus.resume b.now b.bus).stimulus
        (b.stimulus.resume b.now b.bus).bus).Shows (told ++ (b.stimulus.resume b.now b.bus).events) :=
      ⟨written, fun phase => absurd phase begun⟩
    rw [resumeStimulus_of_wait rfl waits, Turn.done, ← List.append_assoc]
    cases wait <;> exact conducted.of_silent rfl rfl rfl

end Bench

namespace Recording

variable {σ κ : Type} [WordSource σ] [Sink κ]

end Recording

end IdentifyBench

import IdentifyBench.Settings
import IdentifyBench.Source.Sample

/-! Where instruction words come from: a source answers each request with a word, or with nothing
once it is exhausted. -/
namespace IdentifyBench

class WordSource (σ : Type) where
  next : σ → Option Word × σ

instance : WordSource (List Word) where
  next
    | [] => (none, [])
    | word :: rest => (some word, rest)

instance : WordSource Generator where
  next g := let (sample, g) := (Sample.draw : StateM Generator Sample).run g; (some sample.word, g)

inductive Source
  | fixed (words : List Word)
  | random (generator : Generator)

namespace Source

instance : WordSource Source where
  next
    | .fixed words => let (word, words) := WordSource.next words; (word, .fixed words)
    | .random generator =>
      let (word, generator) := WordSource.next generator; (word, .random generator)

def ofSettings : SourceSettings → Source
  | .random seed => .random (.ofSeed seed)
  | .fixed words => .fixed words

end Source

namespace WordSource

variable {σ : Type} [WordSource σ]

def take : Nat → σ → List (Option Word)
  | 0, _ => []
  | n + 1, source => let (word, source) := next source; word :: take n source

end WordSource

end IdentifyBench

import Lindenmayer.Random.Source

/-!
# Prescribed words

A random source that hands out the words of a list, and zeros once the list is used up.
-/

namespace Lindenmayer

/-- The words still to be handed out. -/
structure WordList where
  words : List UInt64
  deriving DecidableEq

instance : WordSource WordList where
  next
    | ⟨[]⟩ => (0, ⟨[]⟩)
    | ⟨word :: words⟩ => (word, ⟨words⟩)

end Lindenmayer

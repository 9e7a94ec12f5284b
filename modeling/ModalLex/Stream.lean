import ModalLex.LexError

/-!
# Character streams

A stream is a sequence of characters with a cursor. The largest character that a negated
set takes is fixed here; streams themselves carry every character through unchanged.
-/
namespace ModalLex

/-- The smallest character that a recognition engine matches. -/
def minChar : Char := '\x00'

/-- The largest character that a negated set matches. -/
def maxChar : Char := '\uFFFE'

/-- A pin on a stream: while it is held, the stream keeps what was read since. -/
structure Mark where
  depth : Nat
  deriving DecidableEq, Repr

/-- A sequence of characters with a cursor. An operation that may fail returns the stream that it
leaves behind either way. -/
class CharStream (σ : Type) where
  index : σ → Nat
  /-- The character at a distance: `la s 1` is the next one, `la s (-1)` the last one
  consumed. Looking may make the stream read further. -/
  la : σ → Int → Option Char × σ
  /-- Step past the next character; fails at end of input. -/
  consume : σ → Except LexError Unit × σ
  /-- Pin the cursor's place so that `seek` can return to it. -/
  mark : σ → Mark × σ
  /-- Give a pin back, the most recent one first. -/
  release : σ → Mark → σ
  /-- Move the cursor; an index past the end means the end. -/
  seek : σ → Nat → Except LexError Unit × σ
  /-- The characters from `start` up to `stop` that the stream still holds. -/
  text : σ → (start stop : Nat) → String
  sourceName : σ → String
  /-- The number of characters of the whole input, which no index exceeds. -/
  extent : σ → Nat

/-- The source name of a stream built without one. -/
def unknownSource : String := "<unknown>"

end ModalLex

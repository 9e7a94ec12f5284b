import ModalLex.Stream

/-!
# Streams over a text in memory

Every index can be sought and marks cost nothing.
-/
namespace ModalLex

/-- A whole text with a cursor. -/
structure TextStream where
  chars : Array Char
  pos : Nat
  name : String
  deriving DecidableEq, Repr

namespace TextStream

def ofString (source name : String) : TextStream :=
  ⟨source.toList.toArray, 0, name⟩

def size (s : TextStream) : Nat := s.chars.size

/-- The character at a distance from the cursor; there is none at distance 0. -/
def peek? (s : TextStream) : Int → Option Char
  | .ofNat 0 => none
  | .ofNat (n + 1) => s.chars[s.pos + n]?
  | .negSucc n => if n + 1 ≤ s.pos then s.chars[s.pos - (n + 1)]? else none

def consume (s : TextStream) : Except LexError Unit × TextStream :=
  if s.pos < s.chars.size then (.ok (), { s with pos := s.pos + 1 })
  else (.error (.illegalState .consumeAtEnd), s)

def seek (s : TextStream) (index : Nat) : TextStream :=
  { s with pos := min index s.chars.size }

/-- The characters from `start` to `stop`, both cut to the text. -/
def slice (s : TextStream) (start stop : Nat) : String :=
  String.ofList (s.chars.extract start stop).toList

instance : CharStream TextStream where
  index s := s.pos
  la s n := (s.peek? n, s)
  consume := consume
  mark s := (⟨0⟩, s)
  release s _ := s
  seek s index := (.ok (), s.seek index)
  text := slice
  sourceName s := s.name
  extent s := s.chars.size

end TextStream

end ModalLex

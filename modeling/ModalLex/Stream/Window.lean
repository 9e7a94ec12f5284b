import ModalLex.Stream

/-!
# Streams over a window

The characters arrive on demand, and only what an outstanding mark or pending look-ahead
needs is held. The window is `held`, its first character has index `oldest`, and the cursor
stands `cursor` characters into it.
-/
namespace ModalLex

/-- A window on a text that is read once, front to back. -/
structure WindowStream where
  unread : List Char
  held : Array Char
  oldest : Nat
  cursor : Nat
  marks : Nat
  /-- The length of the whole text. -/
  total : Nat
  name : String
  deriving DecidableEq, Repr

namespace WindowStream

/-- A stream at the start of `source` with nothing read. -/
def ofString (source name : String) : WindowStream :=
  ⟨source.toList, #[], 0, 0, 0, source.length, name⟩

def index (s : WindowStream) : Nat := s.oldest + s.cursor

/-- Read on until the window holds `wanted` characters or the text ends. -/
def fill (s : WindowStream) (wanted : Nat) : WindowStream :=
  let missing := wanted - s.held.size
  { s with held := s.held ++ s.unread.take missing, unread := s.unread.drop missing }

/-- Forget the consumed characters unless a mark is outstanding. -/
def discard (s : WindowStream) : WindowStream :=
  if s.marks = 0 ∧ 0 < s.cursor then
    { s with
      held := s.held.extract s.cursor s.held.size
      oldest := s.oldest + s.cursor
      cursor := 0 }
  else s

def look (s : WindowStream) : Int → Option Char × WindowStream
  | .ofNat 0 => (none, s)
  | .ofNat (n + 1) =>
    let s := s.fill (s.cursor + (n + 1))
    (s.held[s.cursor + n]?, s)
  | .negSucc n => (if n + 1 ≤ s.cursor then s.held[s.cursor - (n + 1)]? else none, s)

def consume (s : WindowStream) : Except LexError Unit × WindowStream :=
  match s.look 1 with
  | (some _, s) => (.ok (), { s with cursor := s.cursor + 1 }.discard)
  | (none, s) => (.error (.illegalState .consumeAtEnd), s)

/-- Move the cursor past the window's end, over at most `missing` characters not yet read.
When there are none the window stays as it is. -/
def readOn (s : WindowStream) (missing : Nat) : WindowStream :=
  let s := s.fill (s.held.size + missing)
  { s with cursor := s.held.size }

/-- Move the cursor. The window's start is as far back as it can go; going on past its end
reads and consumes. -/
def seek (s : WindowStream) (index : Nat) : Except LexError Unit × WindowStream :=
  if index < s.oldest then (.error (.illegalState (.seekBeforeWindow index s.oldest)), s)
  else
    let offset := index - s.oldest
    if offset ≤ s.held.size then (.ok (), { s with cursor := offset }.discard)
    else if s.unread.isEmpty then (.ok (), { s with cursor := s.held.size })
    else (.ok (), (s.readOn (offset - s.held.size)).discard)

/-- The part of the characters from `start` to `stop` that the window holds. -/
def slice (s : WindowStream) (start stop : Nat) : String :=
  String.ofList (s.held.extract (start - s.oldest) (stop - s.oldest)).toList

instance : CharStream WindowStream where
  index := index
  la := look
  consume := consume
  mark s := (⟨s.marks + 1⟩, { s with marks := s.marks + 1 })
  release s _ := { s with marks := s.marks - 1 }.discard
  seek := seek
  text := slice
  sourceName s := s.name
  extent s := s.total

end WindowStream

end ModalLex

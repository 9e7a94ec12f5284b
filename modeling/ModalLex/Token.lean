import ModalLex.Display

/-!
# Tokens

A token carries a kind, a channel, its text and the span of characters it was made from.
Its one-line display is `[@first:last='text',<kind>,line:column]`, with the channel named
when it is not the default one.
-/
namespace ModalLex

/-- What sort of token this is. A grammar gives its rules kinds of 1 and above. -/
structure TokenKind where
  code : Int32
  deriving DecidableEq, Repr, Inhabited

def TokenKind.eof : TokenKind := ⟨-1⟩

def TokenKind.minUser : TokenKind := ⟨1⟩

/-- The side stream a token is sent to. Parsers usually read the default one only. -/
structure Channel where
  number : UInt32
  deriving DecidableEq, Repr, Inhabited

namespace Channel

def default : Channel := ⟨0⟩

/-- The channel of tokens kept for tools, such as comments. -/
def hidden : Channel := ⟨1⟩

def minUser : Channel := ⟨2⟩

end Channel

/-- A lexical mode, named by its place in the grammar. An id is a word of 32 bits, so that the place
is below 2^32: grammars are taken to have no more modes than that. -/
structure ModeId where
  index : Nat
  deriving DecidableEq, Repr, Inhabited

def ModeId.default : ModeId := ⟨0⟩

/-- The characters from `start` up to, not including, `stop`, and where the first of them
stands. Lines count from 1, columns from 0. -/
structure Span where
  start : Nat
  stop : Nat
  line : Nat
  column : Nat
  deriving DecidableEq, Repr, Inhabited

namespace Span

/-- The number of characters; none if the span is reversed. -/
def length (s : Span) : Nat := s.stop - s.start

def isEmpty (s : Span) : Bool := s.length == 0

def last? (s : Span) : Option Nat :=
  if s.start < s.stop then some (s.stop - 1) else none

/-- The index before `stop` as a signed word of 64 bits: -1 for a span that ends at 0. -/
def lastWord (s : Span) : Int :=
  Int.bmod (s.stop - 1) UInt64.size

end Span

structure Token where
  kind : TokenKind
  channel : Channel
  text : String
  span : Span
  sourceName : String
  deriving DecidableEq, Repr, Inhabited

namespace Token

def isEof (t : Token) : Bool := t.kind == .eof

/-- The text between the quotes of the display: the token's own, or `<EOF>`. -/
def displayText (t : Token) : String :=
  if t.isEof then showCharOrEof none else showText t.text

/-- The channel part of the display, absent on the default channel. -/
def displayChannel (t : Token) : String :=
  if t.channel = .default then "" else ",channel=" ++ toString t.channel.number.toNat

def display (t : Token) : String :=
  "[@" ++ toString t.span.start ++ ":" ++ toString t.span.lastWord
    ++ "='" ++ t.displayText ++ "',<" ++ toString t.kind.code.toInt ++ ">"
    ++ t.displayChannel
    ++ "," ++ toString t.span.line ++ ":" ++ toString t.span.column ++ "]"

end Token

end ModalLex

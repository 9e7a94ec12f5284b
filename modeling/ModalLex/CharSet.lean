import ModalLex.Stream
import ModalLex.Quoted

/-!
# Sets of characters

A set is described by a text such as `a-z_0-9`. The description is read in two steps. First
it is cut into symbols: a backslash and the character after it are one escaped symbol, any
other character is a plain one. Then the symbols are grouped into items from the left: a
symbol, a plain dash and a symbol are a range; anything else stands for itself.
-/
namespace ModalLex

inductive SetSymbol where
  | plain (c : Char)
  /-- A character after a backslash, as it is written. -/
  | escaped (c : Char)
  /-- A backslash that ends the description. -/
  | dangling
  deriving DecidableEq, Repr

inductive CharSetError where
  | danglingEscape
  | reversedRange (lo hi : Char)
  deriving DecidableEq, Repr

def CharSetError.message : CharSetError → String
  | .danglingEscape => "dangling escape"
  | .reversedRange lo hi => s!"range {quoted lo}-{quoted hi} is reversed"

/-- The character that an escape stands for. -/
def unescape : Char → Char
  | 'n' => '\n'
  | 't' => '\t'
  | 'r' => '\r'
  | c => c

namespace SetSymbol

def ofChars : List Char → List SetSymbol
  | [] => []
  | ['\\'] => [.dangling]
  | '\\' :: c :: rest => .escaped c :: ofChars rest
  | c :: rest => .plain c :: ofChars rest

def value : SetSymbol → Except CharSetError Char
  | .plain c => .ok c
  | .escaped c => .ok (unescape c)
  | .dangling => .error .danglingEscape

end SetSymbol

/-- A closed range of characters. -/
abbrev CharRange := Char × Char

def charRange (a b : SetSymbol) : Except CharSetError CharRange :=
  match a.value, b.value with
  | .error e, _ => .error e
  | .ok _, .error e => .error e
  | .ok lo, .ok hi => if hi < lo then .error (.reversedRange lo hi) else .ok (lo, hi)

/-- The ranges that symbols stand for, or the leftmost error. -/
def charRanges : List SetSymbol → Except CharSetError (List CharRange)
  | [] => .ok []
  | [a, .plain '-'] => (charRange a a).map fun r => [('-', '-'), r]
  | a :: .plain '-' :: b :: rest =>
    match charRange a b with
    | .error e => .error e
    | .ok r => (charRanges rest).map (r :: ·)
  | a :: rest =>
    match charRange a a with
    | .error e => .error e
    | .ok r => (charRanges rest).map (r :: ·)

/-- A set of characters: those of the ranges, or all others. -/
structure CharSet where
  ranges : List CharRange
  negated : Bool
  deriving DecidableEq, Repr

namespace CharSet

def parse (description : String) (negated : Bool) : Except CharSetError CharSet :=
  (charRanges (SetSymbol.ofChars description.toList)).map fun ranges => ⟨ranges, negated⟩

def lists (s : CharSet) (c : Char) : Bool :=
  s.ranges.any fun r => r.1 ≤ c && c ≤ r.2

/-- Membership. A negated set leaves out the characters above `maxChar`. -/
def contains (s : CharSet) (c : Char) : Bool :=
  if s.negated then !s.lists c && c ≤ maxChar else s.lists c

end CharSet

end ModalLex

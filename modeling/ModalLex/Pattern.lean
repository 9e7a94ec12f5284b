import ModalLex.CharSet

/-!
# Patterns

A pattern tells how many characters it takes at an offset from a stream's cursor; it
consumes nothing. Offset 0 is the next character, and a negative offset looks back at
characters already consumed. A look back never runs on past the cursor: the last character
consumed stands at distance -1 and the next one at distance 1, and at distance 0 there is
none. A repeated set takes as many members as it can and never gives one back.
-/
namespace ModalLex

inductive Pattern where
  | literal (chars : List Char)
  /-- Between `min` and `max` members of a set; without `max`, as many as there are. -/
  | set (members : CharSet) (min : Nat) (max : Option Nat)
  | seq (parts : List Pattern)
  deriving Repr

namespace Pattern

/-- The offset that a word of 64 bits stands for. The distance that follows it is read as a
signed word, so the largest words count back from the cursor. This is the machine word of a native
build; in a browser a machine word has 32 bits, and offsets count back from 2^31 - 1 on. -/
def offsetOfWord (word : UInt64) : Int := (word + 1).toInt64.toInt - 1

variable {σ : Type} [CharStream σ]

/-- Whether the characters from `offset` on begin with `chars`. -/
def startsWith : (chars : List Char) → (input : σ) → (offset : Int) → Bool × σ
  | [], input, _ => (true, input)
  | c :: rest, input, offset =>
    match CharStream.la input (offset + 1) with
    | (some d, input) => if d = c then startsWith rest input (offset + 1) else (false, input)
    | (none, input) => (false, input)

/-- The number of `members` from `offset` on, counting at most `limit`. -/
def countMembers (members : CharSet) : (limit : Nat) → (input : σ) → (offset : Int) → Nat × σ
  | 0, input, _ => (0, input)
  | limit + 1, input, offset =>
    match CharStream.la input (offset + 1) with
    | (some c, input) =>
      if members.contains c then
        let (n, input) := countMembers members limit input (offset + 1)
        (n + 1, input)
      else (0, input)
    | (none, input) => (0, input)

mutual

/-- The number of characters that a pattern takes from `offset` on, or nothing if it does
not match there. -/
def matchLength (input : σ) (offset : Int) : Pattern → Option Nat × σ
  | .literal chars =>
    let (found, input) := startsWith chars input offset
    (if found then some chars.length else none, input)
  | .set members min max =>
    let (n, input) := countMembers members (max.getD (CharStream.extent input)) input offset
    (if min ≤ n then some n else none, input)
  | .seq parts => matchLengths input offset parts

def matchLengths (input : σ) (offset : Int) : List Pattern → Option Nat × σ
  | [] => (some 0, input)
  | p :: rest =>
    match matchLength input offset p with
    | (none, input) => (none, input)
    | (some n, input) =>
      match matchLengths input (offset + n) rest with
      | (none, input) => (none, input)
      | (some m, input) => (some (n + m), input)

end

end Pattern

end ModalLex

import ModalLex.Stream
import ModalLex.Context

/-!
# Recognition engines

An engine finds what matches at the cursor of a stream, steps the stream over it and lets
the actions of the match change the context. It also keeps the line and the column of the
cursor.
-/
namespace ModalLex

/-- The line and the column of a cursor. Lines count from 1, columns from 0. -/
structure Position where
  line : Nat
  column : Nat
  deriving DecidableEq, Repr

namespace Position

def initial : Position := ⟨1, 0⟩

/-- The position after a character: only a line feed begins a new line. -/
def after (p : Position) (c : Option Char) : Position :=
  if c = some '\n' then ⟨p.line + 1, 0⟩ else ⟨p.line, p.column + 1⟩

variable {σ : Type} [CharStream σ]

/-- Step a stream over its next character and follow with the position. -/
def consume (p : Position) (input : σ) : Except LexError Unit × Position × σ :=
  let (c, input) := CharStream.la input 1
  match CharStream.consume input with
  | (.error e, input) => (.error e, p, input)
  | (.ok (), input) => (.ok (), p.after c, input)

/-- Step over `n` characters. What was stepped over before a failure stays consumed. -/
def consumeMany : Nat → Position → σ → Except LexError Unit × Position × σ
  | 0, p, input => (.ok (), p, input)
  | n + 1, p, input =>
    match p.consume input with
    | (.error e, p, input) => (.error e, p, input)
    | (.ok (), p, input) => consumeMany n p input

end Position

/-- What an engine found at the cursor. -/
inductive MatchOutcome where
  /-- Something matched, and the stream stands after it. -/
  | matched (pending : Pending)
  /-- Nothing matches at `start`; the engine gave up at `index`. -/
  | noViable (start index : Nat)
  deriving DecidableEq, Repr

/-- The answer of an engine, and what it left behind. -/
structure Recognition (ε σ : Type) where
  outcome : Except LexError MatchOutcome
  engine : ε
  input : σ
  context : Context

/-- The matcher that a lexer drives. -/
class RecognitionEngine (ε : Type) where
  /-- Match in `mode` at the cursor. With no characters left an engine matches the kind
  `TokenKind.eof`. -/
  matchToken {σ : Type} [CharStream σ] :
    ε → (input : σ) → (mode : ModeId) → Context → Recognition ε σ
  position : ε → Position
  withPosition : ε → Position → ε
  /-- The text from where the last match began up to the cursor. -/
  text {σ : Type} [CharStream σ] : ε → (input : σ) → String
  /-- Step over one character and follow with the position. -/
  consume {σ : Type} [CharStream σ] : ε → (input : σ) → Except LexError Unit × ε × σ
  reset : ε → ε
  modeNames : ε → List String
  /-- The names of token kinds by their code; a kind without a name has an empty one. -/
  kindNames : ε → Array String
  /-- How many matches the engine may still make that leave the cursor where it is. -/
  delay : ε → Nat

end ModalLex

import ModalLex.LexError
import ModalLex.ModeStack

/-!
# The state that rule actions may change

One token attempt is a run of rule firings that ends in a token, in a skip or in a report.
The context holds what the attempt has gathered so far, and the mode and mode stack, which
outlive it.
-/
namespace ModalLex

/-- What a firing asks of the lexer. -/
inductive Pending where
  | invalid
  | skip
  /-- Go on; the next firing's characters join this attempt. -/
  | more
  /-- Finish the attempt as a token of this kind. -/
  | valid (kind : TokenKind)
  deriving DecidableEq, Repr

structure TokenStart where
  index : Nat
  line : Nat
  column : Nat
  deriving DecidableEq, Repr

/-- The state that rule actions act on. -/
structure Context where
  mode : ModeId
  modeStack : ModeStack
  pending : Pending
  channel : Channel
  /-- A text to use instead of the matched characters. -/
  text : Option String
  /-- A token to use instead of the one the lexer would build. -/
  emitted : Option Token
  start : Option TokenStart
  deriving DecidableEq, Repr

namespace Context

def initial : Context := ⟨.default, .empty, .invalid, .default, none, none, none⟩

def skip (c : Context) : Context := { c with pending := .skip }

def more (c : Context) : Context := { c with pending := .more }

def setKind (c : Context) (kind : TokenKind) : Context := { c with pending := .valid kind }

def setChannel (c : Context) (channel : Channel) : Context := { c with channel }

def setText (c : Context) (text : String) : Context := { c with text := some text }

def setMode (c : Context) (mode : ModeId) : Context := { c with mode }

def pushMode (c : Context) (mode : ModeId) : Context :=
  { c with mode, modeStack := c.modeStack.push c.mode }

/-- Go back to the mode that was suspended last. -/
def popMode (c : Context) : Except LexError ModeId × Context :=
  match c.modeStack.pop with
  | (none, modeStack) => (.error .emptyModeStack, { c with modeStack })
  | (some mode, modeStack) => (.ok mode, { c with mode, modeStack })

def emit (c : Context) (token : Token) : Context := { c with emitted := some token }

/-- Forget what earlier attempts gathered; the mode and the stack stay. -/
def beginAttempt (c : Context) (start : TokenStart) : Context :=
  { c with channel := .default, text := none, emitted := none, start := some start }

end Context

end ModalLex

import ModalLex.Token

/-!
# Errors of lexing

Malformed input is no error here: it is reported to listeners and stepped over. These are
the causes that end a call, each with its one wording.
-/
namespace ModalLex

/-- A call that the state of the lexer, its input or a listener does not allow. -/
inductive Fault where
  | consumeAtEnd
  /-- A move to a character that the input no longer holds. -/
  | seekBeforeWindow (index oldest : Nat)
  /-- A mode that the grammar does not declare. -/
  | unknownMode (mode : ModeId)
  /-- A match that names neither a kind nor what to do next. -/
  | untypedMatch
  /-- An engine that goes on matching without reaching the end of the input. -/
  | stalled
  | custom (reason : String)
  deriving DecidableEq, Repr

def Fault.message : Fault → String
  | .consumeAtEnd => "cannot consume EOF"
  | .seekBeforeWindow index oldest =>
    s!"cannot seek to index {index}; oldest retained index is {oldest}"
  | .unknownMode mode => s!"unknown mode {mode.index}"
  | .untypedMatch => "recognition engine matched without a token type"
  | .stalled => "recognition engine made no progress"
  | .custom reason => reason

inductive LexError where
  | noInput
  | emptyModeStack
  | illegalState (fault : Fault)
  /-- A diagnostic that a listener turned into an error. -/
  | recognition (line column : Nat) (message : String)
  deriving DecidableEq, Repr

def LexError.message : LexError → String
  | .noInput => "no input stream attached"
  | .emptyModeStack => "pop_mode called with an empty mode stack"
  | .illegalState fault => s!"illegal state: {fault.message}"
  | .recognition line column message => s!"line {line}:{column} {message}"

end ModalLex

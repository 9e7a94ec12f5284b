import ModalLex.Tokens
import ModalLex.Stream.Text
import ModalLex.Engine.Rules

/-!
# Tokens of a whole text
-/
namespace ModalLex

/-- The tokens of a text, without the end token, and the diagnostics on the way. -/
structure Tokenization where
  tokens : List Token
  diagnostics : List Diagnostic
  deriving DecidableEq, Repr

namespace Tokenization

/-- The inbox that a tokenization collects diagnostics in. -/
def inbox : Nat := 1

/-- A lexer at the start of a text, which only collects diagnostics. -/
def lexer (g : Grammar) (source sourceName : String) : Lexer TextStream RuleEngine :=
  let input := TextStream.ofString source sourceName
  let lexer := Lexer.ofInput input (RuleEngine.ofGrammar g) TokenFactory.common
  lexer.removeListeners.addListener (.collector inbox)

end Tokenization

/-- The tokens of a text or the error that ended them, and the diagnostics either way. -/
def lexText (g : Grammar) (source sourceName : String) :
    Except LexError (List Token) × List Diagnostic :=
  let (r, lexer) := (Tokenization.lexer g source sourceName).allTokens
  (r, lexer.listeners.log.received Tokenization.inbox)

/-- The tokens and the diagnostics of a text, or the error that ended them. -/
def tokenize (g : Grammar) (source sourceName : String) : Except LexError Tokenization :=
  match lexText g source sourceName with
  | (.error e, _) => .error e
  | (.ok tokens, diagnostics) => .ok ⟨tokens, diagnostics⟩

end ModalLex

import ModalLex.Tokenization
import ModalLex.Grammar.Decode

/-!
# Tokens as plain records

For programs that hold both the grammar and the source as text: every token comes with the
name of its kind, and every error as its wording.
-/
namespace ModalLex

/-- A token with the name of its kind, empty if it has none. -/
structure TokenView where
  kind : TokenKind
  name : String
  text : String
  channel : Channel
  start : Nat
  stop : Nat
  line : Nat
  column : Nat
  deriving DecidableEq, Repr

def TokenView.ofToken (names : KindNames) (t : Token) : TokenView where
  kind := t.kind
  name := (names.name? t.kind).getD ""
  text := t.text
  channel := t.channel
  start := t.span.start
  stop := t.span.stop
  line := t.span.line
  column := t.span.column

structure DiagnosticView where
  line : Nat
  column : Nat
  message : String
  deriving DecidableEq, Repr

def DiagnosticView.ofDiagnostic (d : Diagnostic) : DiagnosticView :=
  ⟨d.line, d.column, d.message⟩

def version : String := "0.3.0"

/-- The tokens and diagnostics of a source under the grammar that a text spells, or the
wording of what went wrong. -/
def viewTokens (grammarText source : String) :
    Except String (List TokenView × List DiagnosticView) :=
  match Grammar.ofText grammarText with
  | .error e => .error e.message
  | .ok g =>
    match tokenize g source "<input>" with
    | .error e => .error e.message
    | .ok out =>
      let names := g.kindNames
      .ok (out.tokens.map (TokenView.ofToken names),
        out.diagnostics.map DiagnosticView.ofDiagnostic)

end ModalLex

import ModalLex.Stream

/-!
# Building tokens
-/
namespace ModalLex

structure TokenRequest where
  sourceName : String
  kind : TokenKind
  /-- A text to use instead of the characters of the span. -/
  text : Option String
  channel : Channel
  span : Span
  deriving DecidableEq, Repr

/-- A way to build tokens from requests; it may look at the input. -/
abbrev TokenFactory (σ : Type) := (input : σ) → TokenRequest → Token

namespace TokenFactory

variable {σ : Type} [CharStream σ]

/-- The token with the requested text, or else the characters of the span. -/
def common : TokenFactory σ := fun input r =>
  let text := match r.text with
    | some text => text
    | none =>
      if r.span.start < r.span.stop then CharStream.text input r.span.start r.span.stop else ""
  { kind := r.kind, channel := r.channel, text, span := r.span, sourceName := r.sourceName }

/-- A token whose text spells out the request and where the input stands. -/
def echo : TokenFactory σ := fun input r =>
  let fields :=
    [toString r.kind.code.toInt, r.text.getD "-", toString r.channel.number.toNat,
      toString r.span.start, toString r.span.stop, toString r.span.line,
      toString r.span.column, toString (CharStream.index input)]
  { kind := r.kind, channel := r.channel, text := "|".intercalate fields,
    span := r.span, sourceName := r.sourceName }

end TokenFactory

end ModalLex

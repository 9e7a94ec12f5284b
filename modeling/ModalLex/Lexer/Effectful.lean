import ModalLex.Lexer

/-!
# Factories with effects

A factory may do more than build a token: count its calls, or keep a list of them. The driver here
calls such a factory where the lexer calls its own, and goes as the lexer's does otherwise. It shows
when a factory is called, how often, and for what.
-/
namespace ModalLex.ActiveLexer

variable {σ ε : Type} [CharStream σ]

/-- What the factory is asked for an attempt that began at `start` and ends at the cursor. -/
def order (l : ActiveLexer σ ε) (kind : TokenKind) (start : TokenStart) : TokenRequest where
  sourceName := l.sourceName
  kind
  text := l.context.text
  channel := l.context.channel
  span := ⟨start.index, CharStream.index l.input, start.line, start.column⟩

variable [RecognitionEngine ε]

/-- What the factory is asked for an end token. -/
def endOrder (l : ActiveLexer σ ε) : TokenRequest where
  sourceName := l.sourceName
  kind := .eof
  text := none
  channel := .default
  span :=
    let index := CharStream.index l.input
    ⟨index, index, (RecognitionEngine.position l.engine).line, l.eofColumn⟩

variable {M : Type → Type} [Monad M] (create : (input : σ) → TokenRequest → M Token)

/-- Return the token that the factory makes. -/
def supply (l : ActiveLexer σ ε) (request : TokenRequest) :
    M (Except LexError Token × ActiveLexer σ ε) :=
  l.record <$> create l.input request

/-- Fire until an attempt ends in a token, in an error or at the end of the input. -/
def runWith : (fuel : Nat) → (start : TokenStart) → ActiveLexer σ ε →
    M (Except LexError Token × ActiveLexer σ ε)
  | 0, _, l => pure (.error (.illegalState .stalled), l)
  | fuel + 1, start, l =>
    match l.fire start with
    | (.failed e, l) => pure (.error e, l)
    | (.injected token, l) => pure (l.record token)
    | (.matched kind, l) => l.supply create (l.order kind start)
    | (.more, l) => runWith fuel start l
    | (.skipped, l) =>
      if l.hitEof then l.supply create l.endOrder else runWith fuel l.here l.begin

/-- The next token after at most `budget` firings, with the input pinned by the caller. -/
def searchWith (budget : Nat) (l : ActiveLexer σ ε) :
    M (Except LexError Token × ActiveLexer σ ε) :=
  if l.hitEof then l.supply create l.endOrder else runWith create budget l.here l.begin

/-- The next token after at most `budget` firings. -/
def nextTokenWith (budget : Nat) (l : ActiveLexer σ ε) :
    M (Except LexError Token × ActiveLexer σ ε) := do
  let s := l.toLexerState
  let (mark, input) := CharStream.mark l.input
  let (r, l) ← searchWith create budget { s with input }
  let s := l.toLexerState
  pure (r, { s with input := CharStream.release l.input mark })

end ModalLex.ActiveLexer

import ModalLex.Lexer

/-!
# Sequences of tokens

The tokens of a lexer up to, not including, the end token. The sequence also ends after its
first error.
-/
namespace ModalLex

/-- What remains of a lexer's sequence of tokens. -/
structure Tokens (σ ε : Type) where
  lexer : Lexer σ ε
  done : Bool

namespace Tokens

variable {σ ε : Type} [CharStream σ] [RecognitionEngine ε]

/-- The next token or error, or nothing once the sequence has ended. -/
def next (ts : Tokens σ ε) : Option (Except LexError Token) × Tokens σ ε :=
  if ts.done then (none, ts)
  else
    match ts.lexer.nextToken with
    | (.error e, lexer) => (some (.error e), ⟨lexer, true⟩)
    | (.ok token, lexer) =>
      if token.isEof then (none, ⟨lexer, true⟩) else (some (.ok token), ⟨lexer, false⟩)

def take : Nat → Tokens σ ε → List (Option (Except LexError Token)) × Tokens σ ε
  | 0, ts => ([], ts)
  | n + 1, ts =>
    let (first, ts) := ts.next
    let (rest, ts) := take n ts
    (first :: rest, ts)

/-- All tokens of the sequence, or its error. `fuel` bounds the calls of `next`. -/
def drain : (fuel : Nat) → Tokens σ ε → Except LexError (List Token) × Tokens σ ε
  | 0, ts => (.error (.illegalState .stalled), ts)
  | fuel + 1, ts =>
    match ts.next with
    | (none, ts) => (.ok [], ts)
    | (some (.error e), ts) => (.error e, ts)
    | (some (.ok token), ts) =>
      let (rest, ts) := drain fuel ts
      (rest.map (token :: ·), ts)

end Tokens

namespace Lexer

variable {σ ε : Type} [CharStream σ] [RecognitionEngine ε]

def tokens (l : Lexer σ ε) : Tokens σ ε := ⟨l, false⟩

/-- A number of tokens that the input never yields more of. -/
def patience (l : Lexer σ ε) : Nat :=
  RecognitionEngine.delay l.engine + (l.input.map CharStream.extent).getD 0 + 2

/-- All tokens up to the end of the input, without the end token. -/
def allTokens (l : Lexer σ ε) : Except LexError (List Token) × Lexer σ ε :=
  let (r, ts) := l.tokens.drain l.patience
  (r, ts.lexer)

end Lexer

end ModalLex

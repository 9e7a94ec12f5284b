import ModalLex.Engine
import ModalLex.Listener
import ModalLex.TokenFactory

/-!
# The lexer

A lexer looks for a token by attempts. An attempt is a run of firings of its engine: a
firing that asks for more continues it, one that asks to skip drops it, and one that names a
kind makes it a token. Where nothing matches, the attempt is reported to the listeners, one
character is dropped, and the next attempt begins. Once the end of the input has been seen
every further call returns the end token.
-/
namespace ModalLex

/-- What a lexer holds besides its input. -/
structure LexerState (σ ε : Type) where
  sourceName : String
  engine : ε
  factory : TokenFactory σ
  listeners : Listeners
  context : Context
  /-- Whether the end of the input has been seen. -/
  hitEof : Bool
  /-- The token returned last; a new attempt forgets it. -/
  token : Option Token

/-- A lexer at work on an input. -/
structure ActiveLexer (σ ε : Type) extends LexerState σ ε where
  input : σ

/-- A lexer, with or without an input. -/
structure Lexer (σ ε : Type) extends LexerState σ ε where
  input : Option σ

inductive Verdict where
  | skipped
  | more
  /-- The attempt ends with a token that an action supplied. -/
  | injected (token : Token)
  /-- The attempt ends with a token of this kind, yet to be built. -/
  | matched (kind : TokenKind)
  | failed (error : LexError)

variable {σ ε : Type} [CharStream σ] [RecognitionEngine ε]

namespace LexerState

/-- The diagnostic of an attempt that began at `start`: it shows the characters from there
through the one at the cursor. -/
def diagnostic (l : LexerState σ ε) (input : σ) (start : TokenStart) : Diagnostic where
  sourceName := l.sourceName
  line := start.line
  column := start.column
  message :=
    let text := CharStream.text input start.index (CharStream.index input + 1)
    "token recognition error at: '" ++ showText text ++ "'"

def report (l : LexerState σ ε) (input : σ) (start : TokenStart) :
    Except LexError Unit × LexerState σ ε :=
  let (r, listeners) := l.listeners.dispatch (l.diagnostic input start)
  (r, { l with listeners })

/-- The state of a lexer that has matched nothing. -/
def reset (l : LexerState σ ε) : LexerState σ ε :=
  { l with
    token := none
    hitEof := false
    context := .initial
    engine := RecognitionEngine.reset l.engine }

end LexerState

namespace ActiveLexer

def here (l : ActiveLexer σ ε) : TokenStart :=
  let p := RecognitionEngine.position l.engine
  ⟨CharStream.index l.input, p.line, p.column⟩

def begin (l : ActiveLexer σ ε) : ActiveLexer σ ε :=
  { l with context := l.context.beginAttempt l.here, token := none }

/-- Recover where nothing matches: step over one character unless there is none. -/
def recover (l : ActiveLexer σ ε) : Except LexError Unit × ActiveLexer σ ε :=
  let s := l.toLexerState
  match CharStream.la l.input 1 with
  | (none, input) => (.ok (), { s with input })
  | (some _, input) =>
    let (r, engine, input) := RecognitionEngine.consume s.engine input
    (r, { s with engine, input })

/-- Note whether the end of the input has been reached, and decide from what the actions
asked for, or else from what the match itself asks for. -/
def settle (l : ActiveLexer σ ε) (asked : Pending) : Verdict × ActiveLexer σ ε :=
  let s := l.toLexerState
  let (c, input) := CharStream.la l.input 1
  let pending := if s.context.pending = .invalid then asked else s.context.pending
  let l : ActiveLexer σ ε :=
    { s with input, hitEof := s.hitEof || c.isNone, context := { s.context with pending } }
  match pending with
  | .skip => (.skipped, l)
  | .more => (.more, l)
  | .invalid => (.failed (.illegalState .untypedMatch), l)
  | .valid kind =>
    match l.context.emitted with
    | some token => (.injected token, { l with context := { l.context with emitted := none } })
    | none => (.matched kind, l)

/-- Report the attempt that began at `start`, recover, and drop it. -/
def giveUp (l : ActiveLexer σ ε) (start : TokenStart) : Verdict × ActiveLexer σ ε :=
  match l.toLexerState.report l.input start with
  | (.error e, s) => (.failed e, { s with input := l.input })
  | (.ok (), s) =>
    match recover { s with input := l.input } with
    | (.error e, l) => (.failed e, l)
    | (.ok (), l) => l.settle .skip

/-- One firing of the engine, for the attempt that began at `start`. -/
def fire (l : ActiveLexer σ ε) (start : TokenStart) : Verdict × ActiveLexer σ ε :=
  let s := l.toLexerState
  let r := RecognitionEngine.matchToken s.engine l.input s.context.mode
    { s.context with pending := .invalid }
  let l : ActiveLexer σ ε :=
    { s with engine := r.engine, input := r.input, context := r.context }
  match r.outcome with
  | .error e => (.failed e, l)
  | .ok (.matched pending) => l.settle pending
  | .ok (.noViable _ _) => l.giveUp start

def record (l : ActiveLexer σ ε) (token : Token) : Except LexError Token × ActiveLexer σ ε :=
  (.ok token, { l with token := some token })

/-- The token of an attempt that began at `start` and ends at the cursor. -/
def build (l : ActiveLexer σ ε) (kind : TokenKind) (start : TokenStart) : Token :=
  l.factory l.input
    { sourceName := l.sourceName
      kind
      text := l.context.text
      channel := l.context.channel
      span := ⟨start.index, CharStream.index l.input, start.line, start.column⟩ }

/-- The column of the end token: that of the last token, moved by the characters it spans,
or else the engine's. -/
def eofColumn (l : ActiveLexer σ ε) : Nat :=
  match l.token with
  | some last => last.span.column + last.span.length
  | none => (RecognitionEngine.position l.engine).column

/-- Return an end token, on an empty span at the cursor. -/
def emitEof (l : ActiveLexer σ ε) : Except LexError Token × ActiveLexer σ ε :=
  let index := CharStream.index l.input
  l.record <| l.factory l.input
    { sourceName := l.sourceName
      kind := .eof
      text := none
      channel := .default
      span := ⟨index, index, (RecognitionEngine.position l.engine).line, l.eofColumn⟩ }

/-- Fire until an attempt ends in a token, in an error or at the end of the input. `fuel`
bounds the firings. -/
def run : (fuel : Nat) → (start : TokenStart) → ActiveLexer σ ε →
    Except LexError Token × ActiveLexer σ ε
  | 0, _, l => (.error (.illegalState .stalled), l)
  | fuel + 1, start, l =>
    match l.fire start with
    | (.failed e, l) => (.error e, l)
    | (.injected token, l) => l.record token
    | (.matched kind, l) => l.record (l.build kind start)
    | (.more, l) => run fuel start l
    | (.skipped, l) => if l.hitEof then l.emitEof else run fuel l.here l.begin

/-- A number of firings that a token never needs more of. -/
def patience (l : ActiveLexer σ ε) : Nat :=
  RecognitionEngine.delay l.engine + CharStream.extent l.input + 1

/-- The next token, with the input pinned by the caller. -/
def search (l : ActiveLexer σ ε) : Except LexError Token × ActiveLexer σ ε :=
  if l.hitEof then l.emitEof else run l.patience l.here l.begin

/-- The next token. The input is pinned where the call begins, so that all its characters
are there when the token is built, and let go however the call ends. -/
def nextToken (l : ActiveLexer σ ε) : Except LexError Token × ActiveLexer σ ε :=
  let s := l.toLexerState
  let (mark, input) := CharStream.mark l.input
  let (r, l) := search { s with input }
  let s := l.toLexerState
  (r, { s with input := CharStream.release l.input mark })

end ActiveLexer

namespace Lexer

/-- A lexer with no input yet, which shows diagnostics on the console. -/
def detached (engine : ε) (factory : TokenFactory σ) : Lexer σ ε where
  sourceName := unknownSource
  engine
  factory
  listeners := Listeners.empty.add .console
  context := .initial
  hitEof := false
  token := none
  input := none

def ofInput (input : σ) (engine : ε) (factory : TokenFactory σ) : Lexer σ ε :=
  { detached engine factory with
    sourceName := CharStream.sourceName input
    input := some input }

/-- The next token; at the end of the input, the end token. -/
def nextToken (l : Lexer σ ε) : Except LexError Token × Lexer σ ε :=
  let s := l.toLexerState
  match l.input with
  | none => (.error .noInput, { s with input := none })
  | some input =>
    let (r, l) := ActiveLexer.nextToken { s with input }
    (r, { l.toLexerState with input := some l.input })

/-- Report the current attempt, or the cursor's place if there is none, to the listeners. -/
def notify (l : Lexer σ ε) : Except LexError Unit × Lexer σ ε :=
  match l.input with
  | none => (.error .noInput, l)
  | some input =>
    let start := l.context.start.getD (ActiveLexer.here { l.toLexerState with input })
    let (r, s) := l.toLexerState.report input start
    (r, { s with input := some input })

/-- Step over one character as after a failed match, unless there is none. -/
def recoverNoViable (l : Lexer σ ε) : Except LexError Unit × Lexer σ ε :=
  match l.input with
  | none => (.error .noInput, l)
  | some input =>
    let (r, a) := ActiveLexer.recover { l.toLexerState with input }
    (r, { a.toLexerState with input := some a.input })

/-- Step over one character as after a failed action: the position does not follow, and at
the end of the input it is an error. -/
def recoverRuleFailure (l : Lexer σ ε) : Except LexError Unit × Lexer σ ε :=
  match l.input with
  | none => (.error .noInput, l)
  | some input =>
    let (r, input) := CharStream.consume input
    (r, { l with input := some input })

/-- Go back to the start of the input with nothing matched. Where the input no longer holds its
start, all that was matched stays. -/
def reset (l : Lexer σ ε) : Except LexError Unit × Lexer σ ε :=
  match l.input with
  | none => (.ok (), { l.toLexerState.reset with input := none })
  | some input =>
    match CharStream.seek input 0 with
    | (.error e, input) => (.error e, { l with input := some input })
    | (.ok (), input) => (.ok (), { l.toLexerState.reset with input := some input })

def setInput (l : Lexer σ ε) (input : σ) : Lexer σ ε :=
  { l.toLexerState.reset with
    sourceName := CharStream.sourceName input
    input := some input }

/-- Let go of the input; its name stays. -/
def detach (l : Lexer σ ε) : Lexer σ ε :=
  { l.toLexerState.reset with input := none }

/-- Take another input. The one before comes back as it stood, not rewound. -/
def replaceInput (l : Lexer σ ε) (input : σ) : Option σ × Lexer σ ε :=
  (l.input, l.setInput input)

/-- Let go of the input, which comes back as it stood. -/
def takeInput (l : Lexer σ ε) : Option σ × Lexer σ ε :=
  (l.input, l.detach)

def addListener (l : Lexer σ ε) (listener : Listener) : Lexer σ ε :=
  { l with listeners := l.listeners.add listener }

def removeListeners (l : Lexer σ ε) : Lexer σ ε :=
  { l with listeners := l.listeners.removeAll }

def mapContext (l : Lexer σ ε) (f : Context → Context) : Lexer σ ε :=
  { l with context := f l.context }

def charIndex (l : Lexer σ ε) : Nat :=
  match l.input with
  | none => 0
  | some input => CharStream.index input

def position (l : Lexer σ ε) : Position := RecognitionEngine.position l.engine

def setPosition (l : Lexer σ ε) (p : Position) : Lexer σ ε :=
  { l with engine := RecognitionEngine.withPosition l.engine p }

/-- The text that replaces the matched one, if there is one, and else what the last match
covers. -/
def text (l : Lexer σ ε) : String :=
  match l.context.text, l.input with
  | some text, _ => text
  | none, some input => RecognitionEngine.text l.engine input
  | none, none => ""

/-- The characters from `start` to `stop` that the input still holds. -/
def inputText? (l : Lexer σ ε) (start stop : Nat) : Option String :=
  l.input.map fun input => CharStream.text input start stop

end Lexer

end ModalLex

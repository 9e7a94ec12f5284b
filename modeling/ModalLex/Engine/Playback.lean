import ModalLex.Engine
import ModalLex.Grammar

/-!
# Playing back a script

This engine matches nothing by itself. It plays one cue of a script for each match asked of
it, and thus shows how a lexer deals with any behaviour of an engine. Once the script is
over it finds nothing until the end of the input.
-/
namespace ModalLex

inductive Edit where
  | action (action : Action)
  | emit (token : Token)
  deriving DecidableEq, Repr

namespace Edit

def apply (c : Context) : Edit → Except LexError Unit × Context
  | .action a => a.apply c
  | .emit token => (.ok (), c.emit token)

/-- Make changes in order up to the first that fails. -/
def applyAll (c : Context) : List Edit → Except LexError Unit × Context
  | [] => (.ok (), c)
  | e :: rest =>
    match apply c e with
    | (.error error, c) => (.error error, c)
    | (.ok (), c) => applyAll c rest

end Edit

inductive CueEnd where
  | matched (pending : Pending)
  | noViable
  | fail (reason : String)
  deriving DecidableEq, Repr

/-- One cue: steps over characters, with the position following and without, a move of the
cursor, changes to the context, and an answer. The first failure ends it. -/
structure Cue where
  consume : Nat
  consumeRaw : Nat
  seek : Option Nat
  edits : List Edit
  answer : CueEnd
  deriving DecidableEq, Repr

/-- An engine that plays back a script. -/
structure Playback where
  script : List Cue
  rest : List Cue
  position : Position
  start : Nat
  deriving DecidableEq, Repr

namespace Playback

def ofScript (script : List Cue) : Playback := ⟨script, script, .initial, 0⟩

variable {σ : Type} [CharStream σ]

/-- Step over `n` characters without a position. -/
def skipMany : Nat → σ → Except LexError Unit × σ
  | 0, input => (.ok (), input)
  | n + 1, input =>
    match CharStream.consume input with
    | (.error e, input) => (.error e, input)
    | (.ok (), input) => skipMany n input

/-- Move the cursor if a cue says where to. -/
def moveTo (index : Option Nat) (input : σ) : Except LexError Unit × σ :=
  match index with
  | none => (.ok (), input)
  | some index => CharStream.seek input index

/-- The answer of a cue, where everything before it went well. -/
def answer (start : Nat) (input : σ) : CueEnd → Except LexError MatchOutcome
  | .matched pending => .ok (.matched pending)
  | .noViable => .ok (.noViable start (CharStream.index input))
  | .fail reason => .error (.illegalState (.custom reason))

def play (e : Playback) (input : σ) (context : Context) (cue : Cue) :
    Recognition Playback σ :=
  match e.position.consumeMany cue.consume input with
  | (.error error, position, input) => ⟨.error error, { e with position }, input, context⟩
  | (.ok (), position, input) =>
    let e := { e with position }
    match skipMany cue.consumeRaw input with
    | (.error error, input) => ⟨.error error, e, input, context⟩
    | (.ok (), input) =>
      match moveTo cue.seek input with
      | (.error error, input) => ⟨.error error, e, input, context⟩
      | (.ok (), input) =>
        match Edit.applyAll context cue.edits with
        | (.error error, context) => ⟨.error error, e, input, context⟩
        | (.ok (), context) => ⟨answer e.start input cue.answer, e, input, context⟩

/-- Play the next cue. After the last one, match the end of the input and nothing else. -/
def matchToken (e : Playback) (input : σ) (_ : ModeId) (context : Context) :
    Recognition Playback σ :=
  let start := CharStream.index input
  match e.rest with
  | cue :: rest => play { e with start, rest } input context cue
  | [] =>
    let e := { e with start }
    match CharStream.la input 1 with
    | (none, input) => ⟨.ok (.matched (.valid .eof)), e, input, context⟩
    | (some _, input) =>
      ⟨.ok (.noViable start (CharStream.index input)), e, input, context⟩

instance : RecognitionEngine Playback where
  matchToken := matchToken
  position e := e.position
  withPosition e position := { e with position }
  text e input := CharStream.text input e.start (CharStream.index input)
  consume e input :=
    let (r, position, input) := e.position.consume input
    (r, { e with position }, input)
  reset e := { e with rest := e.script, position := .initial, start := 0 }
  modeNames _ := []
  kindNames _ := #[]
  delay e := e.rest.length

end Playback

end ModalLex

import ModalLex.Engine
import ModalLex.Grammar

/-!
# Matching the rules of a grammar

The rule of the current mode that takes the most characters wins; among equals it is the one
declared first. A rule that takes nothing never wins.
-/
namespace ModalLex

structure RuleEngine where
  grammar : Grammar
  position : Position
  start : Nat

namespace RuleEngine

def ofGrammar (grammar : Grammar) : RuleEngine := ⟨grammar, .initial, 0⟩

variable {σ : Type} [CharStream σ]

/-- The better of the best match so far and a later rule's match. -/
def better (best : Option (Rule × Nat)) (rule : Rule) : Option Nat → Option (Rule × Nat)
  | none => best
  | some n =>
    if n = 0 then best
    else
      match best with
      | none => some (rule, n)
      | some (_, longest) => if longest < n then some (rule, n) else best

/-- The winner among the best match so far and the rules after it, with its length. -/
def longest (best : Option (Rule × Nat)) (input : σ) :
    List Rule → Option (Rule × Nat) × σ
  | [] => (best, input)
  | rule :: rest =>
    let (n, input) := rule.pattern.matchLength input 0
    longest (better best rule n) input rest

/-- What a rule's match asks of the lexer when its actions ask nothing. -/
def asks (rule : Rule) : Pending :=
  match rule.kind with
  | some kind => .valid kind
  | none => .skip

/-- Step over a winning match and run its actions. -/
def accept (e : RuleEngine) (input : σ) (context : Context) (rule : Rule) (length : Nat) :
    Recognition RuleEngine σ :=
  match e.position.consumeMany length input with
  | (.error error, position, input) => ⟨.error error, { e with position }, input, context⟩
  | (.ok (), position, input) =>
    let e := { e with position }
    match Action.applyAll context rule.actions with
    | (.error error, context) => ⟨.error error, e, input, context⟩
    | (.ok (), context) => ⟨.ok (.matched (asks rule)), e, input, context⟩

def matchToken (e : RuleEngine) (input : σ) (mode : ModeId) (context : Context) :
    Recognition RuleEngine σ :=
  let start := CharStream.index input
  let e := { e with start }
  match CharStream.la input 1 with
  | (none, input) => ⟨.ok (.matched (.valid .eof)), e, input, context⟩
  | (some _, input) =>
    match e.grammar.mode? mode with
    | none => ⟨.error (.illegalState (.unknownMode mode)), e, input, context⟩
    | some m =>
      match longest none input m.rules with
      | (none, input) =>
        ⟨.ok (.noViable start (CharStream.index input)), e, input, context⟩
      | (some (rule, length), input) => e.accept input context rule length

instance : RecognitionEngine RuleEngine where
  matchToken := matchToken
  position e := e.position
  withPosition e position := { e with position }
  text e input := CharStream.text input e.start (CharStream.index input)
  consume e input :=
    let (r, position, input) := e.position.consume input
    (r, { e with position }, input)
  reset e := { e with position := .initial, start := 0 }
  modeNames e := e.grammar.modeNames
  kindNames e := e.grammar.kindNames.slots
  delay _ := 0

end RuleEngine

end ModalLex

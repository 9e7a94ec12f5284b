import ModalLex.Tokenization
import ModalLex.Proofs.Lexer.Fired

/-!
# The attempts of a run

The driver's loops seen from the side: the same calls, the same firings, but what is kept is
one entry per attempt, with the rules that fired in it, the diagnostics delivered during it and
how it ended. An end token that answers a call made where no characters are left belongs to no
attempt.
-/
namespace ModalLex

inductive Ending where
  | token (token : Token)
  | skipped
  /-- No rule matched, and one character was dropped. -/
  | unmatched
  /-- Its last rule asked for more where the input ends; the end token was made of it. -/
  | unfinished (token : Token)
  | failed (error : LexError)

/-- An attempt on the characters from `start` up to `stop`. -/
structure Attempt where
  start : Nat
  stop : Nat
  fired : List Rule
  reported : List Diagnostic
  ending : Ending

namespace Attempt

/-- The token that the attempt returned, the end token apart. -/
def token? (t : Attempt) : Option Token :=
  match t.ending with
  | .token token => some token
  | _ => none

/-- The end token, where it was made of the attempt. -/
def endToken? (t : Attempt) : Option Token :=
  match t.ending with
  | .unfinished token => some token
  | _ => none

/-- The tokens that attempts return, or the error that one of them ended in. -/
def returned : List Attempt → Except LexError (List Token)
  | [] => .ok []
  | t :: rest =>
    match t.ending with
    | .failed e => .error e
    | .token token => (returned rest).map (token :: ·)
    | .skipped | .unmatched | .unfinished _ => returned rest

/-- What a tokenization with these attempts comes to. -/
def outcome (attempts : List Attempt) : Except LexError Tokenization :=
  (returned attempts).map fun tokens => ⟨tokens, attempts.flatMap reported⟩

end Attempt

/-- What is known of an attempt while it is under way. -/
structure Begun where
  start : TokenStart
  fired : List Rule
  /-- The number of deliveries before the attempt. -/
  delivered : Nat

namespace Begun

/-- The attempt after another firing, of a rule or of none. -/
def after (o : Begun) (picked : Option Rule) : Begun := { o with fired := o.fired ++ picked.toList }

@[simp]
theorem after_none (o : Begun) : o.after none = o := by
  rw [after, Option.toList_none, List.append_nil]

end Begun

variable {σ : Type} [CharStream σ]

/-- The attempt as it stands when a firing has ended it. -/
def Begun.ended (o : Begun) (l : ActiveLexer σ RuleEngine) (ending : Ending) : Attempt where
  start := o.start.index
  stop := CharStream.index l.input
  fired := o.fired
  reported := (l.listeners.log.entries.toList.drop o.delivered).map Prod.snd
  ending

namespace ActiveLexer

def begun (l : ActiveLexer σ RuleEngine) : Begun where
  start := l.here
  fired := []
  delivered := l.listeners.log.entries.size

def pick (l : ActiveLexer σ RuleEngine) : Option Rule :=
  match l.engine.grammar.mode? l.context.mode with
  | none => none
  | some m => (RuleEngine.longest none l.input m.rules).1.map Prod.fst

/-- The rule that is about to fire is the winner in the current mode. -/
theorem Working.pick_eq {σ : Type} [CharStream σ] [LawfulView σ] {src : List Char} {kept : Nat}
    {l : ActiveLexer σ RuleEngine} (h : Working src kept l) :
    l.pick = (winner? (l.engine.grammar.rulesOf l.context.mode)
      (src.drop (CharStream.index l.input))).map Prod.fst := by
  rw [pick, Grammar.rulesOf]
  cases l.engine.grammar.mode? l.context.mode with
  | none => rfl
  | some md =>
    obtain ⟨t, ht, -⟩ := RuleEngine.longest_eq h.shows md.rules
    simp only [ht]

/-- The attempts that `run` makes, the first of which is under way. -/
def runAttempts : (fuel : Nat) → (o : Begun) → ActiveLexer σ RuleEngine → List Attempt
  | 0, _, _ => []
  | fuel + 1, o, l =>
    let picked := l.pick
    let o := o.after picked
    match l.fire o.start with
    | (.failed e, l) => [o.ended l (.failed e)]
    | (.injected token, l) => [o.ended l (.token token)]
    | (.matched kind, l) =>
      match picked with
      | some _ => [o.ended l (.token (l.build kind o.start))]
      -- Without a rule it was the engine that matched, the end of the input.
      | none => if o.fired.isEmpty then [] else [o.ended l (.unfinished (l.build kind o.start))]
    | (.more, l) => runAttempts fuel o l
    | (.skipped, l) =>
      o.ended l (if picked.isSome then .skipped else .unmatched) ::
        if l.hitEof then [] else runAttempts fuel l.begun l.begin

section

variable {l l' : ActiveLexer σ RuleEngine} {o : Begun} {r : Rule} (fuel : Nat)

theorem runAttempts_failed {e : LexError} (hf : l.fire o.start = (.failed e, l')) :
    runAttempts (fuel + 1) o l = [(o.after l.pick).ended l' (.failed e)] := by
  have hs : (o.after l.pick).start = o.start := rfl
  simp only [runAttempts, hs, hf]

theorem runAttempts_token (hp : l.pick = some r) {kind : TokenKind}
    (hf : l.fire o.start = (.matched kind, l')) :
    runAttempts (fuel + 1) o l =
      [(o.after (some r)).ended l' (.token (l'.build kind o.start))] := by
  have hs : (o.after (some r)).start = o.start := rfl
  simp only [runAttempts, hp, hs, hf]

theorem runAttempts_end (hp : l.pick = none) {kind : TokenKind}
    (hf : l.fire o.start = (.matched kind, l')) :
    runAttempts (fuel + 1) o l =
      if o.fired.isEmpty then [] else [o.ended l' (.unfinished (l'.build kind o.start))] := by
  simp only [runAttempts, hp, Begun.after_none, hf]

theorem runAttempts_more (hp : l.pick = some r) (hf : l.fire o.start = (.more, l')) :
    runAttempts (fuel + 1) o l = runAttempts fuel (o.after (some r)) l' := by
  have hs : (o.after (some r)).start = o.start := rfl
  simp only [runAttempts, hp, hs, hf]

/-- The attempt is dropped, with a rule or without one. -/
theorem runAttempts_dropped (hf : l.fire o.start = (.skipped, l')) :
    runAttempts (fuel + 1) o l =
      (o.after l.pick).ended l' (if l.pick.isSome then .skipped else .unmatched) ::
        if l'.hitEof then [] else runAttempts fuel l'.begun l'.begin := by
  have hs : (o.after l.pick).start = o.start := rfl
  simp only [runAttempts, hs, hf]

theorem runAttempts_skipped (hp : l.pick = some r) (hf : l.fire o.start = (.skipped, l')) :
    runAttempts (fuel + 1) o l =
      (o.after (some r)).ended l' .skipped ::
        if l'.hitEof then [] else runAttempts fuel l'.begun l'.begin := by
  rw [runAttempts_dropped fuel hf, hp]
  rfl

theorem runAttempts_unmatched (hp : l.pick = none) (hf : l.fire o.start = (.skipped, l')) :
    runAttempts (fuel + 1) o l =
      o.ended l' .unmatched :: if l'.hitEof then [] else runAttempts fuel l'.begun l'.begin := by
  rw [runAttempts_dropped fuel hf, hp, Begun.after_none]
  rfl

end

def searchAttempts (l : ActiveLexer σ RuleEngine) : List Attempt :=
  if l.hitEof then [] else runAttempts l.patience l.begun l.begin

end ActiveLexer

def Lexer.attempts (l : Lexer σ RuleEngine) : List Attempt :=
  match l.input with
  | none => []
  | some input =>
    ActiveLexer.searchAttempts { l.toLexerState with input := (CharStream.mark input).2 }

def Tokens.attempts : (fuel : Nat) → Tokens σ RuleEngine → List Attempt
  | 0, _ => []
  | fuel + 1, ts =>
    if ts.done then [] else ts.lexer.attempts ++ attempts fuel ts.next.2

/-- The attempts that a tokenization makes. -/
def Tokenization.attempts (g : Grammar) (source sourceName : String) : List Attempt :=
  let l := Tokenization.lexer g source sourceName
  l.tokens.attempts l.patience

end ModalLex

import ModalLex.Proofs.Lexer.Session

/-!
# What attempts leave behind

A context outlives the attempt that filled it, and a caller may fill it between calls. What it then
holds besides the modes reaches no later attempt, whatever the engine and the stream: an attempt
begins with a fresh channel, text and supplied token, a firing with nothing asked for, and an end
token is built without a look at any of them.
-/
namespace ModalLex

/-- What an attempt, or a caller between calls, may have left in a context. -/
structure Leftovers where
  pending : Pending
  channel : Channel
  text : Option String
  emitted : Option Token

def Context.leftovers (c : Context) : Leftovers := ⟨c.pending, c.channel, c.text, c.emitted⟩

/-- The context with these leftovers in place of its own. -/
def Context.leaving (c : Context) (x : Leftovers) : Context :=
  { c with pending := x.pending, channel := x.channel, text := x.text, emitted := x.emitted }

/-- Actions on what lasts no longer than an attempt. -/
def Action.isPassing : Action → Bool
  | .skip | .more | .kind _ | .channel _ | .text _ => true
  | .popMode | .pushMode _ | .mode _ => false

def Request.isPassing : Request → Bool
  | .act action => action.isPassing
  | .next | .take _ | .all | .setPosition _ | .notify | .recoverNoViable | .recoverRuleFailure
  | .reset | .addListener _ | .removeListeners => false

namespace Action

/-- A passing action succeeds, and changes nothing but what is left. -/
theorem apply_passing {a : Action} (ha : a.isPassing = true) (c : Context) :
    ∃ x, apply c a = (.ok (), c.leaving x) := by
  cases a with
  | skip => exact ⟨{ c.leftovers with pending := .skip }, rfl⟩
  | more => exact ⟨{ c.leftovers with pending := .more }, rfl⟩
  | kind k => exact ⟨{ c.leftovers with pending := .valid k }, rfl⟩
  | channel ch => exact ⟨{ c.leftovers with channel := ch }, rfl⟩
  | text t => exact ⟨{ c.leftovers with text := some t }, rfl⟩
  | popMode | pushMode | mode => contradiction

/-- No action depends on what is left. -/
theorem apply_leaving (c : Context) (x : Leftovers) (a : Action) :
    ∃ y, apply (c.leaving x) a = ((apply c a).1, (apply c a).2.leaving y) := by
  cases hp : a.isPassing with
  | true =>
    obtain ⟨y, hy⟩ := apply_passing hp c
    obtain ⟨z, hz⟩ := apply_passing hp (c.leaving x)
    rw [hy, hz]
    exact ⟨z, rfl⟩
  | false =>
    refine ⟨x, ?_⟩
    cases a with
    | popMode =>
      have hs : (c.leaving x).modeStack = c.modeStack := rfl
      simp only [apply, Context.popMode, hs]
      rcases c.modeStack.pop with ⟨_ | mode, stack⟩ <;> rfl
    | pushMode | mode => rfl
    | skip | more | kind | channel | text => contradiction

end Action

variable {σ ε : Type}

def ActiveLexer.leaving (a : ActiveLexer σ ε) (x : Leftovers) : ActiveLexer σ ε :=
  { a with context := a.context.leaving x }

def Lexer.leaving (l : Lexer σ ε) (x : Leftovers) : Lexer σ ε :=
  { l with context := l.context.leaving x }

variable [CharStream σ] [RecognitionEngine ε]

namespace ActiveLexer

/-- A firing begins with nothing asked for. -/
theorem fire_pending (a : ActiveLexer σ ε) (pending : Pending) (start : TokenStart) :
    fire { a with context := { a.context with pending } } start = a.fire start := rfl

/-- An attempt begins alike whatever is left, and so does all that comes after it. -/
theorem run_leaving (a : ActiveLexer σ ε) (x : Leftovers) (fuel : Nat) :
    (a.leaving x).begin.run (fuel + 1) (a.leaving x).here = a.begin.run (fuel + 1) a.here := by
  have hbegin : (a.leaving x).begin =
      { a.begin with context := { a.begin.context with pending := x.pending } } := rfl
  have hhere : (a.leaving x).here = a.here := rfl
  rw [run, run, hhere, hbegin, fire_pending]

theorem search_leaving (a : ActiveLexer σ ε) (x : Leftovers) :
    ∃ y, (a.leaving x).search = (a.search.1, a.search.2.leaving y) := by
  have hflag : (a.leaving x).hitEof = a.hitEof := rfl
  rw [search, search, hflag]
  cases a.hitEof with
  | true => exact ⟨x, rfl⟩
  | false =>
    have hrun : (a.leaving x).begin.run (a.leaving x).patience (a.leaving x).here =
        a.begin.run a.patience a.here := run_leaving a x _
    exact ⟨(a.begin.run a.patience a.here).2.context.leftovers, hrun⟩

theorem recover_leaving (a : ActiveLexer σ ε) (x : Leftovers) :
    (a.leaving x).recover = (a.recover.1, a.recover.2.leaving x) := by
  have hinput : (a.leaving x).input = a.input := rfl
  have hengine : (a.leaving x).engine = a.engine := rfl
  rw [recover, recover, hinput, hengine]
  rcases CharStream.la a.input 1 with ⟨_ | c, input⟩ <;> rfl

end ActiveLexer

namespace Lexer

theorem nextToken_leaving (l : Lexer σ ε) (x : Leftovers) :
    ∃ y, (l.leaving x).nextToken = (l.nextToken.1, l.nextToken.2.leaving y) := by
  obtain ⟨state, input⟩ := l
  cases input with
  | none => exact ⟨x, rfl⟩
  | some input =>
    let a : ActiveLexer σ ε := { state with input }
    obtain ⟨y, hy⟩ := a.pinned.search_leaving x
    refine ⟨y, ?_⟩
    change ((a.leaving x).nextToken.1, (a.leaving x).nextToken.2.toLexer) = _
    rw [ActiveLexer.nextToken_eq]
    exact congrArg (fun c => (c.1, (c.2.unpinned (CharStream.mark input).1).toLexer)) hy

/-- What is left as a call begins shows in its answer as little as in those after it. -/
theorem calls_leaving (l : Lexer σ ε) (x : Leftovers) (n : Nat) :
    ((l.leaving x).calls n).map Prod.fst = (l.calls n).map Prod.fst := by
  induction n generalizing l x with
  | zero => rfl
  | succ n ih =>
    obtain ⟨y, hy⟩ := l.nextToken_leaving x
    rw [calls, calls, List.map_cons, List.map_cons, hy]
    dsimp only
    rw [ih]

end Lexer

namespace Tokens

def leaving (ts : Tokens σ ε) (x : Leftovers) : Tokens σ ε := ⟨ts.lexer.leaving x, ts.done⟩

theorem next_leaving (ts : Tokens σ ε) (x : Leftovers) :
    ∃ y, (ts.leaving x).next = (ts.next.1, ts.next.2.leaving y) := by
  have hdone : (ts.leaving x).done = ts.done := rfl
  have hlexer : (ts.leaving x).lexer = ts.lexer.leaving x := rfl
  obtain ⟨y, hy⟩ := ts.lexer.nextToken_leaving x
  rw [next, next, hdone, hlexer, hy]
  cases ts.done with
  | true => exact ⟨x, rfl⟩
  | false =>
    refine ⟨y, ?_⟩
    rcases ts.lexer.nextToken with ⟨e | token, l⟩
    · rfl
    · dsimp only [Bool.false_eq_true, ↓reduceIte]
      cases token.isEof <;> rfl

theorem take_leaving (ts : Tokens σ ε) (x : Leftovers) (n : Nat) :
    ∃ y, (ts.leaving x).take n = ((ts.take n).1, (ts.take n).2.leaving y) := by
  induction n generalizing ts x with
  | zero => exact ⟨x, rfl⟩
  | succ n ih =>
    obtain ⟨y, hy⟩ := ts.next_leaving x
    obtain ⟨z, hz⟩ := ih ts.next.2 y
    refine ⟨z, ?_⟩
    rw [take, take, hy]
    simp only [hz]

theorem drain_leaving (ts : Tokens σ ε) (x : Leftovers) (fuel : Nat) :
    ∃ y, (ts.leaving x).drain fuel = ((ts.drain fuel).1, (ts.drain fuel).2.leaving y) := by
  induction fuel generalizing ts x with
  | zero => exact ⟨x, rfl⟩
  | succ fuel ih =>
    obtain ⟨y, hy⟩ := ts.next_leaving x
    rw [drain, drain, hy]
    rcases ts.next with ⟨_ | e | token, after⟩
    · exact ⟨y, rfl⟩
    · exact ⟨y, rfl⟩
    · obtain ⟨z, hz⟩ := ih after y
      refine ⟨z, ?_⟩
      simp only [hz]

end Tokens

/-- What a request answers. -/
inductive Reply where
  | call (answer : Except LexError Token)
  | drawn (answers : List (Option (Except LexError Token)))
  | drained (answer : Except LexError (List Token))
  | done (answer : Except LexError Unit)

def Request.reply (l : Lexer σ ε) : Request → Reply
  | .next => .call l.nextToken.1
  | .take n => .drawn (l.tokens.take n).1
  | .all => .drained l.allTokens.1
  | .act action => .done (action.apply l.context).1
  | .notify => .done l.notify.1
  | .recoverNoViable => .done l.recoverNoViable.1
  | .recoverRuleFailure => .done l.recoverRuleFailure.1
  | .reset => .done l.reset.1
  | .setPosition _ | .addListener _ | .removeListeners => .done (.ok ())

namespace Lexer

theorem allTokens_leaving (l : Lexer σ ε) (x : Leftovers) :
    ∃ y, (l.leaving x).allTokens = (l.allTokens.1, l.allTokens.2.leaving y) := by
  obtain ⟨y, hy⟩ := l.tokens.drain_leaving x l.patience
  exact ⟨y, congrArg (fun c : Except LexError (List Token) × Tokens σ ε => (c.1, c.2.lexer)) hy⟩

theorem notify_leaving (l : Lexer σ ε) (x : Leftovers) :
    (l.leaving x).notify = (l.notify.1, l.notify.2.leaving x) := by
  obtain ⟨state, input⟩ := l
  cases input <;> rfl

theorem recoverNoViable_leaving (l : Lexer σ ε) (x : Leftovers) :
    (l.leaving x).recoverNoViable = (l.recoverNoViable.1, l.recoverNoViable.2.leaving x) := by
  obtain ⟨state, input⟩ := l
  cases input with
  | none => rfl
  | some input =>
    exact congrArg (fun c : Except LexError Unit × ActiveLexer σ ε => (c.1, c.2.toLexer))
      (ActiveLexer.recover_leaving { state with input } x)

omit [RecognitionEngine ε] in
theorem recoverRuleFailure_leaving (l : Lexer σ ε) (x : Leftovers) :
    (l.leaving x).recoverRuleFailure =
      (l.recoverRuleFailure.1, l.recoverRuleFailure.2.leaving x) := by
  obtain ⟨state, input⟩ := l
  cases input <;> rfl

/-- A reset forgets also what is left, unless it fails. -/
theorem reset_leaving (l : Lexer σ ε) (x : Leftovers) :
    ∃ y, (l.leaving x).reset = (l.reset.1, l.reset.2.leaving y) := by
  obtain ⟨state, input⟩ := l
  cases input with
  | none => exact ⟨state.reset.context.leftovers, rfl⟩
  | some input =>
    rcases hs : CharStream.seek input 0 with ⟨e | _, start⟩
    · rw [reset_of_error rfl hs, reset_of_error rfl hs]
      exact ⟨x, rfl⟩
    · rw [reset_of_ok rfl hs, reset_of_ok rfl hs]
      exact ⟨state.reset.context.leftovers, rfl⟩

/-- What is left is not seen in the answer to any request. -/
theorem perform_leaving (l : Lexer σ ε) (x : Leftovers) (r : Request) :
    r.reply (l.leaving x) = r.reply l ∧
      ∃ y, r.perform (l.leaving x) = (r.perform l).leaving y := by
  cases r with
  | next =>
    obtain ⟨y, hy⟩ := l.nextToken_leaving x
    rw [Request.reply, Request.reply, Request.perform, Request.perform, hy]
    exact ⟨rfl, y, rfl⟩
  | take n =>
    have htokens : (l.leaving x).tokens = l.tokens.leaving x := rfl
    obtain ⟨y, hy⟩ := l.tokens.take_leaving x n
    rw [Request.reply, Request.reply, Request.perform, Request.perform, htokens, hy]
    exact ⟨rfl, y, rfl⟩
  | all =>
    obtain ⟨y, hy⟩ := l.allTokens_leaving x
    rw [Request.reply, Request.reply, Request.perform, Request.perform, hy]
    exact ⟨rfl, y, rfl⟩
  | act action =>
    have hcontext : (l.leaving x).context = l.context.leaving x := rfl
    obtain ⟨y, hy⟩ := action.apply_leaving l.context x
    rw [Request.reply, Request.reply, Request.perform, Request.perform, mapContext, mapContext,
      hcontext, hy]
    exact ⟨rfl, y, rfl⟩
  | notify =>
    rw [Request.reply, Request.reply, Request.perform, Request.perform, l.notify_leaving x]
    exact ⟨rfl, x, rfl⟩
  | recoverNoViable =>
    rw [Request.reply, Request.reply, Request.perform, Request.perform,
      l.recoverNoViable_leaving x]
    exact ⟨rfl, x, rfl⟩
  | recoverRuleFailure =>
    rw [Request.reply, Request.reply, Request.perform, Request.perform,
      l.recoverRuleFailure_leaving x]
    exact ⟨rfl, x, rfl⟩
  | reset =>
    obtain ⟨y, hy⟩ := l.reset_leaving x
    rw [Request.reply, Request.reply, Request.perform, Request.perform, hy]
    exact ⟨rfl, y, rfl⟩
  | setPosition | addListener | removeListeners => exact ⟨rfl, x, rfl⟩

theorem perform_passing (l : Lexer σ ε) {r : Request} (hr : r.isPassing = true) :
    ∃ x, r.perform l = l.leaving x := by
  cases r with
  | act action =>
    obtain ⟨x, hx⟩ := action.apply_passing hr l.context
    rw [Request.perform, mapContext, hx]
    exact ⟨x, rfl⟩
  | next | take | all | setPosition | notify | recoverNoViable | recoverRuleFailure | reset
  | addListener | removeListeners => contradiction

/-- What a caller is told by a request: the answer, and what can be seen afterwards. -/
structure Told where
  reply : Reply
  log : Log
  mode : ModeId
  modeStack : ModeStack
  position : Position
  index : Nat

/-- What a session tells, request by request, passing actions apart. -/
def told (l : Lexer σ ε) : List Request → List Told
  | [] => []
  | r :: rest =>
    let after := r.perform l
    let later := told after rest
    if r.isPassing then later
    else
      { reply := r.reply l
        log := after.listeners.log
        mode := after.context.mode
        modeStack := after.context.modeStack
        position := after.position
        index := after.charIndex } :: later

/-- By induction on the session: what is left changes from request to request, and shows in none. -/
theorem told_leaving (l : Lexer σ ε) (x : Leftovers) (requests : List Request) :
    (l.leaving x).told requests = l.told (requests.filter fun r => !r.isPassing) := by
  induction requests generalizing l x with
  | nil => rfl
  | cons r rest ih =>
    rw [told]
    cases hp : r.isPassing with
    | true =>
      obtain ⟨y, hy⟩ := (l.leaving x).perform_passing hp
      rw [List.filter_cons_of_neg (by simp [hp]), hy]
      exact ih l y
    | false =>
      obtain ⟨hreply, y, hy⟩ := l.perform_leaving x r
      rw [List.filter_cons_of_pos (by simp [hp]), told, hp, hreply, hy, ih]
      rfl

/-- What one attempt gathers does not reach the next. For every engine, every stream and every
lexer, and whatever an attempt, however it ended, or the caller has left in the context: a session
that makes passing actions anywhere is told the same, request by request, as the session without
them on the lexer without the leftovers. Inside a call, too, all that comes after the beginning of
an attempt is the same, with any budget. -/
theorem leftovers_untold (l : Lexer σ ε) (x : Leftovers) (requests : List Request) :
    (l.leaving x).told requests = l.told (requests.filter fun r => !r.isPassing) ∧
      ∀ (a : ActiveLexer σ ε) (y : Leftovers) (fuel : Nat),
        (a.leaving y).begin.run (fuel + 1) (a.leaving y).here = a.begin.run (fuel + 1) a.here := by
  constructor
  · exact l.told_leaving x requests
  · exact ActiveLexer.run_leaving

end Lexer

end ModalLex

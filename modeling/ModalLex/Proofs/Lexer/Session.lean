import ModalLex.Proofs.Lexer.Runs
import ModalLex.Proofs.Stream.Caller

/-!
# Sessions

A caller asks a lexer for tokens, acts on its context, sets its position, recovers and resets it,
and gives it another input or token factory. A lexer that any such session has led to rests between
calls: its stream stands in the text of its input, and the flag for the end is up only at the end.
-/
namespace ModalLex

open TextView

/-- What a caller may ask of a lexer. -/
inductive Request where
  | next
  /-- Advance one sequence of tokens `n` times. -/
  | take (n : Nat)
  | all
  /-- Change the state that rules act on: skip, more, kind, channel, text, mode and mode stack. -/
  | act (action : Action)
  | setPosition (p : Position)
  | notify
  | recoverNoViable
  | recoverRuleFailure
  | reset
  | addListener (listener : Listener)
  | removeListeners

section

variable {σ ε : Type} [CharStream σ]

theorem Lexer.recoverRuleFailure_eq (a : ActiveLexer σ ε) :
    a.toLexer.recoverRuleFailure =
      ((CharStream.consume a.input).1,
        ActiveLexer.toLexer { a with input := (CharStream.consume a.input).2 }) :=
  rfl

variable [RecognitionEngine ε]

theorem Lexer.reset_of_ok {l : Lexer σ ε} {input start : σ} (hi : l.input = some input)
    (hs : CharStream.seek input 0 = (.ok (), start)) :
    l.reset = (.ok (), ⟨l.toLexerState.reset, some start⟩) := by
  simp only [reset, hi, hs]

theorem Lexer.reset_of_error {l : Lexer σ ε} {input input' : σ} {e : LexError}
    (hi : l.input = some input) (hs : CharStream.seek input 0 = (.error e, input')) :
    l.reset = (.error e, { l with input := some input' }) := by
  simp only [reset, hi, hs]

/-- The lexer after a request, whether it succeeds or fails. -/
def Request.perform (l : Lexer σ ε) : Request → Lexer σ ε
  | .next => l.nextToken.2
  | .take n => (l.tokens.take n).2.lexer
  | .all => l.allTokens.2
  | .act action => l.mapContext fun c => (action.apply c).2
  | .setPosition p => l.setPosition p
  | .notify => l.notify.2
  | .recoverNoViable => l.recoverNoViable.2
  | .recoverRuleFailure => l.recoverRuleFailure.2
  | .reset => l.reset.2
  | .addListener listener => l.addListener listener
  | .removeListeners => l.removeListeners

namespace Tokens

variable {P : Lexer σ ε → Prop} (hcall : ∀ {l}, P l → P l.nextToken.2)

include hcall

/-- What a call for a token keeps, drawing tokens from a sequence keeps. -/
theorem next_keeps {t : Tokens σ ε} (h : P t.lexer) : P t.next.2.lexer := by
  have hc := hcall h
  rw [next]
  split
  · exact h
  · split
    · rename_i hn
      rwa [hn] at hc
    · rename_i hn
      rw [hn] at hc
      split <;> exact hc

theorem take_keeps {t : Tokens σ ε} (h : P t.lexer) (n : Nat) : P (t.take n).2.lexer := by
  induction n generalizing t with
  | zero => exact h
  | succ n ih => exact ih (next_keeps hcall h)

theorem drain_keeps {t : Tokens σ ε} (h : P t.lexer) (fuel : Nat) :
    P (t.drain fuel).2.lexer := by
  induction fuel generalizing t with
  | zero => exact h
  | succ fuel ih =>
    have hn := next_keeps hcall h
    rw [drain]
    split
    · rename_i he
      rwa [he] at hn
    · rename_i he
      rwa [he] at hn
    · rename_i he
      rw [he] at hn
      exact ih hn

end Tokens

end

namespace ActiveLexer

variable {σ : Type} [CharStream σ] [LawfulView σ]

/-- A lexer between calls. -/
structure Idle (src : List Char) (a : ActiveLexer σ RuleEngine) : Prop where
  rests : Rests src a.input
  eof_imp : a.hitEof = true → CharStream.index a.input = src.length

/-- `b` is `a` after some calls. -/
structure Later (src : List Char) (a b : ActiveLexer σ RuleEngine) : Prop where
  idle : Idle src b
  went : ∃ n, Went src a n b

end ActiveLexer

/-- A step goes on by one character, or it fails and has only looked at the next one. -/
theorem Position.consume_cases {σ : Type} [CharStream σ] [RoamingView σ] {src : List Char} {s : σ}
    (h : Rests src s) (p : Position) :
    (∃ s', p.consume s = (.ok (), p.after src[CharStream.index s]?, s') ∧
        CharStream.index s < src.length ∧ Rests src s' ∧
        CharStream.index s' = CharStream.index s + 1) ∨
      ∃ e s', p.consume s = (.error e, p, s') ∧ Rests src s' ∧
        CharStream.index s' = CharStream.index s := by
  obtain ⟨t, hla, hr, hi⟩ := RoamingView.look_rests h
  rw [consume, hla]
  dsimp only
  rcases hs : CharStream.consume t with ⟨e | _, u⟩
  · obtain rfl := RoamingView.step_failed hr hs
    exact .inr ⟨e, u, rfl, hr, hi⟩
  · obtain ⟨hlt, hru, hiu⟩ := RoamingView.step_rests hr hs
    rw [hi] at hlt hiu
    exact .inl ⟨u, rfl, hlt, hru, hiu⟩

namespace ActiveLexer

variable {σ : Type} [CharStream σ] [RoamingView σ] {src : List Char}
  {a : ActiveLexer σ RuleEngine}

theorem Idle.pinned (h : Idle src a) : Shows src (CharStream.index a.input) a.pinned.input :=
  (LawfulView.pin h.rests).1

theorem Idle.index_pinned (h : Idle src a) :
    CharStream.index a.pinned.input = CharStream.index a.input :=
  (LawfulView.pin h.rests).2

/-- A call has a run, with at most one firing more than there are characters left. -/
theorem Idle.exists_searches (h : Idle src a) :
    ∃ firings, Searches a.pinned firings a.pinned.search ∧
      firings.length ≤ src.length - CharStream.index a.input + 1 := by
  have hi := h.index_pinned
  have he := ActiveLexer.exists_searches h.pinned fun ht => hi.trans (h.eof_imp ht)
  rwa [hi] at he

theorem Searches.took {kept : Nat} {firings : List (ActiveLexer σ RuleEngine)}
    {c : Except LexError Token × ActiveLexer σ RuleEngine} (hs : Searches a firings c)
    (hshows : Shows src kept a.input)
    (he : a.hitEof = true → CharStream.index a.input = src.length) :
    Shows src kept c.2.input ∧
      (c.2.hitEof = true → CharStream.index c.2.input = src.length) ∧ ∃ n, Went src a n c.2 := by
  cases hs with
  | ended => exact ⟨hshows, he, 0, { Went.refl a with }⟩
  | begun hflag hruns =>
    obtain ⟨hw, n, ht⟩ := hruns.took (.begin hshows he)
    exact ⟨hw.shows, hw.eof_imp, n, { ht with }⟩

theorem Idle.patience_pinned (h : Idle src a) : a.pinned.patience = src.length + 1 := by
  rw [patience, LawfulView.extent_eq h.pinned]
  exact congrArg (· + 1) (Nat.zero_add _)

theorem Idle.eof_pinned (h : Idle src a) (ht : a.pinned.hitEof = true) :
    CharStream.index a.pinned.input = src.length :=
  h.index_pinned.trans (h.eof_imp ht)

theorem Idle.index_nextToken (h : Idle src a) :
    CharStream.index a.nextToken.2.input = CharStream.index a.pinned.search.2.input := by
  obtain ⟨firings, hs, -⟩ := h.exists_searches
  exact (LawfulView.unpin (hs.took h.pinned h.eof_pinned).1 _).2

theorem Idle.nextToken (h : Idle src a) : Later src a a.nextToken.2 := by
  have hi := h.index_pinned
  obtain ⟨firings, hs, -⟩ := h.exists_searches
  obtain ⟨hshows, he, n, hw⟩ := hs.took h.pinned h.eof_pinned
  obtain ⟨hr, hu⟩ := LawfulView.unpin hshows (CharStream.mark a.input).1
  have hindex := hw.index_eq
  have hposition := hw.position_eq
  rw [hi] at hindex hposition
  rw [nextToken_eq]
  exact ⟨⟨hr, fun ht => hu.trans (he ht)⟩, n,
    { hw with index_eq := hu.trans hindex, position_eq := hposition }⟩

/-- Recovery between calls steps over a character, unless there is none. -/
theorem Idle.recover (h : Idle src a) : Later src a a.recover.2 := by
  obtain ⟨input, hla, hr, hi⟩ := RoamingView.look_rests h.rests
  have hlooked : Later src a { a with input } :=
    ⟨⟨hr, fun ht => hi.trans (h.eof_imp ht)⟩, 0, { Went.refl a with index_eq := hi }⟩
  rw [ActiveLexer.recover, hla]
  cases src[CharStream.index a.input]? with
  | none => exact hlooked
  | some c =>
    rcases Position.consume_cases hr a.engine.position with
      ⟨input', hc, hlt, hr', hi'⟩ | ⟨e, input', hc, hr', hi'⟩
    · simp only [RecognitionEngine.consume, hc]
      rw [hi] at hlt hi'
      have hone : (src.drop (CharStream.index a.input)).take 1 =
          [src[CharStream.index a.input]] := by
        rw [List.drop_eq_getElem_cons hlt]
        rfl
      refine ⟨⟨hr', fun ht => absurd (h.eof_imp ht) (Nat.ne_of_lt hlt)⟩, 1, hi', ?_, rfl, rfl, rfl,
        rfl⟩
      rw [hone, hi, List.getElem?_eq_getElem hlt]
      rfl
    · simp only [RecognitionEngine.consume, hc]
      rw [hi] at hi'
      exact ⟨⟨hr', fun ht => hi'.trans (h.eof_imp ht)⟩, 0, { Went.refl a with index_eq := hi' }⟩

/-- A reset fails and changes nothing, or goes back to the start with nothing matched. -/
theorem Idle.reset_cases (h : Idle src a) :
    (∃ e, a.toLexer.reset = (.error e, a.toLexer)) ∨
      ∃ input, a.toLexer.reset = (.ok (), ActiveLexer.toLexer ⟨a.toLexerState.reset, input⟩) ∧
        Rests src input ∧ CharStream.index input = 0 := by
  rcases hs : CharStream.seek a.input 0 with ⟨e | _, input⟩
  · obtain rfl := RoamingView.seek_failed h.rests hs
    exact .inl ⟨e, Lexer.reset_of_error (l := a.toLexer) rfl hs⟩
  · obtain ⟨hr, hi⟩ := RoamingView.seek_rests h.rests hs
    exact .inr ⟨input, Lexer.reset_of_ok (l := a.toLexer) rfl hs, hr, hi.trans (Nat.zero_min _)⟩

end ActiveLexer

namespace Lexer

section

variable {σ : Type} [CharStream σ] [LawfulView σ]

/-- A lexer for a grammar between calls, without an input or with one that stands in a text. -/
inductive Idle (g : Grammar) (factory : TokenFactory σ) : List Char → Lexer σ RuleEngine → Prop
  | detached {s : LexerState σ RuleEngine} (grammar_eq : s.engine.grammar = g)
      (factory_eq : s.factory = factory) : Idle g factory [] ⟨s, none⟩
  | attached {src : List Char} {a : ActiveLexer σ RuleEngine} (idle : a.Idle src)
      (grammar_eq : a.engine.grammar = g) (factory_eq : a.factory = factory) :
      Idle g factory src a.toLexer

/-- The lexers that sessions lead to, each with its factory and the text that its input stands in.
A session makes requests that are allowed, and takes inputs that fit. -/
inductive Reachable (g : Grammar) (allowed : Request → Prop) (fits : σ → Prop) :
    TokenFactory σ → List Char → Lexer σ RuleEngine → Prop
  | ofInput {factory : TokenFactory σ} {src : List Char} {input : σ} (rests : Rests src input)
      (fit : fits input) :
      Reachable g allowed fits factory src (.ofInput input (.ofGrammar g) factory)
  | detached {factory : TokenFactory σ} :
      Reachable g allowed fits factory [] (.detached (.ofGrammar g) factory)
  | request {factory : TokenFactory σ} {src : List Char} {l : Lexer σ RuleEngine} {r : Request}
      (reachable : Reachable g allowed fits factory src l) (allow : allowed r) :
      Reachable g allowed fits factory src (r.perform l)
  | setFactory {factory factory' : TokenFactory σ} {src : List Char} {l : Lexer σ RuleEngine}
      (reachable : Reachable g allowed fits factory src l) :
      Reachable g allowed fits factory' src { l with factory := factory' }
  | setInput {factory : TokenFactory σ} {src src' : List Char} {l : Lexer σ RuleEngine} {input : σ}
      (reachable : Reachable g allowed fits factory src l) (rests : Rests src' input)
      (fit : fits input) : Reachable g allowed fits factory src' (l.setInput input)
  | detach {factory : TokenFactory σ} {src : List Char} {l : Lexer σ RuleEngine}
      (reachable : Reachable g allowed fits factory src l) :
      Reachable g allowed fits factory [] l.detach

end

variable {σ : Type} [CharStream σ] [RoamingView σ] {g : Grammar} {factory : TokenFactory σ}
  {src : List Char} {l l' : Lexer σ RuleEngine}

/-- What requests leave alone: the grammar and the factory. -/
theorem Idle.later {a b : ActiveLexer σ RuleEngine} (h : a.Later src b)
    (hg : a.engine.grammar = g) (hf : a.factory = factory) : Idle g factory src b.toLexer := by
  obtain ⟨hb, n, hw⟩ := h
  exact .attached hb (hw.grammar_eq.trans hg) (hw.factory_eq.trans hf)

theorem Idle.nextToken (h : Idle g factory src l) : Idle g factory src l.nextToken.2 := by
  cases h with
  | detached hg hf => exact .detached hg hf
  | attached ha hg hf => exact .later ha.nextToken hg hf

theorem Idle.mapContext (h : Idle g factory src l) (f : Context → Context) :
    Idle g factory src (l.mapContext f) := by
  cases h with
  | detached hg hf => exact .detached hg hf
  | @attached _ a ha hg hf =>
    exact .attached (a := { a with context := f a.context }) { ha with } hg hf

theorem Idle.setPosition (h : Idle g factory src l) (p : Position) :
    Idle g factory src (l.setPosition p) := by
  cases h with
  | detached hg hf => exact .detached hg hf
  | @attached _ a ha hg hf =>
    exact .attached (a := { a with engine := { a.engine with position := p } }) { ha with } hg hf

theorem Idle.withListeners (h : Idle g factory src l) (listeners : Listeners) :
    Idle g factory src { l with listeners } := by
  cases h with
  | detached hg hf => exact .detached hg hf
  | @attached _ a ha hg hf => exact .attached (a := { a with listeners }) { ha with } hg hf

theorem Idle.setFactory (h : Idle g factory src l) (factory' : TokenFactory σ) :
    Idle g factory' src { l with factory := factory' } := by
  cases h with
  | detached hg => exact .detached hg rfl
  | @attached _ a ha hg =>
    exact .attached (a := { a with factory := factory' }) { ha with } hg rfl

theorem Idle.notify (h : Idle g factory src l) : Idle g factory src l.notify.2 := by
  cases h with
  | detached hg hf => exact .detached hg hf
  | @attached _ a ha hg hf =>
    exact .attached (a := { a with
      listeners := (a.toLexerState.report a.input (a.context.start.getD a.here)).2.listeners })
      { ha with } hg hf

theorem Idle.recoverNoViable (h : Idle g factory src l) :
    Idle g factory src l.recoverNoViable.2 := by
  cases h with
  | detached hg hf => exact .detached hg hf
  | attached ha hg hf => exact .later ha.recover hg hf

theorem Idle.recoverRuleFailure (h : Idle g factory src l) :
    Idle g factory src l.recoverRuleFailure.2 := by
  cases h with
  | detached hg hf => exact .detached hg hf
  | @attached _ a ha hg hf =>
    rw [recoverRuleFailure_eq]
    rcases hc : CharStream.consume a.input with ⟨e | _, input⟩
    · obtain rfl := RoamingView.step_failed ha.rests hc
      exact .attached ha hg hf
    · obtain ⟨hlt, hrest, -⟩ := RoamingView.step_rests ha.rests hc
      exact .attached (a := { a with input })
        ⟨hrest, fun ht => absurd (ha.eof_imp ht) (Nat.ne_of_lt hlt)⟩ hg hf

theorem Idle.reset (h : Idle g factory src l) : Idle g factory src l.reset.2 := by
  cases h with
  | detached hg hf => exact .detached hg hf
  | @attached _ a ha hg hf =>
    rcases ha.reset_cases with ⟨e, hreset⟩ | ⟨input, hreset, hr, -⟩
    · rw [hreset]
      exact .attached ha hg hf
    · rw [hreset]
      exact .attached (a := ⟨a.toLexerState.reset, input⟩) ⟨hr, nofun⟩ hg hf

/-- Whatever is asked of it, a lexer between calls is one afterwards. -/
theorem Idle.perform (h : Idle g factory src l) (r : Request) :
    Idle g factory src (r.perform l) := by
  cases r with
  | next => exact h.nextToken
  | take n => exact Tokens.take_keeps Idle.nextToken (t := l.tokens) h n
  | all => exact Tokens.drain_keeps Idle.nextToken (t := l.tokens) h l.patience
  | act action => exact h.mapContext fun c => (action.apply c).2
  | setPosition p => exact h.setPosition p
  | notify => exact h.notify
  | recoverNoViable => exact h.recoverNoViable
  | recoverRuleFailure => exact h.recoverRuleFailure
  | reset => exact h.reset
  | addListener listener => exact h.withListeners _
  | removeListeners => exact h.withListeners _

theorem Reachable.idle {allowed : Request → Prop} {fits : σ → Prop}
    (h : Reachable g allowed fits factory src l) : Idle g factory src l := by
  induction h with
  | @ofInput factory _ input rests =>
    exact .attached (a := { Lexer.detached (.ofGrammar g) factory with
      sourceName := CharStream.sourceName input, input }) ⟨rests, nofun⟩ rfl rfl
  | detached => exact .detached rfl rfl
  | request _ _ ih => exact ih.perform _
  | setFactory _ ih => exact ih.setFactory _
  | @setInput _ _ _ l input _ rests _ ih =>
    cases ih with
    | @detached s hg hf =>
      exact .attached (a := { s.reset with sourceName := CharStream.sourceName input, input })
        ⟨rests, nofun⟩ hg hf
    | @attached _ a _ hg hf =>
      exact .attached (a := { a.toLexerState.reset with
        sourceName := CharStream.sourceName input, input }) ⟨rests, nofun⟩ hg hf
  | detach _ ih =>
    cases ih with
    | detached hg hf | attached _ hg hf => exact .detached hg hf

/-- A lexer at work that is between calls. -/
theorem Idle.active {a : ActiveLexer σ RuleEngine} (h : Idle g factory src a.toLexer) :
    a.Idle src ∧ a.engine.grammar = g ∧ a.factory = factory := by
  generalize hl : a.toLexer = l at h
  cases h with
  | detached => exact absurd (congrArg Lexer.input hl) nofun
  | attached ha hg hf =>
    obtain rfl := ActiveLexer.toLexer_injective hl
    exact ⟨ha, hg, hf⟩

end Lexer

end ModalLex

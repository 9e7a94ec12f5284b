import ModalLex.Tokens
import ModalLex.Engine.Rules

/-!
# Successive calls of a lexer

A caller asks for the next token any number of times, also after an error and after the end
token. Each call is seen by its answer, by the diagnostics delivered so far, and by the mode,
the mode stack, the position and the index that it leaves.
-/
namespace ModalLex

variable {σ ε : Type}

/-- A lexer at work, as its caller holds it. -/
def ActiveLexer.toLexer (a : ActiveLexer σ ε) : Lexer σ ε :=
  { a.toLexerState with input := some a.input }

theorem ActiveLexer.toLexer_injective {a b : ActiveLexer σ ε} (h : a.toLexer = b.toLexer) :
    a = b := by
  obtain ⟨hs, hi⟩ := Lexer.mk.inj h
  cases a
  cases b
  cases hs
  cases hi
  rfl

variable [CharStream σ] [RecognitionEngine ε]

namespace Lexer

/-- The answers of `n` calls for the next token, each with the lexer that it leaves. -/
def calls : Nat → Lexer σ ε → List (Except LexError Token × Lexer σ ε)
  | 0, _ => []
  | n + 1, l => l.nextToken :: calls n l.nextToken.2

/-- What a caller sees of a call. -/
structure Observation where
  answer : Except LexError Token
  log : Log
  mode : ModeId
  modeStack : ModeStack
  position : Position
  index : Nat

def observe (c : Except LexError Token × Lexer σ ε) : Observation where
  answer := c.1
  log := c.2.listeners.log
  mode := c.2.context.mode
  modeStack := c.2.context.modeStack
  position := c.2.position
  index := c.2.charIndex

/-- A lexer for a grammar at the start of an input, with these listeners. -/
def fresh (input : σ) (g : Grammar) (listeners : Listeners) : Lexer σ RuleEngine :=
  { ofInput input (RuleEngine.ofGrammar g) TokenFactory.common with listeners }

theorem calls_subset {n m : Nat} (h : n ≤ m) (l : Lexer σ ε) : l.calls n ⊆ l.calls m := by
  induction n generalizing l m with
  | zero => exact List.nil_subset _
  | succ n ih =>
    obtain ⟨m, rfl⟩ : ∃ k, m = k + 1 := ⟨m - 1, by omega⟩
    rw [calls, calls]
    exact List.cons_subset_cons _ (ih (Nat.le_of_succ_le_succ h) _)

theorem nextToken_toLexer (a : ActiveLexer σ ε) :
    a.toLexer.nextToken = (a.nextToken.1, a.nextToken.2.toLexer) := rfl

end Lexer

/-- A token that a search answers with is remembered as the last one. -/
theorem ActiveLexer.run_token {fuel : Nat} {start : TokenStart} {a b : ActiveLexer σ ε}
    {token : Token} (h : a.run fuel start = (.ok token, b)) : b.token = some token := by
  induction fuel generalizing a start with
  | zero =>
    rw [run] at h
    cases h
  | succ fuel ih =>
    rw [run] at h
    rcases hf : a.fire start with ⟨verdict, l⟩
    rw [hf] at h
    cases verdict with
    | failed e => cases h
    | injected t | matched kind =>
      obtain ⟨ht, rfl⟩ := Prod.mk.inj h
      rw [← Except.ok.inj ht]
    | more => exact ih h
    | skipped =>
      dsimp only at h
      split at h
      · obtain ⟨ht, rfl⟩ := Prod.mk.inj h
        rw [← Except.ok.inj ht]
      · exact ih h

theorem ActiveLexer.search_token {a b : ActiveLexer σ ε} {token : Token}
    (h : a.search = (.ok token, b)) : b.token = some token := by
  rw [search] at h
  split at h
  · obtain ⟨ht, rfl⟩ := Prod.mk.inj h
    rw [← Except.ok.inj ht]
  · exact run_token h

theorem Lexer.nextToken_token {l l' : Lexer σ ε} {token : Token}
    (h : l.nextToken = (.ok token, l')) : l'.token = some token := by
  cases hi : l.input with
  | none =>
    simp only [Lexer.nextToken, hi] at h
    cases h
  | some input =>
    simp only [Lexer.nextToken, ActiveLexer.nextToken, hi] at h
    generalize hs : @ActiveLexer.search σ ε _ _ _ = c at h
    obtain ⟨answer, b⟩ := c
    cases h
    exact ActiveLexer.search_token hs

namespace Tokens

/-- The rest of a sequence, from the answer of a call on. -/
def resume (budget : Nat) :
    Except LexError Token × ActiveLexer σ ε → Except LexError (List Token) × Tokens σ ε
  | (.error e, l) => (.error e, ⟨l.toLexer, true⟩)
  | (.ok token, l) =>
    if token.isEof then (.ok [], ⟨l.toLexer, true⟩)
    else
      let (rest, ts) := drain budget ⟨l.toLexer, false⟩
      (rest.map (token :: ·), ts)

theorem drain_succ (l : ActiveLexer σ ε) (budget : Nat) :
    drain (budget + 1) ⟨l.toLexer, false⟩ = resume budget l.nextToken := by
  simp only [drain, next, Bool.false_eq_true, ↓reduceIte, Lexer.nextToken_toLexer]
  rcases l.nextToken with ⟨e | token, l'⟩
  · rfl
  · simp only [resume]
    cases token.isEof <;> rfl

end Tokens

/-- A drained sequence is what successive calls answer up to the first end token. -/
theorem Tokens.drain_calls {fuel : Nat} {l : Lexer σ ε} {tokens : List Token} {ts : Tokens σ ε}
    (h : drain fuel ⟨l, false⟩ = (.ok tokens, ts)) :
    ∃ e, e.isEof = true ∧ ts.lexer.token = some e ∧ (∀ t ∈ tokens, t.isEof = false) ∧
      ∀ n, (l.calls (tokens.length + (n + 1))).map Prod.fst =
        tokens.map .ok ++ .ok e :: (ts.lexer.calls n).map Prod.fst := by
  induction fuel generalizing l tokens ts with
  | zero =>
    rw [drain] at h
    cases h
  | succ fuel ih =>
    rcases hn : l.nextToken with ⟨e | token, l'⟩
    · simp only [drain, next, hn, Bool.false_eq_true, ↓reduceIte] at h
      cases h
    · cases he : token.isEof with
      | true =>
        simp only [drain, next, hn, he, Bool.false_eq_true, ↓reduceIte] at h
        obtain ⟨ht, rfl⟩ := Prod.mk.inj h
        obtain rfl := Except.ok.inj ht
        refine ⟨token, he, Lexer.nextToken_token hn, fun t ht => absurd ht List.not_mem_nil, ?_⟩
        intro n
        rw [List.length_nil, Nat.zero_add, Lexer.calls, hn]
        rfl
      | false =>
        simp only [drain, next, hn, he, Bool.false_eq_true, ↓reduceIte] at h
        rcases hd : drain fuel ⟨l', false⟩ with ⟨e | rest, ts'⟩
        · rw [hd] at h
          cases h
        · rw [hd] at h
          obtain ⟨ht, rfl⟩ := Prod.mk.inj h
          obtain rfl := Except.ok.inj ht
          obtain ⟨e, heof, hlast, hrest, hcalls⟩ := ih hd
          refine ⟨e, heof, hlast, List.forall_mem_cons.mpr ⟨he, hrest⟩, fun n => ?_⟩
          rw [List.length_cons, Nat.add_right_comm, Lexer.calls, hn, List.map_cons, hcalls n]
          rfl

end ModalLex

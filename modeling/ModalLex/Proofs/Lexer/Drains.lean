import ModalLex.Proofs.Lexer.Progress

/-!
# Draining a sequence of tokens

The whole sequence of tokens as a relation: calls up to the first error or end token, with all the
lexers that the engine is fired from. In declared modes every call but one at the end takes
characters, so that a drained lexer has such a sequence and the budget does not show.
-/
namespace ModalLex.ActiveLexer

open TextView

/-- A sequence of tokens from here on. -/
inductive Drains {σ ε : Type} [CharStream σ] [RecognitionEngine ε] : ActiveLexer σ ε →
    List (ActiveLexer σ ε) → Except LexError (List Token) × ActiveLexer σ ε → Prop
  | failed {a b : ActiveLexer σ ε} {firings e}
      (searches : Searches a.pinned firings a.pinned.search)
      (answer : a.nextToken = (.error e, b)) : Drains a firings (.error e, b)
  | ended {a b : ActiveLexer σ ε} {firings token}
      (searches : Searches a.pinned firings a.pinned.search)
      (answer : a.nextToken = (.ok token, b)) (isEof_eq : token.isEof = true) :
      Drains a firings (.ok [], b)
  | token {a b : ActiveLexer σ ε} {firings rest token c}
      (searches : Searches a.pinned firings a.pinned.search)
      (answer : a.nextToken = (.ok token, b)) (isEof_eq : token.isEof = false)
      (drains : Drains b rest c) : Drains a (firings ++ rest) (c.1.map (token :: ·), c.2)

variable {σ : Type} [CharStream σ] {a : ActiveLexer σ RuleEngine}

/-- Once the end has been seen a call answers with an end token. -/
theorem nextToken_isEof (hflag : a.hitEof = true) (hf : a.factory = TokenFactory.common)
    {token : Token} {b : ActiveLexer σ RuleEngine} (h : a.nextToken = (.ok token, b)) :
    token.isEof = true := by
  have hs : a.pinned.search = a.pinned.emitEof := if_pos hflag
  rw [nextToken_eq, hs] at h
  obtain ⟨ht, -⟩ := Prod.mk.inj h
  have hfactory : a.pinned.factory = TokenFactory.common := hf
  rw [← Except.ok.inj ht, hfactory]
  rfl

variable [RoamingView σ] {g : Grammar} {src : List Char}

/-- By induction on the matches that may still be asked for. -/
theorem exists_drains (hg : g.Sound) (h : a.Idle src) (hs : a.Steady g)
    (hf : a.factory = TokenFactory.common) :
    ∃ firings c, Drains a firings c ∧ ∀ budget, left src a < budget →
      Tokens.drain budget ⟨a.toLexer, false⟩ = (c.1, ⟨c.2.toLexer, true⟩) := by
  induction hleft : left src a using Nat.strong_induction_on generalizing a with
  | _ n ih =>
  subst hleft
  obtain ⟨firings, hsearch, -, hp⟩ := h.progressed hg hs
  have hidle := h.nextToken.idle
  obtain ⟨k, hw⟩ := h.nextToken.went
  have hfactory := hw.factory_eq.trans hf
  rcases hnext : a.nextToken with ⟨e | token, b⟩
  · refine ⟨firings, _, .failed hsearch hnext, fun budget hb => ?_⟩
    obtain ⟨budget, rfl⟩ := Nat.exists_eq_add_of_lt hb
    rw [Tokens.drain_succ, hnext]
    rfl
  · rw [hnext] at hp hidle hfactory
    cases he : token.isEof with
    | true =>
      refine ⟨firings, _, .ended hsearch hnext he, fun budget hb => ?_⟩
      obtain ⟨budget, rfl⟩ := Nat.exists_eq_add_of_lt hb
      rw [Tokens.drain_succ, hnext, Tokens.resume, if_pos he]
    | false =>
      have hflag : a.hitEof = false := Bool.eq_false_iff.mpr fun ht =>
        Bool.false_ne_true (he.symm.trans (nextToken_isEof ht hf hnext))
      have hpos := List.length_pos_iff.mpr (hp.nonempty hflag)
      have hlen := hp.length_le
      have hlt : left src b < left src a := by
        dsimp only at hlen
        omega
      obtain ⟨rest, c, hdrains, hdrain⟩ := ih _ hlt hidle hp.steady hfactory rfl
      refine ⟨firings ++ rest, _, .token hsearch hnext he hdrains, fun budget hb => ?_⟩
      obtain ⟨budget, rfl⟩ := Nat.exists_eq_add_of_lt hb
      rw [Tokens.drain_succ, hnext, Tokens.resume, if_neg (he ▸ Bool.false_ne_true),
        hdrain _ (by omega)]

end ModalLex.ActiveLexer

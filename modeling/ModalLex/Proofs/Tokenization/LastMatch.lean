import ModalLex.Proofs.Tokenization.Chains

/-!
# The text of the last match

Between calls a lexer shows the text that replaces the matched one, or else what the engine's last
match covers. The engine begins anew with every firing, and an attempt may take several. Main
statement: after a token the lexer shows the characters of the last firing, which are the token's
exactly where the chain that made it is one firing long; where a rule of the chain sets a text, both
show that text.
-/
namespace ModalLex

open TextView

section

variable {σ : Type} [CharStream σ]

/-- The engine remembers where its last match began. -/
theorem RuleEngine.matchToken_start (e : RuleEngine) (input : σ) (mode : ModeId) (c : Context) :
    (e.matchToken input mode c).engine.start = CharStream.index input := by
  unfold matchToken
  rcases CharStream.la input 1 with ⟨_ | ch, input'⟩
  · rfl
  · dsimp only
    cases e.grammar.mode? mode with
    | none => rfl
    | some m =>
      dsimp only
      rcases longest none input' m.rules with ⟨_ | ⟨rule, length⟩, input''⟩
      · rfl
      · dsimp only [accept]
        rcases e.position.consumeMany length input'' with ⟨_ | _, position, input'''⟩
        · rfl
        · dsimp only
          rcases Action.applyAll c rule.actions with ⟨_ | _, c'⟩ <;> rfl

namespace ActiveLexer

variable {l : ActiveLexer σ RuleEngine}

theorem recover_start (l : ActiveLexer σ RuleEngine) :
    l.recover.2.engine.start = l.engine.start := by
  unfold recover
  rcases CharStream.la l.input 1 with ⟨_ | c, input⟩ <;> rfl

theorem giveUp_start (l : ActiveLexer σ RuleEngine) (start : TokenStart) :
    (l.giveUp start).2.engine.start = l.engine.start := by
  rcases hd : l.listeners.dispatch (l.diagnostic l.input start) with ⟨e | ⟨⟨⟩⟩, ls⟩
  · rw [giveUp_refused l start hd]
  · have hstart := recover_start { l with listeners := ls }
    rcases hr : recover { l with listeners := ls } with ⟨e | ⟨⟨⟩⟩, m⟩
    · rw [hr] at hstart
      rw [giveUp_stuck l start hd hr]
      exact hstart
    · rw [hr] at hstart
      rw [giveUp_recovered l start hd hr, (m.settle_leaves .skip).1]
      exact hstart

/-- A firing leaves an engine that remembers where it was fired. -/
theorem fire_start (l : ActiveLexer σ RuleEngine) (start : TokenStart) :
    (l.fire start).2.engine.start = CharStream.index l.input := by
  have hmatch := RuleEngine.matchToken_start l.engine l.input l.context.mode
    { l.context with pending := .invalid }
  rw [fire_eq l start rfl]
  split
  · exact hmatch
  · rw [(settle_leaves _ _).1]
    exact hmatch
  · rw [giveUp_start]
    exact hmatch

end ActiveLexer

end

/-- A part of a text that ends where the whole ends is the whole only if it begins there too. -/
theorem take_drop_eq_iff {src : List Char} {start i stop : Nat} (hs : start ≤ i) (hi : i ≤ stop)
    (hstop : stop ≤ src.length) :
    (src.drop i).take (stop - i) = (src.drop start).take (stop - start) ↔ i = start := by
  constructor
  · intro h
    have hlength := congrArg List.length h
    rw [List.length_take, List.length_take, List.length_drop, List.length_drop] at hlength
    omega
  · rintro rfl
    rfl

namespace ActiveLexer

variable {σ : Type} [CharStream σ] [LawfulView σ] {g : Grammar} {src : List Char} {kept : Nat}
  {modes : ModeId × List ModeId} {start : TokenStart} {before : List (Rule × Nat)}
  {a l m : ActiveLexer σ RuleEngine} {earlier current : List (ActiveLexer σ RuleEngine)}
  {last : Rule × Nat} {kind : TokenKind}

/-- The engine's last match is the last firing of the chain. -/
theorem Concludes.lastMatch
    (h : Concludes g src kept a earlier current start modes before l m kind)
    (hgathered : Gathered g src modes start (before ++ [last]) m) :
    m.engine.start + last.2 = CharStream.index m.input ∧
      m.engine.start = start.index + (before.map Prod.snd).sum := by
  have hfrom := fire_start l start
  rw [h.fire_eq] at hfrom
  have hbefore := h.chained.chain.stop_eq
  have hwhole := hgathered.chain.stop_eq
  rw [List.map_append, List.sum_append] at hwhole
  change m.engine.start = CharStream.index l.input at hfrom
  change CharStream.index m.input = start.index +
    ((before.map Prod.snd).sum + (last.2 + 0)) at hwhole
  omega

/-- The last match begins where the chain does only if it is all of the chain. -/
theorem Concludes.lastMatch_start_iff
    (h : Concludes g src kept a earlier current start modes before l m kind)
    (hgathered : Gathered g src modes start (before ++ [last]) m) :
    m.engine.start = start.index ↔ before = [] := by
  obtain ⟨-, hstart⟩ := h.lastMatch hgathered
  constructor
  · intro hs
    rcases List.eq_nil_or_concat before with hnil | ⟨init, f, rfl⟩
    · exact hnil
    · have hchain := h.chained.chain
      rw [List.concat_eq_append] at hchain hstart
      have hlt := hchain.start_lt
      have hstop := hchain.stop_eq
      omega
  · rintro rfl
    exact hstart

/-- What a pinned stream holds of the last match. -/
theorem Concludes.text_lastMatch
    (h : Concludes g src kept a earlier current start modes before l m kind)
    (hk : kept ≤ CharStream.index a.input)
    (hgathered : Gathered g src modes start (before ++ [last]) m) :
    CharStream.text m.input m.engine.start (CharStream.index m.input) =
      String.ofList ((src.drop m.engine.start).take last.2) := by
  obtain ⟨hlast, hstart⟩ := h.lastMatch hgathered
  have hshows := ((h.working.fired h.fire_eq).working h.working).shows
  have hle := h.begins.index_le
  rw [LawfulView.slice hshows (by omega) (LawfulView.index_le hshows), ← hlast,
    Nat.add_sub_cancel_left]

end ActiveLexer

namespace Lexer

variable {g : Grammar} {src : List Char} {l : Lexer TextStream RuleEngine} {token : Token}

/-- A text in memory is the same stream after a mark is given back. -/
theorem text_unpinned (a : ActiveLexer TextStream RuleEngine) (mark : Mark) :
    (a.unpinned mark).toLexer.text = a.context.text.getD
      (CharStream.text a.input a.engine.start (CharStream.index a.input)) := by
  have htext : (a.unpinned mark).toLexer.context.text = a.context.text := rfl
  have hinput : (a.unpinned mark).toLexer.input = some a.input := rfl
  rw [Lexer.text, htext, hinput]
  cases a.context.text <;> rfl

/-- The text that a chain of firings sets, or else the characters of its last firing. -/
def lastText (src : List Char) (before : List (Rule × Nat)) (last : Rule × Nat) (stop : Nat) :
    String :=
  (Action.last? Action.text? (chainActions (before ++ [last]))).getD
    (String.ofList ((src.drop (stop - last.2)).take last.2))

/-- Whatever was asked of a lexer over a text in memory with the common factory, after a token other
than the end token it shows the text that the chain of the token sets, or else the characters of the
last firing. That is the text of the token exactly where the chain sets a text or is one firing. -/
theorem text_after_token {allowed : Request → Prop} {fits : TextStream → Prop}
    (hreach : Reachable g allowed fits TokenFactory.common src l)
    (hn : l.nextToken.1 = .ok token) (he : token.isEof = false) :
    ∃ earlier current start modes before last,
      Asks l (earlier ++ current) l.nextToken ∧
      ActiveLexer.picked current = (before ++ [last]).map Prod.fst ∧
      token.MadeOf g src l.sourceName modes start before last l.nextToken.2.context.modes ∧
      l.nextToken.2.text = lastText src before last token.span.stop ∧
      (l.nextToken.2.text = token.text ↔
        Action.last? Action.text? (chainActions (before ++ [last])) ≠ none ∨ before = []) := by
  cases hreach.idle with
  | detached => contradiction
  | @attached _ a ha hg hf =>
    obtain ⟨earlier, current, start, modes, before, w, m, kind, hs, hconcludes, hc⟩ :=
      ha.concludes hg hf hn he
    have hk : CharStream.index a.input ≤ CharStream.index a.pinned.input :=
      Nat.le_of_eq ha.index_pinned.symm
    obtain ⟨last, hgathered, hpicked, hmade⟩ := hconcludes.madeOf hk hf
    have htoken : m.build kind start = token := by
      change a.pinned.search.1 = .ok token at hn
      rw [hc] at hn
      exact Except.ok.inj hn
    rw [htoken] at hmade
    have hstop : token.span.stop = CharStream.index m.input :=
      hmade.stop_eq.trans hgathered.chain.stop_eq.symm
    obtain ⟨hlast, hstart⟩ := hconcludes.lastMatch hgathered
    have hfrom : token.span.stop - last.2 = m.engine.start := by omega
    have hcovered := hconcludes.text_lastMatch hk hgathered
    have htext : a.toLexer.nextToken.2.text = lastText src before last token.span.stop := by
      change Lexer.text (a.pinned.search.2.unpinned (CharStream.mark a.input).1).toLexer = _
      rw [hc, text_unpinned, lastText, ← hgathered.text_eq, hfrom, ← hcovered]
      rfl
    refine ⟨earlier, current ++ [w], start, modes, before, last, .searched hs, hpicked, ?_, htext,
      ?_⟩
    · change token.MadeOf g src a.sourceName modes start before last
        a.pinned.search.2.context.modes
      rw [hc]
      exact hmade
    · rw [htext, hmade.text_eq, lastText]
      cases Action.last? Action.text? (chainActions (before ++ [last])) with
      | some text => simp
      | none =>
        have hle : m.engine.start ≤ token.span.stop := by omega
        have hsize : last.2 = token.span.stop - m.engine.start := by omega
        simp only [Option.getD_none, ne_eq, not_true_eq_false, false_or, String.ofList_inj]
        rw [hfrom, hsize, take_drop_eq_iff (by omega) hle hmade.stop_le,
          hconcludes.lastMatch_start_iff hgathered]

/-- A lexer for quotations, before a source in memory. -/
def ofQuoting (source : String) : Lexer TextStream RuleEngine :=
  .ofInput (TextStream.ofString source "inline") (.ofGrammar Tokenization.quoting)
    TokenFactory.common

theorem reachable_ofQuoting (source : String) :
    Reachable Tokenization.quoting (fun _ => True) (fun _ => True) TokenFactory.common
      source.toList (ofQuoting source) :=
  .ofInput (TextStream.rests_ofString source "inline") trivial

/-- A word is a chain of one firing, and the lexer shows all of it. -/
theorem text_after_token_word :
    Reachable Tokenization.quoting (fun _ => True) (fun _ => True) TokenFactory.common
        "x\"ab\"".toList (ofQuoting "x\"ab\"") ∧
      (ofQuoting "x\"ab\"").nextToken.1 = .ok ⟨⟨1⟩, .default, "x", ⟨0, 1, 1, 0⟩, "inline"⟩ ∧
      (ofQuoting "x\"ab\"").nextToken.2.text = "x" := by
  have hreach := reachable_ofQuoting "x\"ab\""
  have hn : (ofQuoting "x\"ab\"").nextToken.1 =
      .ok ⟨⟨1⟩, .default, "x", ⟨0, 1, 1, 0⟩, "inline"⟩ := by cbv
  obtain ⟨earlier, current, start, modes, before, last, -, -, hmade, -, htext⟩ :=
    text_after_token hreach hn rfl
  have hstart : start.index = 0 := (congrArg Span.start hmade.span_eq).symm
  refine ⟨hreach, hn, htext.mpr (.inr ?_)⟩
  cases before with
  | nil => rfl
  | cons f before =>
    -- A second firing would take a second character.
    cases hmade.chain with
    | cons hw _ hrest =>
      have hpos := (ActiveLexer.winner_bounds hw).1
      have hlt := hrest.start_lt
      change start.index + _ < 1 at hlt
      omega

/-- After a quotation, a chain of firings, the lexer shows only the quote that closes it. -/
theorem quotation_shows_quote :
    Tokenization.quotingSpec.compile = .ok Tokenization.quoting ∧
      ∃ token : Token, (ofQuoting "\"ab\"").nextToken.1 = .ok token ∧ token.isEof = false ∧
        token.text = "\"ab\"" ∧ (ofQuoting "\"ab\"").nextToken.2.text = "\"" := by
  refine ⟨Tokenization.compile_quoting, ⟨⟨2⟩, .default, "\"ab\"", ⟨0, 4, 1, 0⟩, "inline"⟩,
    ?_, rfl, rfl, ?_⟩ <;> cbv

end Lexer

end ModalLex

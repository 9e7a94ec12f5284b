import ModalLex.Proofs.Tokenization.Tiling

/-!
# Texts that end in an open attempt

A rule that asks for more leaves its attempt open. Where the text ends in an open attempt the
engine's answer to the end of the input closes it, as an end token with the attempt's span, text
and channel. A sequence of tokens leaves end tokens out, so that the characters of such an
attempt are in no token, in no skip and in no diagnostic. All other characters are accounted for.
-/
namespace ModalLex

theorem Tiles.unique {start stop i : Nat} {attempts : List Attempt} (h : Tiles start attempts stop)
    {t u : Attempt} (ht : t ∈ attempts) (hu : u ∈ attempts) (hti : t.start ≤ i ∧ i < t.stop)
    (hui : u.start ≤ i ∧ i < u.stop) : t = u := by
  induction attempts generalizing start with
  | nil => exact absurd ht List.not_mem_nil
  | cons v rest ih =>
    obtain ⟨-, -, hr⟩ := h
    rcases List.mem_cons.mp ht with rfl | ht' <;> rcases List.mem_cons.mp hu with rfl | hu'
    · rfl
    · have hb := hr.mem_bounds hu'
      omega
    · have hb := hr.mem_bounds ht'
      omega
    · exact ih hr ht' hu'

theorem Token.Bare.on_nothing {e : Token} {index : Nat} (h : e.Bare index) :
    e.span.isEmpty = true ∧ e.text = "" ∧ e.channel = .default := by
  refine ⟨?_, h.text_eq, h.channel_eq⟩
  rw [Span.isEmpty, Span.length, h.start_eq, h.stop_eq, Nat.sub_self]
  rfl

/-- Once the end of the text was seen every call answers with an end token on nothing. -/
theorem Lexer.calls_ended {l : Lexer TextStream RuleEngine} {input : TextStream}
    (hi : l.input = some input) (he : l.hitEof = true) (hf : l.factory = TokenFactory.common)
    (n : Nat) : ∀ c ∈ l.calls n, ∃ e, c.1 = .ok e ∧ e.Bare (CharStream.index input) := by
  induction n generalizing l with
  | zero => exact fun c hc => absurd hc List.not_mem_nil
  | succ n ih =>
    obtain ⟨state, _⟩ := l
    obtain rfl := hi
    let a : ActiveLexer TextStream RuleEngine := { state with input }
    have hsearch : a.nextToken = a.emitEof := by
      rw [ActiveLexer.nextToken_text, ActiveLexer.search]
      exact if_pos he
    have hnext : (Lexer.mk state (some input)).nextToken = (a.emitEof.1, a.emitEof.2.toLexer) := by
      rw [← hsearch]
      rfl
    have hfactory : a.factory = TokenFactory.common := hf
    rw [calls, hnext]
    refine List.forall_mem_cons.mpr ⟨⟨_, rfl, ?_⟩, ih rfl he hf⟩
    rw [hfactory]
    exact ⟨rfl, rfl, if_neg (Nat.lt_irrefl _), rfl⟩

namespace Tokenization

variable {spec : GrammarSpec} {g : Grammar} {source name : String} {r : Tokenization} {i : Nat}

/-- The character at `i` is in a returned token, in a skip, or in an attempt with a diagnostic. -/
def Covered (g : Grammar) (source name : String) (r : Tokenization) (i : Nat) : Prop :=
  (∃ t ∈ r.tokens, t.span.start ≤ i ∧ i < t.span.stop) ∨
    ∃ t ∈ attempts g source name, (t.start ≤ i ∧ i < t.stop) ∧
      (t.ending = .skipped ∨ t.reported ≠ [])

/-- The text ends in an attempt that still asks for more. -/
def EndsOpen (g : Grammar) (source name : String) : Prop :=
  ∃ t ∈ attempts g source name, ∃ e, t.ending = .unfinished e

theorem covered_iff (h : Tiled g source name r) {t : Attempt} (ht : t ∈ attempts g source name)
    (hi : t.start ≤ i ∧ i < t.stop) :
    Covered g source name r i ↔ ∀ e, t.ending ≠ .unfinished e := by
  have haccounted := h.accounted t ht
  constructor
  · rintro (⟨token, htoken, hspan⟩ | ⟨u, hu, hui, hend⟩) e he
    · obtain ⟨u, hu, hue, hm⟩ := h.made htoken
      rw [hm.start_eq, hm.stop_eq] at hspan
      obtain rfl := h.tiles.unique ht hu hi hspan
      cases he.symm.trans hue
    · obtain rfl := h.tiles.unique ht hu hi hui
      rcases hend with hskip | hrep
      · cases he.symm.trans hskip
      · exact hrep (haccounted.unfinished he).2.2.1
  · intro hopen
    rw [Attempt.Accounted] at haccounted
    cases he : t.ending with
    | token token =>
      rw [he] at haccounted
      have hm := haccounted.1
      refine .inl ⟨token, ?_, by rw [hm.start_eq, hm.stop_eq]; exact hi⟩
      rw [h.tokens_eq]
      exact List.mem_filterMap.mpr ⟨t, ht, by rw [Attempt.token?, he]⟩
    | skipped => exact .inr ⟨t, ht, hi, .inl he⟩
    | unmatched =>
      rw [he] at haccounted
      refine .inr ⟨t, ht, hi, .inr fun hnil => ?_⟩
      rw [hnil] at haccounted
      cases haccounted
    | unfinished e => exact absurd he (hopen e)
    | failed e =>
      rw [he] at haccounted
      exact haccounted.elim

/-- Every character is covered exactly where the text does not end in an open attempt. -/
theorem all_covered_iff (h : Tiled g source name r) :
    (∀ i < source.length, Covered g source name r i) ↔ ¬ EndsOpen g source name := by
  constructor
  · rintro hall ⟨t, ht, e, he⟩
    obtain ⟨-, hlt, hle⟩ := h.tiles.mem_bounds ht
    have hi : t.start ≤ t.start ∧ t.start < t.stop := ⟨Nat.le_refl _, hlt⟩
    exact (covered_iff h ht hi).mp (hall t.start (by omega)) e he
  · intro hclosed i hi
    obtain ⟨t, ht, hti⟩ := h.tiles.covers (Nat.zero_le i) hi
    exact (covered_iff h ht hti).mpr fun e he => hclosed ⟨t, ht, e, he⟩

/-- An end token that a call answers with is on nothing, or was made of an open attempt. -/
theorem end_token_cases (hspec : spec.compile = .ok g) (hn : g.NeverAssignsEof)
    (h : tokenize g source name = .ok r) {n : Nat}
    {c : Except LexError Token × Lexer TextStream RuleEngine}
    (hc : c ∈ (lexer g source name).calls n) {e : Token} (hce : c.1 = .ok e)
    (heof : e.isEof = true) :
    (∃ index, e.Bare index) ∨ ∃ t ∈ attempts g source name, t.ending = .unfinished e := by
  obtain ⟨first, l, hended, hnoteof, hcalls⟩ := tokenize_ends hspec hn h
  have hmem : Except.ok e ∈ r.tokens.map Except.ok ++
      Except.ok first :: (l.calls n).map Prod.fst := by
    rw [← hcalls n, ← hce]
    exact List.mem_map_of_mem (Lexer.calls_subset (by omega) _ hc)
  rcases List.mem_append.mp hmem with htoken | hend
  · -- Tokens are no end tokens.
    obtain ⟨t, ht, hte⟩ := List.mem_map.mp htoken
    obtain rfl := Except.ok.inj hte
    rw [hnoteof t ht] at heof
    contradiction
  rcases List.mem_cons.mp hend with hfirst | hlater
  · obtain rfl := Except.ok.inj hfirst
    rcases hended.made with hmade | ⟨-, hb⟩
    · obtain ⟨t, ht, hte⟩ := List.exists_of_findSome?_eq_some hmade
      exact .inr ⟨t, ht, Attempt.ending_of_endToken? hte⟩
    · exact .inl ⟨_, hb⟩
  · obtain ⟨c', hc', hce'⟩ := List.mem_map.mp hlater
    obtain ⟨input, hinput, -⟩ := hended.input_eq
    obtain ⟨e', he', hb⟩ :=
      Lexer.calls_ended hinput hended.hitEof_eq hended.common n c' hc'
    obtain rfl := Except.ok.inj (hce'.symm.trans he')
    exact .inl ⟨_, hb⟩

/-- Every end token that a call answers with is on nothing exactly where the text does not end
in an open attempt. -/
theorem ends_bare_iff (hspec : spec.compile = .ok g) (hn : g.NeverAssignsEof)
    (h : tokenize g source name = .ok r) :
    (∀ n, ∀ c ∈ (lexer g source name).calls n, ∀ e, c.1 = .ok e → e.isEof = true →
        e.span.isEmpty = true ∧ e.text = "" ∧ e.channel = .default) ↔
      ¬ EndsOpen g source name := by
  have htiled := tiled_of_tokenize hspec hn h
  constructor
  · rintro hbare ⟨t, ht, e, he⟩
    obtain ⟨hm, hk, -, -⟩ := (htiled.accounted t ht).unfinished he
    have hanswers := (htiled.unfinished_last t ht e he).2
    have hmem : Except.ok e ∈ ((lexer g source name).calls (r.tokens.length + 1)).map Prod.fst := by
      rw [hanswers]
      exact List.mem_append_right _ List.mem_cons_self
    obtain ⟨c, hc, hce⟩ := List.mem_map.mp hmem
    have hempty := (hbare _ c hc e hce (beq_iff_eq.mpr hk)).1
    have hlt := (htiled.tiles.mem_bounds ht).2.1
    rw [Span.isEmpty, Span.length, hm.start_eq, hm.stop_eq, beq_iff_eq] at hempty
    omega
  · intro hclosed n c hc e hce heof
    rcases end_token_cases hspec hn h hc hce heof with ⟨index, hb⟩ | ⟨t, ht, he⟩
    · exact hb.on_nothing
    · exact absurd ⟨t, ht, e, he⟩ hclosed

theorem neverAssignsEof_of_user (h : ∀ rule ∈ g.rules, ∀ k, Action.kind k ∈ rule.actions →
    TokenKind.minUser.code ≤ k.code) : g.NeverAssignsEof := by
  intro rule hr he
  exact absurd (h rule hr .eof he) (by decide)

/-- Nothing is lost exactly where the text does not end in an open attempt. For every compiled
grammar whose actions assign no reserved kind, and every text that is tokenized: all characters
are in a token, in a skip or in an attempt with a diagnostic, exactly where no attempt is left
open; only then is every end token on nothing; and what is lost otherwise are the characters of
the open attempt. -/
theorem nothing_lost_iff (hspec : spec.compile = .ok g)
    (huser : ∀ rule ∈ g.rules, ∀ k, Action.kind k ∈ rule.actions →
      TokenKind.minUser.code ≤ k.code)
    (h : tokenize g source name = .ok r) :
    ((∀ i < source.length, Covered g source name r i) ↔ ¬ EndsOpen g source name) ∧
      ((∀ n, ∀ c ∈ (lexer g source name).calls n, ∀ e, c.1 = .ok e → e.isEof = true →
          e.span.isEmpty = true ∧ e.text = "" ∧ e.channel = .default) ↔
        ¬ EndsOpen g source name) ∧
      ∀ t ∈ attempts g source name, ∀ i, t.start ≤ i ∧ i < t.stop →
        (Covered g source name r i ↔ ∀ e, t.ending ≠ .unfinished e) := by
  have hn := neverAssignsEof_of_user huser
  have htiled := tiled_of_tokenize hspec hn h
  exact ⟨all_covered_iff htiled, ends_bare_iff hspec hn h, fun t ht i hi => covered_iff htiled ht hi⟩

theorem quoting_actions_user : ∀ rule ∈ quoting.rules, ∀ k, Action.kind k ∈ rule.actions →
    TokenKind.minUser.code ≤ k.code := by
  have hnone : ∀ rule ∈ quoting.rules, ∀ a ∈ rule.actions,
      (match a with
        | .kind _ => false
        | _ => true) = true := by decide
  intro rule hr k hk
  cases hnone rule hr _ hk

theorem nothing_lost_quoting :
    quotingSpec.compile = .ok quoting ∧
      (∀ rule ∈ quoting.rules, ∀ k, Action.kind k ∈ rule.actions →
        TokenKind.minUser.code ≤ k.code) ∧
      ∃ r, tokenize quoting "x\"ab\"" "inline" = .ok r ∧
        ∀ i < "x\"ab\"".length, Covered quoting "x\"ab\"" "inline" r i := by
  have h : tokenize quoting "x\"ab\"" "inline" =
      .ok ⟨[⟨⟨1⟩, .default, "x", ⟨0, 1, 1, 0⟩, "inline"⟩,
        ⟨⟨2⟩, .default, "\"ab\"", ⟨1, 5, 1, 1⟩, "inline"⟩], []⟩ := by cbv
  refine ⟨compile_quoting, quoting_actions_user, _, h, ?_⟩
  refine (nothing_lost_iff compile_quoting quoting_actions_user h).1.mpr ?_
  have hends : (attempts quoting "x\"ab\"" "inline").map Attempt.ending =
      [.token ⟨⟨1⟩, .default, "x", ⟨0, 1, 1, 0⟩, "inline"⟩,
        .token ⟨⟨2⟩, .default, "\"ab\"", ⟨1, 5, 1, 1⟩, "inline"⟩] := by cbv
  rintro ⟨t, ht, e, he⟩
  have hmem := List.mem_map_of_mem (f := Attempt.ending) ht
  rw [hends, he] at hmem
  simp at hmem

/-- A text in quotes that is never closed is lost: the tokens stop before the quote, nothing is
reported, and the end token spans what was lost. -/
theorem open_quote_lost :
    quotingSpec.compile = .ok quoting ∧
      tokenize quoting "x\"ab" "inline" =
        .ok ⟨[⟨⟨1⟩, .default, "x", ⟨0, 1, 1, 0⟩, "inline"⟩], []⟩ ∧
      ¬ Covered quoting "x\"ab" "inline"
        ⟨[⟨⟨1⟩, .default, "x", ⟨0, 1, 1, 0⟩, "inline"⟩], []⟩ 1 ∧
      ((lexer quoting "x\"ab" "inline").calls 2).map Prod.fst =
        [.ok ⟨⟨1⟩, .default, "x", ⟨0, 1, 1, 0⟩, "inline"⟩,
          .ok ⟨.eof, .default, "\"ab", ⟨1, 4, 1, 1⟩, "inline"⟩] := by
  refine ⟨compile_quoting, by cbv, ?_, by cbv⟩
  have hattempts : (attempts quoting "x\"ab" "inline").map
        (fun t => (t.start, t.stop, t.ending, t.reported)) =
      [(0, 1, .token ⟨⟨1⟩, .default, "x", ⟨0, 1, 1, 0⟩, "inline"⟩, []),
        (1, 4, .unfinished ⟨.eof, .default, "\"ab", ⟨1, 4, 1, 1⟩, "inline"⟩, [])] := by cbv
  rintro (⟨t, ht, hi⟩ | ⟨t, ht, hi, hend⟩)
  · rw [List.mem_singleton.mp ht] at hi
    exact absurd hi.2 (by decide)
  · have hmem := List.mem_map_of_mem (f := fun t : Attempt =>
      (t.start, t.stop, t.ending, t.reported)) ht
    simp only [hattempts, List.mem_cons, Prod.mk.injEq, List.not_mem_nil, or_false] at hmem
    rcases hmem with ⟨-, hstop, -, -⟩ | ⟨-, -, hopen, hrep⟩
    · omega
    · rcases hend with hskip | hne
      · cases hopen.symm.trans hskip
      · exact hne hrep

end Tokenization

end ModalLex

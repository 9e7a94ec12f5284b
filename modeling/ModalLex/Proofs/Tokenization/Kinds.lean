import ModalLex.Proofs.Tokenization.Safety

/-!
# The kinds of tokens

A token's kind is the one that its last rule decided on, be it the rule's own or one that an action
assigned. Compilation checks the former only. The sequence of tokens goes by the kind alone, so that
a rule that decides on the end kind ends it wherever the text stands.
-/
namespace ModalLex

open TextView

/-- The kind of the token that a rule makes, if it makes one. -/
def Rule.decides (r : Rule) : Option TokenKind :=
  match r.decision with
  | .token kind => some kind
  | .more | .skip => none

theorem Rule.decides_eq_some {r : Rule} {kind : TokenKind} :
    r.decides = some kind ↔ r.decision = .token kind := by
  rw [decides]
  cases r.decision <;> simp

namespace ActiveLexer

section

variable {σ : Type} [CharStream σ]

/-- The kinds that the rules which fire from these lexers decide on. -/
def decided (firings : List (ActiveLexer σ RuleEngine)) : List TokenKind :=
  (picked firings).filterMap Rule.decides

@[simp]
theorem decided_append (firings rest : List (ActiveLexer σ RuleEngine)) :
    decided (firings ++ rest) = decided firings ++ decided rest := by
  rw [decided, picked, List.filterMap_append, List.filterMap_append]
  rfl

theorem decided_cons (l : ActiveLexer σ RuleEngine) (firings : List (ActiveLexer σ RuleEngine)) :
    decided (l :: firings) = decided [l] ++ decided firings :=
  decided_append [l] firings

@[simp]
theorem decided_singleton (l : ActiveLexer σ RuleEngine) :
    decided [l] = (l.pick.bind Rule.decides).toList := by
  rw [decided, picked_singleton]
  cases l.pick with
  | none => rfl
  | some r => cases hd : r.decides <;> simp [hd]

variable [LawfulView σ] {src : List Char} {kept : Nat} {start : TokenStart}
  {l m : ActiveLexer σ RuleEngine} {v : Verdict} {firings : List (ActiveLexer σ RuleEngine)}
  {c : Except LexError Token × ActiveLexer σ RuleEngine}

/-- Only a rule decides on a kind; where the engine answers by itself the text has ended. -/
theorem Working.decided_matched (h : Working src kept l) {kind : TokenKind}
    (hf : Fired src kept start l (.matched kind) m) :
    decided [l] = [kind] ∨
      decided [l] = [] ∧ kind = .eof ∧ CharStream.index m.input = src.length := by
  generalize hv : Verdict.matched kind = v at hf
  rw [decided_singleton, h.pick_eq]
  cases hf with
  | ended hend ht =>
    rw [hend, List.drop_length, winner?_nil]
    exact .inr ⟨rfl, Verdict.matched.inj hv, ht.index_eq.trans hend⟩
  | @won _ r _ _ _ hw =>
    rw [hw]
    cases hd : r.decision with
    | token k =>
      rw [hd] at hv
      obtain rfl := Verdict.matched.inj hv
      exact .inl (congrArg Option.toList (Rule.decides_eq_some.mpr hd))
    | more | skip =>
      rw [hd] at hv
      contradiction
  | undeclared | underflow | refused | unmatched => contradiction

theorem Working.decided_onward (h : Working src kept l) (hf : Fired src kept start l v m)
    (hv : v = .more ∨ v = .skipped) : decided [l] = [] := by
  rw [decided_singleton, h.pick_eq]
  cases hf with
  | ended | undeclared | underflow | refused => exact hv.elim nofun nofun
  | @won _ r _ _ _ hw =>
    rw [hw]
    cases hd : r.decision with
    | token k =>
      rw [hd] at hv
      exact hv.elim nofun nofun
    | more | skip =>
      have hnone : r.decides = none := by rw [Rule.decides, hd]
      exact congrArg Option.toList hnone
  | unmatched hw =>
    rw [hw]
    rfl

/-- A run that answers with a token has fired the rule that decided on its kind, or has seen the
end of the text. -/
theorem Runs.decided_eq (hr : Runs start l firings c) (h : Working src kept l)
    (hf : l.factory = TokenFactory.common) {token : Token} (hc : c.1 = .ok token) :
    decided firings = [token.kind] ∨
      decided firings = [] ∧ token.kind = .eof ∧ CharStream.index c.2.input = src.length := by
  induction hr with
  | failed => contradiction
  | injected hfire => exact (h.fired hfire).not_injected.elim
  | matched hfire =>
    have hfired := h.fired hfire
    obtain ⟨n, ht⟩ := hfired.took
    have hd := h.decided_matched hfired
    rw [← Except.ok.inj hc, build_kind (ht.factory_eq.trans hf)]
    exact hd
  | @ended _ _ m hfire hflag =>
    have hfired := h.fired hfire
    obtain ⟨n, ht⟩ := hfired.took
    exact .inr ⟨h.decided_onward hfired (.inr rfl), emitEof_kind (ht.factory_eq.trans hf) hc,
      (hfired.working h).eof_imp hflag⟩
  | more hfire hruns ih =>
    have hfired := h.fired hfire
    obtain ⟨n, ht⟩ := hfired.took
    rw [decided_cons, h.decided_onward hfired (.inl rfl)]
    exact ih (hfired.working h) (ht.factory_eq.trans hf) hc
  | onward hfire he hruns ih =>
    have hfired := h.fired hfire
    have hm := hfired.working h
    obtain ⟨n, ht⟩ := hfired.took
    rw [decided_cons, h.decided_onward hfired (.inr rfl)]
    exact ih (.begin hm.shows hm.eof_imp) (ht.factory_eq.trans hf) hc

theorem Searches.decided_eq (hs : Searches l firings c) (hshows : Shows src kept l.input)
    (he : l.hitEof = true → CharStream.index l.input = src.length)
    (hf : l.factory = TokenFactory.common) {token : Token} (hc : c.1 = .ok token) :
    decided firings = [token.kind] ∨
      decided firings = [] ∧ token.kind = .eof ∧ CharStream.index c.2.input = src.length := by
  cases hs with
  | ended hflag => exact .inr ⟨rfl, emitEof_kind hf hc, he hflag⟩
  | begun hflag hruns => exact hruns.decided_eq (.begin hshows he) hf hc

end

variable {σ : Type} [CharStream σ] [RoamingView σ] {g : Grammar} {src : List Char}
  {a b : ActiveLexer σ RuleEngine} {firings : List (ActiveLexer σ RuleEngine)}

theorem Idle.decided_eq (h : a.Idle src) (hs : Searches a.pinned firings a.pinned.search)
    (hf : a.factory = TokenFactory.common) {token : Token} (hc : a.nextToken = (.ok token, b)) :
    decided firings = [token.kind] ∨
      decided firings = [] ∧ token.kind = .eof ∧ CharStream.index b.input = src.length := by
  have hi := h.index_nextToken
  rw [hc] at hi
  rw [hi]
  exact hs.decided_eq h.pinned h.eof_pinned hf (congrArg Prod.fst hc)

/-- A drained sequence has the kinds that its rules decided on. It ends with the text, or where a
rule decided on the end kind. -/
theorem Drains.decided_eq {c : Except LexError (List Token) × ActiveLexer σ RuleEngine}
    (hd : Drains a firings c) (h : a.Idle src) (hf : a.factory = TokenFactory.common)
    {tokens : List Token} (hc : c.1 = .ok tokens) :
    (∀ t ∈ tokens, t.kind ≠ .eof) ∧
      (decided firings = tokens.map Token.kind ∧ CharStream.index c.2.input = src.length ∨
        decided firings = tokens.map Token.kind ++ [.eof]) := by
  induction hd generalizing tokens with
  | failed => contradiction
  | @ended a b firings token hs hnext heof =>
    obtain rfl := Except.ok.inj hc
    refine ⟨fun t ht => absurd ht List.not_mem_nil, ?_⟩
    rcases h.decided_eq hs hf hnext with hd | ⟨hd, -, hi⟩
    · exact .inr (by rw [hd, beq_iff_eq.mp heof]; rfl)
    · exact .inl ⟨hd, hi⟩
  | @token a b firings rest token c hs hnext heof hdrains ih =>
    obtain ⟨tokens', hc', rfl⟩ := map_ok hc
    have hidle := h.nextToken.idle
    obtain ⟨n, hw⟩ := h.nextToken.went
    have hfactory := hw.factory_eq.trans hf
    rw [hnext] at hidle hfactory
    have hkind : token.kind ≠ .eof := beq_eq_false_iff_ne.mp heof
    have hone := (h.decided_eq hs hf hnext).resolve_right fun hend => hkind hend.2.1
    obtain ⟨hkinds, hrest⟩ := ih hidle hfactory hc'
    refine ⟨List.forall_mem_cons.mpr ⟨hkind, hkinds⟩, ?_⟩
    rw [decided_append, hone, List.map_cons]
    rcases hrest with ⟨hd, hi⟩ | hd
    · exact .inl ⟨by rw [hd]; rfl, hi⟩
    · exact .inr (by rw [hd]; rfl)

/-- The kinds of a drained sequence are those that its rules decided on, up to the end kind. -/
theorem Drains.map_kind {tokens : List Token} {l : ActiveLexer σ RuleEngine}
    (hd : Drains a firings (.ok tokens, l)) (h : a.Idle src)
    (hf : a.factory = TokenFactory.common) :
    tokens.map Token.kind = (decided firings).filter (· ≠ .eof) := by
  obtain ⟨hkinds, hends⟩ := hd.decided_eq h hf rfl
  have hself : (tokens.map Token.kind).filter (· ≠ .eof) = tokens.map Token.kind := by
    simpa using hkinds
  rcases hends with ⟨hd, -⟩ | hd
  · rw [hd, hself]
  · rw [hd, List.filter_append, hself]
    exact (List.append_nil _).symm

/-- A drained sequence has kinds that a grammar may give, and ends with the text, exactly where no
rule decided on a reserved kind. -/
theorem Drains.user_iff {tokens : List Token} {l : ActiveLexer σ RuleEngine}
    (hd : Drains a firings (.ok tokens, l)) (h : a.Idle src)
    (hf : a.factory = TokenFactory.common) :
    (∀ t ∈ tokens, TokenKind.minUser.code ≤ t.kind.code) ∧
        CharStream.index l.input = src.length ∧ TokenKind.eof ∉ decided firings ↔
      ∀ k ∈ decided firings, TokenKind.minUser.code ≤ k.code := by
  obtain ⟨-, hends⟩ := hd.decided_eq h hf rfl
  constructor
  · rintro ⟨htokens, -, heof⟩ k hk
    rcases hends with ⟨hd, -⟩ | hd
    · rw [hd] at hk
      obtain ⟨t, ht, rfl⟩ := List.mem_map.mp hk
      exact htokens t ht
    · rw [hd] at heof
      exact absurd (List.mem_append_right _ List.mem_cons_self) heof
  · intro hall
    have heof : TokenKind.eof ∉ decided firings := fun he => absurd (hall _ he) (by decide)
    rcases hends with ⟨hd, hi⟩ | hd
    · refine ⟨fun t ht => hall _ ?_, hi, heof⟩
      rw [hd]
      exact List.mem_map_of_mem ht
    · rw [hd] at heof
      exact absurd (List.mem_append_right _ List.mem_cons_self) heof

theorem Drains.decision_of_decided (hg : g.Sound)
    {c : Except LexError (List Token) × ActiveLexer σ RuleEngine} (hd : Drains a firings c)
    (h : a.Idle src) (hs : Steady g a) {k : TokenKind} (hk : k ∈ decided firings) :
    ∃ r ∈ g.rules, r.decision = .token k := by
  obtain ⟨r, hr, hrk⟩ := List.mem_filterMap.mp hk
  obtain ⟨f, hf, hpick⟩ := List.mem_filterMap.mp hr
  exact ⟨r, (hd.safe hg h hs).mem_rules hf hpick, Rule.decides_eq_some.mp hrk⟩

end ActiveLexer

namespace Tokenization

open ActiveLexer

variable {g : Grammar} {source name : String} {r : Tokenization}

/-- Which kinds come out, and where the sequence ends. For every compiled grammar and every text
that is tokenized: the tokens have the kinds that the fired rules decided on, up to the end kind;
all of them are kinds that a grammar may give, and the sequence ends because the text does, exactly
where no fired rule decided on a reserved kind; and that is so for all texts where no action assigns
a reserved kind. -/
theorem kinds_user_iff {spec : GrammarSpec} (hspec : spec.compile = .ok g)
    (h : tokenize g source name = .ok r) :
    ∃ firings l, (active g source name).Drains firings (.ok r.tokens, l) ∧
      (lexer g source name).allTokens = (.ok r.tokens, l.toLexer) ∧
      r.tokens.map Token.kind = (decided firings).filter (· ≠ .eof) ∧
      ((∀ t ∈ r.tokens, TokenKind.minUser.code ≤ t.kind.code) ∧
          CharStream.index l.input = source.length ∧ TokenKind.eof ∉ decided firings ↔
        ∀ k ∈ decided firings, TokenKind.minUser.code ≤ k.code) ∧
      ((∀ rule ∈ g.rules, ∀ k, Action.kind k ∈ rule.actions →
          TokenKind.minUser.code ≤ k.code) →
        (∀ t ∈ r.tokens, TokenKind.minUser.code ≤ t.kind.code) ∧
          CharStream.index l.input = source.length ∧ TokenKind.eof ∉ decided firings) := by
  have hg := GrammarSpec.compile_sound hspec
  have hidle := idle_active g source name
  obtain ⟨firings, ⟨answer, l⟩, hdrains, hall⟩ := exists_drains hg source name
  obtain ⟨tokens, rfl, rfl⟩ := map_ok ((tokenize_of_allTokens hall).symm.trans h)
  have huser := hdrains.user_iff hidle rfl
  rw [String.length_toList] at huser
  refine ⟨firings, l, hdrains, hall, hdrains.map_kind hidle rfl, huser,
    fun hactions => huser.mpr fun k hk => ?_⟩
  obtain ⟨rule, hr, hdec⟩ :=
    hdrains.decision_of_decided hg hidle (steady_active hg source name) hk
  exact (Rule.kind_of_decision hdec).elim (hactions rule hr k) (hg.kind_ge rule hr k)

/-- A rule that assigns kind 0, and one that assigns the end kind. -/
def reservingSpec : GrammarSpec where
  name := "Reserving"
  modes := [
    ⟨"MAIN", [
      .token "WORD" ⟨1⟩ (.oneOrMore "a-z"),
      (RuleSpec.token "ZERO" ⟨2⟩ (.literal "0")).withAction (.kind ⟨0⟩),
      (RuleSpec.token "STOP" ⟨3⟩ (.literal ";")).withAction (.kind .eof)]⟩]

def reserving : Grammar where
  name := "Reserving"
  modes := [
    ⟨"MAIN", [
      ⟨"WORD", some ⟨1⟩, .set ⟨[('a', 'z')], false⟩ 1 none, []⟩,
      ⟨"ZERO", some ⟨2⟩, .literal ['0'], [.kind ⟨0⟩]⟩,
      ⟨"STOP", some ⟨3⟩, .literal [';'], [.kind .eof]⟩]⟩]

theorem compile_reserving : reservingSpec.compile = .ok reserving := by rfl

theorem kinds_user_iff_reserving :
    reservingSpec.compile = .ok reserving ∧
      tokenize reserving "a0" "inline" =
        .ok ⟨[⟨⟨1⟩, .default, "a", ⟨0, 1, 1, 0⟩, "inline"⟩,
          ⟨⟨0⟩, .default, "0", ⟨1, 2, 1, 1⟩, "inline"⟩], []⟩ ∧
      ∃ firings, [⟨1⟩, ⟨0⟩] = (decided firings).filter (· ≠ .eof) ∧
        ∃ l, (active reserving "a0" "inline").Drains firings l := by
  have h : tokenize reserving "a0" "inline" =
      .ok ⟨[⟨⟨1⟩, .default, "a", ⟨0, 1, 1, 0⟩, "inline"⟩,
        ⟨⟨0⟩, .default, "0", ⟨1, 2, 1, 1⟩, "inline"⟩], []⟩ := by cbv
  obtain ⟨firings, l, hdrains, -, hkinds, -⟩ := kinds_user_iff compile_reserving h
  exact ⟨compile_reserving, h, firings, hkinds, _, hdrains⟩

/-- Compilation accepts rules whose actions assign reserved kinds, and then a token of kind 0 is
returned, and the tokens end at a rule that assigns the end kind: what follows is neither tokenized
nor reported. -/
theorem reserved_kinds_escape :
    reservingSpec.compile = .ok reserving ∧
      tokenize reserving "a0;b" "inline" =
        .ok ⟨[⟨⟨1⟩, .default, "a", ⟨0, 1, 1, 0⟩, "inline"⟩,
          ⟨⟨0⟩, .default, "0", ⟨1, 2, 1, 1⟩, "inline"⟩], []⟩ ∧
      ¬ TokenKind.minUser.code ≤ (⟨0⟩ : TokenKind).code ∧
      (lexer reserving "a0;b" "inline").allTokens.2.charIndex < "a0;b".length :=
  ⟨compile_reserving, by cbv, by decide, by cbv⟩

end Tokenization

end ModalLex

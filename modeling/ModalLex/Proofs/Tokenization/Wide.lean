import ModalLex.Proofs.Lexer.EndOfInput
import ModalLex.Proofs.Pattern.Naming
import ModalLex.Proofs.Tokenization.Reports

/-!
# Characters above the bound

A character above `maxChar` that lies in an attempt is named by a rule that has fired in it, or no
rule takes it: then the attempt ends with it and is reported. So a character above the bound which
no rule of the grammar names is reported wherever the lexer comes to it. A rule that names one
takes it as it takes any other.
-/
namespace ModalLex

open TextView

/-- The attempts lie one behind the other from `start` to `stop`, and all have the property. -/
def Adjoin (P : Attempt → Prop) (start : Nat) : List Attempt → (stop : Nat) → Prop
  | [], stop => start = stop
  | t :: rest, stop => t.start = start ∧ P t ∧ Adjoin P t.stop rest stop

namespace Adjoin

variable {P : Attempt → Prop} {start middle stop i : Nat} {attempts rest : List Attempt}
  {t : Attempt}

theorem single (h : P t) : Adjoin P t.start [t] t.stop := ⟨rfl, h, rfl⟩

theorem append (h : Adjoin P start attempts middle) (h' : Adjoin P middle rest stop) :
    Adjoin P start (attempts ++ rest) stop := by
  induction attempts generalizing start with
  | nil =>
    obtain rfl : start = middle := h
    exact h'
  | cons t attempts ih =>
    obtain ⟨hstart, ht, hrest⟩ := h
    exact ⟨hstart, ht, ih hrest⟩

theorem mem (h : Adjoin P start attempts stop) (ht : t ∈ attempts) : P t := by
  induction attempts generalizing start with
  | nil => exact absurd ht List.not_mem_nil
  | cons u attempts ih =>
    obtain ⟨-, hu, hrest⟩ := h
    rcases List.mem_cons.mp ht with rfl | ht
    · exact hu
    · exact ih hrest ht

theorem covers (h : Adjoin P start attempts stop) (hlo : start ≤ i) (hhi : i < stop) :
    ∃ t ∈ attempts, t.start ≤ i ∧ i < t.stop := by
  induction attempts generalizing start with
  | nil =>
    rw [Adjoin] at h
    omega
  | cons t attempts ih =>
    obtain ⟨hstart, -, hrest⟩ := h
    by_cases hi : i < t.stop
    · exact ⟨t, List.mem_cons_self, by omega, hi⟩
    · obtain ⟨u, hu, hb⟩ := ih hrest (Nat.le_of_not_lt hi)
      exact ⟨u, List.mem_cons_of_mem _ hu, hb⟩

end Adjoin

/-- What an attempt makes of the characters above the bound that lie in it, and of its token. -/
structure Attempt.Bounded (g : Grammar) (name : String) (src : List Char) (t : Attempt) :
    Prop where
  fired_subset : t.fired ⊆ g.rules
  wide : ∀ i c, t.start ≤ i → i < t.stop → src[i]? = some c → maxChar < c →
    (∃ r ∈ t.fired, r.pattern.Names c) ∨
      t.ending = .unmatched ∧ t.stop = i + 1 ∧ t.reported = [t.report name src]
  spans : ∀ token, t.ending = .token token →
    token.span.start = t.start ∧ token.span.stop = t.stop

namespace ActiveLexer

section

variable {σ : Type} [CharStream σ] [LawfulView σ] {g : Grammar} {name : String} {inbox : Nat}
  {src : List Char} {kept : Nat} {l m : ActiveLexer σ RuleEngine} {o : Begun} {start : TokenStart}
  {v : Verdict} {modes : ModeId × List ModeId} {firings : List (ActiveLexer σ RuleEngine)}
  {c : Except LexError Token × ActiveLexer σ RuleEngine}

/-- The rules that have fired in an attempt name all it has taken of what lies above the bound. -/
structure Accountable (g : Grammar) (src : List Char) (o : Begun) (l : ActiveLexer σ RuleEngine) :
    Prop where
  grammar_eq : l.engine.grammar = g
  fired_subset : o.fired ⊆ g.rules
  named : ∀ i c, o.start.index ≤ i → i < CharStream.index l.input → src[i]? = some c →
    maxChar < c → ∃ r ∈ o.fired, r.pattern.Names c

/-- What a winner takes it has matched, so that it names what lies above the bound. -/
theorem Accountable.won (ho : Accountable g src o l) {r : Rule} {n : Nat}
    (hw : winner? (l.engine.grammar.rulesOf l.context.mode)
      (src.drop (CharStream.index l.input)) = some (r, n)) (ht : Took src kept l n m) :
    Accountable g src (o.after (some r)) m where
  grammar_eq := ht.grammar_eq.trans ho.grammar_eq
  fired_subset := by
    rw [ho.grammar_eq] at hw
    refine List.append_subset.mpr ⟨ho.fired_subset, ?_⟩
    exact List.cons_subset.mpr ⟨g.rulesOf_subset _ (winner?_spec hw).1, List.nil_subset _⟩
  named i ch hlo hhi hc hwide := by
    have hindex := ht.index_eq
    by_cases hi : i < CharStream.index l.input
    · obtain ⟨q, hq, hn⟩ := ho.named i ch hlo hi hc hwide
      exact ⟨q, List.mem_append_left _ hq, hn⟩
    · obtain ⟨k, rfl⟩ := Nat.exists_eq_add_of_le (Nat.le_of_not_lt hi)
      have hmem : ch ∈ (src.drop (CharStream.index l.input)).take n := by
        refine List.mem_of_getElem? (i := k) ?_
        rw [List.getElem?_take_of_lt (by omega), List.getElem?_drop, hc]
      exact ⟨r, List.mem_append_right _ (List.mem_singleton_self r),
        Pattern.names_of_lengthOn hwide _ (winner?_spec hw).2.1 hmem⟩

theorem Accountable.still (ho : Accountable g src o l) (ht : Took src kept l 0 m) :
    Accountable g src o m where
  grammar_eq := ht.grammar_eq.trans ho.grammar_eq
  fired_subset := ho.fired_subset
  named := by
    rw [ht.index_eq]
    exact ho.named

/-- A firing adds the rule that it picks, unless it drops a character that no rule takes. -/
theorem Accountable.fired (ho : Accountable g src o l) (h : Working src kept l)
    (hf : Fired src kept start l v m) (hv : l.pick = none → v ≠ .skipped) :
    Accountable g src (o.after l.pick) m := by
  rw [h.pick_eq] at hv ⊢
  cases hf with
  | underflow hw _ ht | won hw _ ht =>
    rw [hw]
    exact ho.won hw ht
  | ended hend ht =>
    rw [hend, List.drop_length, winner?_nil, Option.map_none, Begun.after_none]
    exact ho.still ht
  | undeclared _ hmode ht =>
    have hnone : winner? (l.engine.grammar.rulesOf l.context.mode)
        (src.drop (CharStream.index l.input)) = none := by
      rw [Grammar.rulesOf, hmode]
      rfl
    rw [hnone, Option.map_none, Begun.after_none]
    exact ho.still ht
  | refused hw _ _ _ ht =>
    rw [hw, Option.map_none, Begun.after_none]
    exact ho.still ht
  | unmatched hw =>
    rw [hw] at hv
    exact absurd rfl (hv rfl)

omit [LawfulView σ] in
/-- An attempt that ends where all that it has taken is accounted for. -/
theorem Accountable.bounded (ho : Accountable g src o m) {ending : Ending}
    (hs : ∀ token, ending = .token token →
      token.span.start = o.start.index ∧ token.span.stop = CharStream.index m.input) :
    (o.ended m ending).Bounded g name src where
  fired_subset := ho.fired_subset
  wide i ch hlo hhi hc hwide := .inl (ho.named i ch hlo hhi hc hwide)
  spans := hs

/-- Where no rule is picked and the attempt is dropped, it is for the next character. -/
theorem index_of_unmatched (h : Working src kept l) (hfire : l.fire start = (.skipped, m))
    (hp : l.pick = none) : CharStream.index m.input = CharStream.index l.input + 1 := by
  have hf := h.fired hfire
  generalize hv : Verdict.skipped = v at hf
  rw [h.pick_eq] at hp
  cases hf with
  | won hw =>
    rw [hw] at hp
    contradiction
  | unmatched _ _ _ _ ht => exact ht.index_eq
  | ended | undeclared | underflow | refused => contradiction

/-- An attempt that is dropped, by a rule or for a character that no rule takes. -/
theorem Accountable.dropped (ho : Accountable g src o l) (hu : Pursues src modes o l)
    (h : Working src kept l) (hl : Collects g name inbox src l) (hk : kept ≤ o.start.index)
    (hfire : l.fire o.start = (.skipped, m)) :
    ((o.after l.pick).ended m (if l.pick.isSome then .skipped else .unmatched)).Bounded
      g name src := by
  cases hp : l.pick with
  | some r =>
    have hnext := ho.fired h (h.fired hfire) fun hnone => absurd (hp.symm.trans hnone) nofun
    rw [hp] at hnext
    exact hnext.bounded nofun
  | none =>
    rw [Begun.after_none]
    obtain ⟨hpasses, -⟩ := hu.unmatched h hl hk hfire hp
    have hindex := index_of_unmatched h hfire hp
    refine ⟨ho.fired_subset, fun i ch hlo hhi hc hwide => ?_, nofun⟩
    change i < CharStream.index m.input at hhi
    by_cases hi : i < CharStream.index l.input
    · exact .inl (ho.named i ch hlo hi hc hwide)
    · refine .inr ⟨rfl, ?_, ?_⟩
      · change CharStream.index m.input = i + 1
        omega
      · cases hpasses with
        | settled _ _ hmatched => contradiction
        | unmatched _ _ _ _ _ hreported => exact hreported

/-- By induction on the run: the attempts lie one behind the other, up to where the lexer comes. -/
theorem Runs.adjoin (hr : Runs start l firings c) (h : Working src kept l)
    (hl : Collects g name inbox src l) (hf : l.factory = TokenFactory.common)
    (hk : kept ≤ o.start.index) (hu : Pursues src modes o l) (ho : Accountable g src o l)
    (hstart : o.start = start) (extra : Nat) :
    Adjoin (Attempt.Bounded g name src) o.start.index (runAttempts (extra + firings.length) o l)
      (CharStream.index c.2.input) := by
  induction hr generalizing o modes with
  | @failed _ l m e hfire =>
    subst hstart
    have hnext := ho.fired h (h.fired hfire) fun _ => nofun
    rw [List.length_singleton, runAttempts_failed extra hfire]
    exact .single (hnext.bounded nofun)
  | injected hfire => exact (h.fired hfire).not_injected.elim
  | @matched _ l m kind hfire =>
    subst hstart
    have hfired := h.fired hfire
    obtain ⟨n, htook⟩ := hfired.took
    have hnext := ho.fired h hfired fun _ => nofun
    cases hp : l.pick with
    | some r =>
      rw [hp] at hnext
      rw [List.length_singleton, runAttempts_token extra hp hfire]
      refine .single (hnext.bounded fun token ht => ?_)
      obtain rfl := Ending.token.inj ht
      rw [build_span (htook.factory_eq.trans hf)]
      exact ⟨rfl, rfl⟩
    | none =>
      rw [hp, Begun.after_none] at hnext
      obtain ⟨-, hleads⟩ := hu.matched h hfired hp
      rw [List.length_singleton, runAttempts_end extra hp hfire]
      split
      · rename_i hnone
        exact hleads.start_eq (List.isEmpty_iff.mp hnone)
      · exact .single (hnext.bounded nofun)
  | more hfire hruns ih =>
    subst hstart
    have hfired := h.fired hfire
    obtain ⟨n, htook⟩ := hfired.took
    obtain ⟨r, hp⟩ := h.more_pick hfired
    obtain ⟨hlisteners, hleads⟩ := hu.picked h hfired nofun hp
    have hnext := ho.fired h hfired fun _ => nofun
    rw [hp] at hnext
    have hgo := ih (o := o.after (some r)) (hfired.working h) (hl.went htook.toWent)
      (htook.factory_eq.trans hf) hk ⟨hu.toUnderway.more hfired (some r), hleads⟩ hnext rfl
    rw [List.length_cons, ← Nat.add_assoc, runAttempts_more _ hp hfire]
    exact hgo
  | ended hfire hflag =>
    subst hstart
    rw [List.length_singleton, runAttempts_dropped extra hfire, if_pos hflag]
    exact .single (ho.dropped hu h hl hk hfire)
  | @onward _ l m _ _ hfire hflag hruns ih =>
    subst hstart
    have hfired := h.fired hfire
    have hm := hfired.working h
    obtain ⟨n, htook⟩ := hfired.took
    have hl' := hl.went htook.toWent
    have hk' : kept ≤ CharStream.index m.input := by
      have hle := hu.leads.start_le
      have hi := htook.index_eq
      omega
    have hbegun : Pursues src m.context.modes m.begun m.begin :=
      ⟨⟨hl'.atPlace, rfl⟩, .nothing _ _⟩
    have hnone : Accountable g src m.begun m.begin :=
      ⟨hl'.grammar_eq, List.nil_subset _, fun i c hlo hhi => absurd hlo (Nat.not_le.mpr hhi)⟩
    have hnext := ih (.begin hm.shows hm.eof_imp) { hl' with } (htook.factory_eq.trans hf) hk'
      hbegun hnone rfl
    have hgoes : ¬ m.hitEof = true := hflag ▸ Bool.false_ne_true
    rw [List.length_cons, ← Nat.add_assoc, runAttempts_dropped _ hfire, if_neg hgoes]
    exact ⟨rfl, ho.dropped hu h hl hk hfire, hnext⟩

theorem Searches.adjoin (hs : Searches l firings c) (hshows : Shows src kept l.input)
    (he : l.hitEof = true → CharStream.index l.input = src.length)
    (hl : Collects g name inbox src l) (hf : l.factory = TokenFactory.common)
    (hk : kept ≤ CharStream.index l.input) (hlen : firings.length ≤ l.patience) :
    Adjoin (Attempt.Bounded g name src) (CharStream.index l.input) l.searchAttempts
      (CharStream.index c.2.input) := by
  cases hs with
  | ended hflag =>
    rw [searchAttempts, if_pos hflag]
    rfl
  | begun hflag hruns =>
    have hbegun : Pursues src l.context.modes l.begun l.begin :=
      ⟨⟨hl.atPlace, rfl⟩, .nothing _ _⟩
    have hnone : Accountable g src l.begun l.begin :=
      ⟨hl.grammar_eq, List.nil_subset _, fun i c hlo hhi => absurd hlo (Nat.not_le.mpr hhi)⟩
    have ha := hruns.adjoin (.begin hshows he) { hl with } hf hk hbegun hnone rfl
      (l.patience - firings.length)
    rw [Nat.sub_add_cancel hlen] at ha
    rw [searchAttempts, if_neg (hflag ▸ Bool.false_ne_true)]
    exact ha

end

section

variable {σ : Type} [CharStream σ] [RoamingView σ] {g : Grammar} {name : String} {inbox : Nat}
  {src : List Char} {a : ActiveLexer σ RuleEngine}

theorem Idle.adjoin (h : a.Idle src) (hl : Collects g name inbox src a)
    (hf : a.factory = TokenFactory.common) :
    Adjoin (Attempt.Bounded g name src) (CharStream.index a.input) a.toLexer.attempts
      (CharStream.index a.nextToken.2.input) := by
  obtain ⟨firings, hs, hlen⟩ := h.exists_searches
  have hi := h.index_pinned
  have hl' : Collects g name inbox src a.pinned :=
    ⟨hl.grammar_eq, hl.name_eq, hl.listening, by
      show a.engine.position = .behind (src.take (CharStream.index a.pinned.input))
      rw [hi]
      exact hl.atPlace⟩
  have ha := hs.adjoin h.pinned h.eof_pinned hl' hf (Nat.le_of_eq hi.symm)
    (by rw [h.patience_pinned]; omega)
  rw [← h.index_nextToken, hi] at ha
  exact ha

/-- What a drained sequence of calls has made of its attempts, whether it ends in an error or not:
they reach up to where the lexer has come, and every token is that of one of them. -/
theorem Idle.adjoin_drained (h : a.Idle src) (hl : Collects g name inbox src a)
    (hf : a.factory = TokenFactory.common) (budget : Nat) :
    Adjoin (Attempt.Bounded g name src) (CharStream.index a.input)
        (Tokens.attempts budget ⟨a.toLexer, false⟩)
        (Tokens.drain budget ⟨a.toLexer, false⟩).2.lexer.charIndex ∧
      ∀ tokens, (Tokens.drain budget ⟨a.toLexer, false⟩).1 = .ok tokens → ∀ token ∈ tokens,
        ∃ t ∈ Tokens.attempts budget ⟨a.toLexer, false⟩, t.ending = .token token := by
  induction budget generalizing a with
  | zero =>
    refine ⟨rfl, fun tokens ht => ?_⟩
    cases ht
  | succ budget ih =>
    rw [Tokens.drain_succ, Tokens.attempts_succ]
    have hidle := h.nextToken.idle
    obtain ⟨n, hw⟩ := h.nextToken.went
    have hfirst := h.adjoin hl hf
    have htraced := (h.traced hl.atPlace).token hf
    rcases hc : a.nextToken with ⟨e | token, b⟩
    · rw [hc] at hfirst
      rw [Tokens.resume, Tokens.resumeAttempts, List.append_nil]
      refine ⟨hfirst, fun tokens ht => ?_⟩
      cases ht
    · rw [hc] at hidle hw hfirst htraced
      rw [Tokens.resume, Tokens.resumeAttempts]
      cases he : token.isEof with
      | true =>
        rw [if_pos rfl, if_pos rfl, List.append_nil]
        refine ⟨hfirst, fun tokens ht token hmem => ?_⟩
        obtain rfl := Except.ok.inj ht
        exact absurd hmem List.not_mem_nil
      | false =>
        rw [if_neg Bool.false_ne_true, if_neg Bool.false_ne_true]
        obtain ⟨hrest, htokens⟩ := ih hidle (hl.went hw) (hw.factory_eq.trans hf)
        refine ⟨hfirst.append hrest, fun tokens ht t hmem => ?_⟩
        obtain ⟨rest, hdrain, rfl⟩ := map_ok ht
        rcases List.mem_cons.mp hmem with rfl | hmem
        · obtain ⟨u, hu, hend, -⟩ := htraced _ rfl he
          exact ⟨u, List.mem_append_left _ hu, hend⟩
        · obtain ⟨u, hu, hend⟩ := htokens rest hdrain t hmem
          exact ⟨u, List.mem_append_right _ hu, hend⟩

end

end ActiveLexer

namespace Tokenization

open ActiveLexer

variable {spec : GrammarSpec} {g : Grammar} {source name : String} {i : Nat} {c : Char}
  {r : Tokenization} {t : Attempt}

theorem adjoin_attempts (g : Grammar) (source name : String) :
    Adjoin (Attempt.Bounded g name source.toList) 0 (attempts g source name)
      (lexer g source name).allTokens.2.charIndex :=
  ((idle_active g source name).adjoin_drained (collects_active g source name) rfl _).1

/-- An attempt that holds a character above the bound which no rule names ends with it, and is
reported. -/
theorem unmatched_of_wide (ht : t ∈ attempts g source name) (hlo : t.start ≤ i) (hhi : i < t.stop)
    (hc : source.toList[i]? = some c) (hwide : maxChar < c)
    (hnames : ∀ rule ∈ g.rules, ¬ rule.pattern.Names c) :
    t.ending = .unmatched ∧ t.stop = i + 1 ∧ t.reported = [t.report name source.toList] := by
  have hb := (adjoin_attempts g source name).mem ht
  refine (hb.wide i c hlo hhi hc hwide).resolve_left ?_
  rintro ⟨rule, hrule, hn⟩
  exact hnames rule (hb.fired_subset hrule) hn

/-- Every token of a tokenization is that of an attempt, and spans what the attempt spans. -/
theorem exists_attempt_of_token (h : tokenize g source name = .ok r) {token : Token}
    (ht : token ∈ r.tokens) :
    ∃ t ∈ attempts g source name, t.ending = .token token ∧
      token.span.start = t.start ∧ token.span.stop = t.stop := by
  obtain ⟨ts, hdrain, -⟩ := drain_of_tokenize h
  obtain ⟨t, hmem, hend⟩ := ((idle_active g source name).adjoin_drained
    (collects_active g source name) rfl _).2 r.tokens (congrArg Prod.fst hdrain) token ht
  exact ⟨t, hmem, hend, ((adjoin_attempts g source name).mem hmem).spans token hend⟩

/-- What comes of the character at an index that no rule may take: the attempt in which the lexer
comes to it drops it and is reported, and no token holds it. The lexer comes to it unless an error or
an end kind stops it before. -/
structure Rejected (g : Grammar) (source name : String) (i : Nat) : Prop where
  reached : i < (lexer g source name).allTokens.2.charIndex ∨
      g.NeverAssignsEof ∧ (∃ r, tokenize g source name = .ok r) →
    ∃ t ∈ attempts g source name, t.start ≤ i ∧ i < t.stop
  unmatched : ∀ t ∈ attempts g source name, t.start ≤ i → i < t.stop →
    t.ending = .unmatched ∧ t.stop = i + 1 ∧ t.reported = [t.report name source.toList]
  reported : ∀ r, tokenize g source name = .ok r → ∀ t ∈ attempts g source name,
    t.start ≤ i → i < t.stop → t.report name source.toList ∈ r.diagnostics
  outside : ∀ r, tokenize g source name = .ok r → ∀ token ∈ r.tokens,
    ¬ (token.span.start ≤ i ∧ i < token.span.stop)

/-- Of the characters above the bound a match takes only those that its rule's pattern names, in
every compiled grammar and over every stream that shows a text. So those that no rule names are
rejected wherever they stand. -/
theorem wide_rejected (hspec : spec.compile = .ok g) :
    (∀ rule ∈ g.rules, ∀ (σ : Type) [CharStream σ] [LawfulView σ] (src : List Char) (kept : Nat)
        (s : σ), Shows src kept s → ∀ offset n : Nat,
      (rule.pattern.matchLength s (offset : Int)).1 = some n →
        ∀ c ∈ (src.drop (CharStream.index s + offset)).take n, maxChar < c →
          rule.pattern.Names c) ∧
      ∀ source name i c, source.toList[i]? = some c → maxChar < c →
        (∀ rule ∈ g.rules, ¬ rule.pattern.Names c) → Rejected g source name i := by
  refine ⟨fun rule _ σ _ _ src kept s hs offset n hn c hm hc =>
    Pattern.names_of_matchLength hs hn hc hm, ?_⟩
  intro source name i c hc hwide hnames
  have hunmatched {t : Attempt} (ht : t ∈ attempts g source name) (hlo : t.start ≤ i)
      (hhi : i < t.stop) := unmatched_of_wide ht hlo hhi hc hwide hnames
  refine ⟨?_, fun t ht hlo hhi => hunmatched ht hlo hhi, ?_, ?_⟩
  · rintro (hi | ⟨hn, r, hr⟩)
    · exact (adjoin_attempts g source name).covers (Nat.zero_le i) hi
    · obtain ⟨hi, -⟩ := List.getElem?_eq_some_iff.mp hc
      exact (tiled_of_tokenize hspec hn hr).tiles.covers (Nat.zero_le i) hi
  · intro r hr t ht hlo hhi
    obtain ⟨-, -, -, hdiagnostics⟩ := trail_of_tokenize hr
    obtain ⟨-, -, hreported⟩ := hunmatched ht hlo hhi
    rw [hdiagnostics, List.mem_flatMap]
    exact ⟨t, ht, hreported ▸ List.mem_singleton_self _⟩
  · rintro r hr token hmem ⟨hlo, hhi⟩
    obtain ⟨t, ht, hend, hstart, hstop⟩ := exists_attempt_of_token hr hmem
    rw [hstart] at hlo
    rw [hstop] at hhi
    rw [(hunmatched ht hlo hhi).1] at hend
    contradiction

/-- A rule that spells a character above the bound, one that lists such a character, and one that
takes the others but a star. -/
def beyondSpec : GrammarSpec where
  name := "Beyond"
  modes := [
    ⟨"MAIN", [
      .token "FACE" ⟨1⟩ (.literal "😀"),
      (RuleSpec.fragment "EDGE" (.oneOf "\uFFFF")).withAction .skip,
      .token "REST" ⟨2⟩ (.noneOf "*")]⟩]

def beyond : Grammar where
  name := "Beyond"
  modes := [
    ⟨"MAIN", [
      ⟨"FACE", some ⟨1⟩, .literal ['😀'], []⟩,
      ⟨"EDGE", none, .set ⟨[('\uFFFF', '\uFFFF')], false⟩ 1 (some 1), [.skip]⟩,
      ⟨"REST", some ⟨2⟩, .set ⟨[('*', '*')], true⟩ 1 none, []⟩]⟩]

theorem compile_beyond : beyondSpec.compile = .ok beyond := by rfl

/-- A character that no rule names, behind one that a rule takes. -/
theorem wide_rejected_beyond :
    beyondSpec.compile = .ok beyond ∧ "😀a😁".toList[2]? = some '😁' ∧ maxChar < '😁' ∧
      (∀ rule ∈ beyond.rules, ¬ rule.pattern.Names '😁') ∧ Rejected beyond "😀a😁" "inline" 2 := by
  have hnames : ∀ rule ∈ beyond.rules, ¬ rule.pattern.Names '😁' := by
    intro rule hrule hn
    rcases List.mem_cons.mp hrule with rfl | hrule
    · cases hn with
      | spelt hc => exact absurd hc (by decide)
    rcases List.mem_cons.mp hrule with rfl | hrule
    · cases hn with
      | listed _ hc => exact absurd hc (by decide)
    · obtain rfl := List.mem_singleton.mp hrule
      cases hn with
      | listed hnegated => contradiction
  exact ⟨compile_beyond, by decide, by decide, hnames,
    (wide_rejected compile_beyond).2 "😀a😁" "inline" 2 '😁' (by decide) (by decide) hnames⟩

/-- A literal and a list take characters above the bound: one is returned in a token, the other
skipped, and nothing is reported. -/
theorem wide_taken_beyond :
    beyondSpec.compile = .ok beyond ∧ maxChar < '😀' ∧ maxChar < '\uFFFF' ∧
      tokenize beyond "😀\uFFFF" "inline" =
        .ok ⟨[⟨⟨1⟩, .default, "😀", ⟨0, 1, 1, 0⟩, "inline"⟩], []⟩ :=
  ⟨compile_beyond, by decide, by decide, by cbv⟩

end Tokenization

end ModalLex

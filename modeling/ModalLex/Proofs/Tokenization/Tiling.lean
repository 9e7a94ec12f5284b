import Mathlib
import ModalLex.Proofs.Tokenization.Run

/-!
# The attempts of a tokenization tile the text

Where a tokenization succeeds its attempts lie one behind the other, from the start of the text
to its end and none of them empty, and each is accounted for by exactly one of a token, a skip,
a diagnostic, or an end token that was made of what a rule left open.
-/
namespace ModalLex

/-- The attempts lie one behind the other from `start` to `stop`, none of them empty. -/
def Tiles (start : Nat) : List Attempt → (stop : Nat) → Prop
  | [], stop => start = stop
  | t :: rest, stop => t.start = start ∧ t.start < t.stop ∧ Tiles t.stop rest stop

namespace Tiles

variable {start stop i : Nat} {attempts : List Attempt}

theorem le (h : Tiles start attempts stop) : start ≤ stop := by
  induction attempts generalizing start with
  | nil => exact Nat.le_of_eq h
  | cons t rest ih =>
    obtain ⟨hs, hlt, hr⟩ := h
    have hle := ih hr
    omega

theorem mem_bounds (h : Tiles start attempts stop) {t : Attempt} (ht : t ∈ attempts) :
    start ≤ t.start ∧ t.start < t.stop ∧ t.stop ≤ stop := by
  induction attempts generalizing start with
  | nil => exact absurd ht List.not_mem_nil
  | cons u rest ih =>
    obtain ⟨hs, hlt, hr⟩ := h
    rcases List.mem_cons.mp ht with rfl | ht
    · exact ⟨Nat.le_of_eq hs.symm, hlt, le hr⟩
    · obtain ⟨hlo, hne, hhi⟩ := ih hr ht
      exact ⟨by omega, hne, hhi⟩

theorem ordered (h : Tiles start attempts stop) :
    attempts.Pairwise fun t u => t.stop ≤ u.start := by
  induction attempts generalizing start with
  | nil => exact List.Pairwise.nil
  | cons t rest ih =>
    obtain ⟨-, -, hr⟩ := h
    refine List.pairwise_cons.mpr ⟨fun u hu => ?_, ih hr⟩
    exact (mem_bounds hr hu).1

theorem covers (h : Tiles start attempts stop) (hlo : start ≤ i) (hhi : i < stop) :
    ∃ t ∈ attempts, t.start ≤ i ∧ i < t.stop := by
  induction attempts generalizing start with
  | nil =>
    rw [Tiles] at h
    omega
  | cons t rest ih =>
    obtain ⟨hs, -, hr⟩ := h
    by_cases hi : i < t.stop
    · exact ⟨t, List.mem_cons_self, by omega, hi⟩
    · obtain ⟨u, hu, hb⟩ := ih hr (Nat.le_of_not_lt hi)
      exact ⟨u, List.mem_cons_of_mem _ hu, hb⟩

/-- An attempt that reaches the end of the text is the last. -/
theorem last (h : Tiles start attempts stop) {t : Attempt} (ht : t ∈ attempts)
    (hs : t.stop = stop) : attempts.getLast? = some t := by
  induction attempts generalizing start with
  | nil => exact absurd ht List.not_mem_nil
  | cons u rest ih =>
    obtain ⟨-, -, hr⟩ := h
    rcases List.mem_cons.mp ht with rfl | ht
    · cases rest with
      | nil => rfl
      | cons v rest =>
        have hb := mem_bounds hr (List.mem_cons_self (a := v))
        omega
    · rw [List.getLast?_cons, ih hr ht]
      rfl

end Tiles

namespace Attempt

/-- The token of an attempt spans it, and its text is the characters there unless a text action
fired in the attempt. -/
structure Makes (src : List Char) (t : Attempt) (token : Token) : Prop where
  start_eq : token.span.start = t.start
  stop_eq : token.span.stop = t.stop
  text_eq : (∀ r ∈ t.fired, ∀ a ∈ r.actions, a.text? = none) →
    token.text = String.ofList ((src.drop token.span.start).take token.span.length)

/-- What an attempt comes to, by how it ended. -/
def Accounted (src : List Char) (t : Attempt) : Prop :=
  match t.ending with
  | .token token => t.Makes src token ∧ token.kind ≠ .eof ∧ t.reported = []
  | .skipped => t.reported = []
  | .unmatched => t.reported.length = 1
  | .unfinished token =>
    t.Makes src token ∧ token.kind = .eof ∧ t.reported = [] ∧ t.stop = src.length
  | .failed _ => False

theorem ending_of_token? {t : Attempt} {token : Token} (h : t.token? = some token) :
    t.ending = .token token := by
  unfold token? at h
  split at h
  · rename_i he
    rw [he, Option.some.inj h]
  · contradiction

theorem ending_of_endToken? {t : Attempt} {e : Token} (h : t.endToken? = some e) :
    t.ending = .unfinished e := by
  unfold endToken? at h
  split at h
  · rename_i he
    rw [he, Option.some.inj h]
  · contradiction

theorem Accounted.token {src : List Char} {t : Attempt} (h : t.Accounted src) {token : Token}
    (ht : t.ending = .token token) :
    t.Makes src token ∧ token.kind ≠ .eof ∧ t.reported = [] := by
  rwa [Accounted, ht] at h

theorem Accounted.unfinished {src : List Char} {t : Attempt} (h : t.Accounted src) {e : Token}
    (ht : t.ending = .unfinished e) :
    t.Makes src e ∧ e.kind = .eof ∧ t.reported = [] ∧ t.stop = src.length := by
  rwa [Accounted, ht] at h

theorem returned_cons {t : Attempt} {rest : List Attempt} {tokens : List Token}
    (h : returned (t :: rest) = .ok tokens) :
    ∃ tokens', returned rest = .ok tokens' ∧ tokens = t.token?.toList ++ tokens' := by
  rw [returned] at h
  cases ht : t.ending with
  | failed e =>
    rw [ht] at h
    contradiction
  | token token =>
    rw [ht] at h
    obtain ⟨tokens', hr, rfl⟩ := map_ok h
    exact ⟨tokens', hr, by rw [token?, ht]; rfl⟩
  | skipped | unmatched | unfinished token =>
    rw [ht] at h
    exact ⟨tokens, h, by rw [token?, ht]; rfl⟩

theorem returned_eq {attempts : List Attempt} {tokens : List Token}
    (h : returned attempts = .ok tokens) : tokens = attempts.filterMap token? := by
  induction attempts generalizing tokens with
  | nil => exact (Except.ok.inj h).symm
  | cons t rest ih =>
    obtain ⟨tokens', hr, rfl⟩ := returned_cons h
    rw [ih hr, List.filterMap_cons]
    cases t.token? <;> rfl

end Attempt

section

variable {g : Grammar} {name : String} {src rest : List Char} {s : Scan}

/-- The token built of an attempt spans it and shows its characters. -/
theorem OpenAttempt.makes (name : String) {o : OpenAttempt} (hd : src.drop o.start = o.taken ++ rest)
    (kind : TokenKind) (ending : Ending) : (o.ended ending).Makes src (o.token name kind) where
  start_eq := rfl
  stop_eq := rfl
  text_eq hfired := by
    have htext : o.text? = none := by
      rw [text?, Action.last?, List.findSome?_eq_none_iff]
      intro a ha
      obtain ⟨r, hr, har⟩ := List.mem_flatMap.mp (List.mem_reverse.mp ha)
      exact hfired r hr a har
    have hlen : (o.token name kind).span.length = o.taken.length := by
      rw [Span.length]
      exact Nat.add_sub_cancel_left _ _
    have hstart : (o.token name kind).span.start = o.start := rfl
    rw [hlen, hstart, hd, List.take_left]
    exact congrArg (Option.getD · _) htext

theorem Scan.Placed.extend_drop_eq (hp : s.Placed src rest) (n : Nat) (r : Rule) :
    src.drop (s.current.extend r (rest.take n)).start =
      (s.current.extend r (rest.take n)).taken ++ rest.drop n := by
  rw [OpenAttempt.extend, List.append_assoc, List.take_append_drop]
  exact hp.drop_eq

/-- An attempt that a winner has just extended and ended takes something, and the next one
begins behind it. -/
theorem Scan.Placed.extend_tiles (hp : s.Placed src rest) {r : Rule} {n : Nat}
    (hw : winner? (g.rulesOf s.mode) rest = some (r, n)) {mode : ModeId} {stack : List ModeId}
    {attempts : List Attempt}
    (h : Tiles (s.past (rest.take n) mode stack none).current.start attempts src.length)
    (ending : Ending) :
    Tiles s.current.start ((s.current.extend r (rest.take n)).ended ending :: attempts)
      src.length := by
  have hpos := List.length_pos_iff.mpr (winner?_take_ne hw)
  have hstop := hp.stop_extend r (rest.take n)
  have hle : s.current.start ≤ s.index := hp.stop_eq ▸ Nat.le_add_right _ _
  refine ⟨rfl, ?_, ?_⟩
  · change s.current.start < (s.current.extend r (rest.take n)).stop
    omega
  · change Tiles (s.current.extend r (rest.take n)).stop attempts src.length
    rw [hstop]
    exact h

/-- The attempts of a course that ends in no error tile what is left, from the start of the
attempt under way on, and each is accounted for. -/
theorem course_tiles (hg : g.Sound) (hn : g.NeverAssignsEof) (name : String) (hp : s.Placed src rest)
    (h : ∃ tokens, Attempt.returned (course g name rest s) = .ok tokens) :
    Tiles s.current.start (course g name rest s) src.length ∧
      ∀ t ∈ course g name rest s, t.Accounted src := by
  induction rest, s using course.induct g with
  -- No characters are left, with no attempt under way and with one.
  | case1 s hs =>
    have hi : s.index = src.length := hp.length_eq
    rw [course_none name hs, Scan.current_none hs]
    exact ⟨hi, fun t ht => absurd ht List.not_mem_nil⟩
  | case2 s o hs =>
    have hcur := Scan.current_some hs
    have hi : s.index = src.length := hp.length_eq
    have hstop := hp.stop_eq
    have hdrop := hp.drop_eq
    have hpos := List.length_pos_iff.mpr (hp.begun o hs).1
    rw [hcur] at hstop hdrop
    rw [course_open name hs, hcur]
    refine ⟨⟨rfl, ?_, hstop.trans hi⟩, ?_⟩
    · exact Nat.lt_add_of_pos_right hpos
    · intro t ht
      rw [List.mem_singleton.mp ht]
      exact ⟨OpenAttempt.makes name hdrop .eof _, rfl, rfl, hstop.trans hi⟩
  -- No rule takes a character.
  | case3 s c cs hw ih =>
    rw [course_unmatched name hw] at h ⊢
    obtain ⟨tokens, hok⟩ := h
    obtain ⟨tokens', hr, -⟩ := Attempt.returned_cons hok
    obtain ⟨htiles, hall⟩ := ih hp.past_one ⟨tokens', hr⟩
    have hstop : (s.current.unmatched name c).stop = s.index + 1 := by rw [← hp.stop_eq]; rfl
    refine ⟨⟨rfl, ?_, ?_⟩, List.forall_mem_cons.mpr ⟨rfl, hall⟩⟩
    · exact Nat.lt_succ_of_le (Nat.le_add_right _ _)
    · rw [hstop]
      exact htiles
  -- A pop finds no mode suspended.
  | case4 s c cs r n hw hm =>
    rw [course_underflow name hw hm] at h
    obtain ⟨tokens, hok⟩ := h
    contradiction
  -- The winner decides on a kind, on more, or on a skip.
  | case5 s c cs r n hw chars mode stack hm kind hdec ih =>
    rw [course_winner name hw hm, hdec] at h ⊢
    obtain ⟨tokens, hok⟩ := h
    obtain ⟨tokens', hr, -⟩ := Attempt.returned_cons hok
    obtain ⟨htiles, hall⟩ := ih (hp.cut n).past_none ⟨tokens', hr⟩
    have hk := Rule.decision_ne_eof hg hn (g.rulesOf_subset s.mode (winner?_spec hw).1) hdec
    have hmakes := OpenAttempt.makes name (hp.extend_drop_eq n r) kind
      (.token ((s.current.extend r chars).token name kind))
    exact ⟨hp.extend_tiles hw htiles _, List.forall_mem_cons.mpr ⟨⟨hmakes, hk, rfl⟩, hall⟩⟩
  | case6 s c cs r n hw chars o mode stack hm hdec ih =>
    rw [course_winner name hw hm, hdec] at h ⊢
    exact ih ((hp.cut n).past_extend (winner?_take_ne hw) r) h
  | case7 s c cs r n hw chars mode stack hm hdec ih =>
    rw [course_winner name hw hm, hdec] at h ⊢
    obtain ⟨tokens, hok⟩ := h
    obtain ⟨tokens', hr, -⟩ := Attempt.returned_cons hok
    obtain ⟨htiles, hall⟩ := ih (hp.cut n).past_none ⟨tokens', hr⟩
    exact ⟨hp.extend_tiles hw htiles _, List.forall_mem_cons.mpr ⟨rfl, hall⟩⟩

end

namespace Tokenization

variable {spec : GrammarSpec} {g : Grammar} {source name : String} {r : Tokenization}

/-- What a tokenization returns is what its lexer's sequence of tokens comes to. -/
theorem drain_of_tokenize (h : tokenize g source name = .ok r) :
    ∃ ts, (lexer g source name).tokens.drain (lexer g source name).patience =
        (.ok r.tokens, ts) ∧
      r.diagnostics = ts.lexer.listeners.log.received inbox := by
  rw [tokenize, lexText, Lexer.allTokens] at h
  rcases hd : (lexer g source name).tokens.drain (lexer g source name).patience with ⟨e | tokens, ts⟩
  · rw [hd] at h
    contradiction
  · rw [hd] at h
    obtain rfl := Except.ok.inj h
    exact ⟨ts, rfl, rfl⟩

/-- How the attempts of a tokenization account for the text and for the result. -/
structure Tiled (g : Grammar) (source name : String) (r : Tokenization) : Prop where
  tiles : Tiles 0 (attempts g source name) source.length
  accounted : ∀ t ∈ attempts g source name, t.Accounted source.toList
  tokens_eq : r.tokens = (attempts g source name).filterMap Attempt.token?
  diagnostics_eq : r.diagnostics = (attempts g source name).flatMap Attempt.reported
  /-- An attempt left open is the last, and the first end token is made of it. -/
  unfinished_last : ∀ t ∈ attempts g source name, ∀ e, t.ending = .unfinished e →
    (attempts g source name).getLast? = some t ∧
      ((lexer g source name).calls (r.tokens.length + 1)).map Prod.fst =
        r.tokens.map .ok ++ [.ok e]

/-- After its tokens a tokenization's lexer answers with the end token and has ended. -/
theorem tokenize_ends (hspec : spec.compile = .ok g) (hn : g.NeverAssignsEof)
    (h : tokenize g source name = .ok r) :
    ∃ e l, Ended source.length (attempts g source name) l e ∧ (∀ t ∈ r.tokens, t.isEof = false) ∧
      ∀ n, ((lexer g source name).calls (r.tokens.length + (n + 1))).map Prod.fst =
        r.tokens.map .ok ++ .ok e :: (l.calls n).map Prod.fst := by
  have hgoes := goes (GrammarSpec.compile_sound hspec) hn source name
  obtain ⟨ts, hdrain, -⟩ := drain_of_tokenize h
  obtain ⟨e, hended⟩ := hgoes.ended r.tokens (by rw [hdrain])
  obtain ⟨e', -, htoken, hnoteof, hcalls⟩ := Tokens.drain_calls hdrain
  rw [hdrain, ← hgoes.trace_eq, String.length_toList] at hended
  obtain rfl : e = e' := Option.some.inj (hended.token_eq.symm.trans htoken)
  exact ⟨e, ts.lexer, hended, hnoteof, hcalls⟩

theorem tiled_of_tokenize (hspec : spec.compile = .ok g) (hn : g.NeverAssignsEof)
    (h : tokenize g source name = .ok r) : Tiled g source name r := by
  have hg := GrammarSpec.compile_sound hspec
  have hgoes := goes hg hn source name
  obtain ⟨ts, hdrain, hdiagnostics⟩ := drain_of_tokenize h
  have hanswer := hgoes.answer_eq
  have hreceived := hgoes.received_eq
  rw [hdrain, ← hgoes.trace_eq] at hanswer hreceived
  obtain ⟨htiles, haccounted⟩ := course_tiles hg hn name
    (Scan.placed_initial source.toList) ⟨r.tokens, by rw [← hgoes.trace_eq]; exact hanswer.symm⟩
  rw [← hgoes.trace_eq] at htiles haccounted
  rw [String.length_toList] at htiles
  refine ⟨htiles, haccounted, Attempt.returned_eq hanswer.symm, hdiagnostics.trans hreceived, ?_⟩
  intro t ht e he
  -- The end token was made of the one attempt that reaches the end, and that is `t`.
  have hlast {u : Attempt} {e' : Token} (hu : u ∈ attempts g source name)
      (hue : u.ending = .unfinished e') : (attempts g source name).getLast? = some u :=
    htiles.last hu (by rw [((haccounted u hu).unfinished hue).2.2.2, String.length_toList])
  obtain ⟨e', l, hended, -, hcalls⟩ := tokenize_ends hspec hn h
  refine ⟨hlast ht he, ?_⟩
  rw [hcalls 0]
  rcases hended.made with hmade | ⟨hnone, -⟩
  · obtain ⟨u, hu, hue⟩ := List.exists_of_findSome?_eq_some hmade
    have hue := Attempt.ending_of_endToken? hue
    obtain rfl : t = u := Option.some.inj ((hlast ht he).symm.trans (hlast hu hue))
    obtain rfl := Ending.unfinished.inj (he.symm.trans hue)
    rfl
  · have hnone := List.findSome?_eq_none_iff.mp hnone t ht
    rw [Attempt.endToken?, he] at hnone
    contradiction

theorem Tiled.made (h : Tiled g source name r) {token : Token} (ht : token ∈ r.tokens) :
    ∃ t ∈ attempts g source name, t.ending = .token token ∧ t.Makes source.toList token := by
  rw [h.tokens_eq] at ht
  obtain ⟨t, hmem, htok⟩ := List.mem_filterMap.mp ht
  have he := Attempt.ending_of_token? htok
  exact ⟨t, hmem, he, ((h.accounted t hmem).token he).1⟩

theorem Tiled.ordered (h : Tiled g source name r) :
    r.tokens.Pairwise fun t u => t.span.stop ≤ u.span.start := by
  rw [h.tokens_eq, List.pairwise_filterMap]
  refine h.tiles.ordered.imp_of_mem fun {t u} ht hu hle token htok token' htok' => ?_
  obtain ⟨hm, -, -⟩ := (h.accounted t ht).token (Attempt.ending_of_token? htok)
  obtain ⟨hm', -, -⟩ := (h.accounted u hu).token (Attempt.ending_of_token? htok')
  rw [hm.stop_eq, hm'.start_eq]
  exact hle

/-- The attempts of every tokenization that succeeds tile the text, and each is accounted for.
So the tokens have spans that are not empty and lie one behind the other, and each shows the
characters of its attempt. -/
theorem tokenize_tiles (hspec : spec.compile = .ok g) (hn : g.NeverAssignsEof)
    (h : tokenize g source name = .ok r) :
    Tiled g source name r ∧ (∀ token ∈ r.tokens, token.span.start < token.span.stop) ∧
      (r.tokens.Pairwise fun t u => t.span.stop ≤ u.span.start) ∧
      ∀ token ∈ r.tokens, ∃ t ∈ attempts g source name,
        t.ending = .token token ∧ t.Makes source.toList token := by
  have htiled := tiled_of_tokenize hspec hn h
  refine ⟨htiled, fun token ht => ?_, htiled.ordered, fun token ht => htiled.made ht⟩
  obtain ⟨t, hmem, -, hm⟩ := htiled.made ht
  rw [hm.start_eq, hm.stop_eq]
  exact (htiled.tiles.mem_bounds hmem).2.1

theorem tokenize_tiles_quoting :
    quotingSpec.compile = .ok quoting ∧ quoting.NeverAssignsEof ∧
      ∃ r, tokenize quoting "x\"ab\"" "inline" = .ok r ∧
        Tiled quoting "x\"ab\"" "inline" r := by
  have h : tokenize quoting "x\"ab\"" "inline" =
      .ok ⟨[⟨⟨1⟩, .default, "x", ⟨0, 1, 1, 0⟩, "inline"⟩,
        ⟨⟨2⟩, .default, "\"ab\"", ⟨1, 5, 1, 1⟩, "inline"⟩], []⟩ := by cbv
  exact ⟨compile_quoting, neverAssignsEof_quoting, _, h,
    (tokenize_tiles compile_quoting neverAssignsEof_quoting h).1⟩

end Tokenization

end ModalLex

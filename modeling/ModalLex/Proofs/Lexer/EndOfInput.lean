import ModalLex.Proofs.Lexer.Pinning
import ModalLex.Proofs.Lexer.Progress

/-!
# After the end of the input

A lexer that has seen the end goes on to return one end token, without a firing. Its column is
that of the token before it, moved by the characters of that token. So the first end token that
covers nothing is the one that all later calls return.
-/
namespace ModalLex

open TextView

/-- Requests that neither start over nor set the line and the column. -/
def Request.keepsPlace : Request → Bool
  | .next | .take _ | .all | .act _ | .notify | .recoverNoViable | .recoverRuleFailure
  | .addListener _ | .removeListeners => true
  | .setPosition _ | .reset => false

namespace ActiveLexer

section

variable {σ ε : Type} [CharStream σ] [RecognitionEngine ε]

/-- The end token that a lexer with the common factory builds where it stands. -/
def endToken (a : ActiveLexer σ ε) : Token where
  kind := .eof
  channel := .default
  text := ""
  span := ⟨CharStream.index a.input, CharStream.index a.input,
    (RecognitionEngine.position a.engine).line, a.eofColumn⟩
  sourceName := a.sourceName

theorem emitEof_eq {a : ActiveLexer σ ε} (hc : a.factory = TokenFactory.common) :
    a.emitEof = a.record a.endToken := by
  rw [emitEof, hc]
  simp only [TokenFactory.common, Nat.lt_irrefl, ↓reduceIte]
  rfl

/-- An end token settles the column of the next one. -/
theorem endToken_settled (a : ActiveLexer σ ε) :
    endToken { a with token := some a.endToken } = a.endToken := by
  have hcolumn : eofColumn { a with token := some a.endToken } = a.eofColumn := by
    change a.eofColumn + (CharStream.index a.input - CharStream.index a.input) = a.eofColumn
    omega
  rw [endToken, hcolumn]
  rfl

/-- Of the input an end token shows only the index. -/
theorem endToken_input (a : ActiveLexer σ ε) {input : σ}
    (hi : CharStream.index input = CharStream.index a.input) :
    endToken { a with input } = a.endToken := by
  rw [endToken, endToken]
  simp only [hi]
  rfl

end

section

variable {σ : Type} [CharStream σ] {start : TokenStart} {a b : ActiveLexer σ RuleEngine}
  {e : Token}

theorem build_span (hc : a.factory = TokenFactory.common) (kind : TokenKind)
    (start : TokenStart) :
    (a.build kind start).span =
      ⟨start.index, CharStream.index a.input, start.line, start.column⟩ := by
  rw [build, hc]
  rfl

/-- The attempt that began at `start` has taken a character, or nothing has come of it yet. -/
def Opened (start : TokenStart) (a : ActiveLexer σ RuleEngine) : Prop :=
  start.index < CharStream.index a.input ∨
    start = a.here ∧ a.context.text = none ∧ a.context.channel = .default

theorem Opened.begin (a : ActiveLexer σ RuleEngine) : Opened a.here a.begin :=
  .inr ⟨rfl, rfl, rfl⟩

theorem Opened.index_le (h : Opened start a) : start.index ≤ CharStream.index a.input := by
  rcases h with h | ⟨rfl, -⟩
  · exact Nat.le_of_lt h
  · exact Nat.le_refl _

variable [LawfulView σ] {src : List Char} {kept : Nat} {firings : List (ActiveLexer σ RuleEngine)}
  {c : Except LexError Token × ActiveLexer σ RuleEngine}

/-- An attempt goes on only after a rule has won, and that rule has taken a character. -/
theorem Opened.more (h : Opened start a) (hf : Fired src kept start a .more b) :
    Opened start b := by
  generalize hv : Verdict.more = v at hf
  cases hf with
  | won hw hm took =>
    have hpos := (winner_bounds hw).1
    have hle := h.index_le
    have hi := took.index_eq
    exact .inl (by omega)
  | _ => contradiction

theorem Fired.factory_eq {v : Verdict} (hf : Fired src kept start a v b) :
    b.factory = a.factory := by
  obtain ⟨n, ht⟩ := hf.took
  exact ht.factory_eq

/-- A token on no characters is the end, matched where its attempt began. -/
theorem Fired.end_of_empty {kind : TokenKind} (hf : Fired src kept start a (.matched kind) b)
    (h : Opened start a) (hc : b.factory = TokenFactory.common)
    (he : (b.build kind start).span.isEmpty = true) :
    b.build kind start = (b.record (b.build kind start)).2.endToken := by
  rw [build_span hc] at he
  have hempty : CharStream.index b.input - start.index = 0 := beq_iff_eq.mp he
  generalize hv : Verdict.matched kind = v at hf
  cases hf with
  | ended hend took context_eq =>
    obtain rfl := Verdict.matched.inj hv
    have hi := took.index_eq
    rcases h with hlt | ⟨rfl, htext, hchannel⟩
    · omega
    · have hp : b.engine.position = a.engine.position := by simpa using took.position_eq
      have hbuild : b.build .eof a.here = ⟨.eof, .default, "",
          ⟨CharStream.index b.input, CharStream.index b.input, b.engine.position.line,
            b.engine.position.column⟩, b.sourceName⟩ := by
        simp only [build, hc, TokenFactory.common, here, RecognitionEngine.position, context_eq,
          htext, hchannel, hi, hp, Nat.add_zero, Nat.lt_irrefl, ↓reduceIte]
      rw [hbuild]
      simp only [endToken, record, eofColumn, Span.length, Nat.sub_self, Nat.add_zero,
        RecognitionEngine.position]
  | won hw hm took =>
    have hpos := (winner_bounds hw).1
    have hle := h.index_le
    have hi := took.index_eq
    omega
  | _ => contradiction

/-- By induction on the run, where every attempt is fresh or has taken a character. -/
theorem Runs.end_of_empty (hr : Runs start a firings c) (h : Working src kept a)
    (ho : Opened start a) (hc : a.factory = TokenFactory.common) (hcall : c.1 = .ok e)
    (he : e.span.isEmpty = true) : e = c.2.endToken := by
  induction hr with
  | failed => contradiction
  | injected hs => exact absurd (h.fired hs) Fired.not_injected
  | matched hs =>
    obtain rfl := Except.ok.inj hcall
    have hf := h.fired hs
    exact hf.end_of_empty ho (hf.factory_eq.trans hc) he
  | more hs hruns ih =>
    have hf := h.fired hs
    exact ih (hf.working h) (ho.more hf) (hf.factory_eq.trans hc) hcall
  | @ended _ _ m hs hend =>
    rw [emitEof_eq ((h.fired hs).factory_eq.trans hc)] at hcall ⊢
    obtain rfl := Except.ok.inj hcall
    exact m.endToken_settled.symm
  | @onward _ _ m _ _ hs hend hruns ih =>
    have hf := h.fired hs
    have hw := hf.working h
    have hm := hf.factory_eq.trans hc
    exact ih (.begin hw.shows hw.eof_imp) (.begin m) hm hcall

end

section

variable {σ : Type} [CharStream σ] [RoamingView σ] {src : List Char}
  {a : ActiveLexer σ RuleEngine} {e t : Token}

/-- A call's token on no characters is the end token that later calls build. -/
theorem Idle.end_of_empty (h : Idle src a) (hc : a.factory = TokenFactory.common)
    (hcall : a.nextToken.1 = .ok e) (he : e.span.isEmpty = true) :
    e = a.nextToken.2.endToken := by
  have hsearch : e = a.pinned.search.2.endToken := by
    obtain ⟨firings, hs, -⟩ := h.exists_searches
    have hcall' : a.pinned.search.1 = .ok e := hcall
    generalize a.pinned.search = c at hs hcall' ⊢
    cases hs with
    | ended =>
      have hc' : a.pinned.factory = TokenFactory.common := hc
      rw [emitEof_eq hc'] at hcall' ⊢
      obtain rfl := Except.ok.inj hcall'
      exact a.pinned.endToken_settled.symm
    | begun hflag hruns =>
      exact hruns.end_of_empty (.begin h.pinned h.eof_pinned) (.begin a.pinned) hc hcall' he
  exact hsearch.trans (a.pinned.search.2.endToken_input h.index_nextToken).symm

/-- A lexer between calls that has seen the end and returns `t` from now on. -/
structure Spent (src : List Char) (t : Token) (a : ActiveLexer σ RuleEngine) : Prop
    extends Idle src a where
  hitEof_eq : a.hitEof = true
  common : a.factory = TokenFactory.common
  end_eq : a.endToken = t

namespace Spent

theorem index_eq (h : Spent src t a) : CharStream.index a.input = src.length :=
  h.eof_imp h.hitEof_eq

/-- A call returns the end token without a firing, and changes nothing else. -/
theorem searches (h : Spent src t a) : a.pinned.Searches [] (a.pinned.record t) := by
  have hc : a.pinned.factory = TokenFactory.common := h.common
  have ht : a.pinned.endToken = t := (a.endToken_input h.index_pinned).trans h.end_eq
  have hs := Searches.ended (l := a.pinned) h.hitEof_eq
  rwa [emitEof_eq hc, ht] at hs

theorem nextToken_eq (h : Spent src t a) : a.nextToken =
    (.ok t, unpinned { a.pinned with token := some t } (CharStream.mark a.input).1) := by
  rw [ActiveLexer.nextToken_eq, h.searches.search_eq (Nat.zero_le _)]
  rfl

theorem nextToken (h : Spent src t a) : Spent src t a.nextToken.2 := by
  have hidle := h.toIdle.nextToken.idle
  rw [h.nextToken_eq] at hidle ⊢
  refine ⟨hidle, h.hitEof_eq, h.common, ?_⟩
  have hi : CharStream.index (CharStream.release a.pinned.input (CharStream.mark a.input).1) =
      CharStream.index a.input := (hidle.eof_imp h.hitEof_eq).trans h.index_eq.symm
  have ht := endToken_input { a with token := some t } hi
  rw [← h.end_eq] at ht ⊢
  exact ht.trans a.endToken_settled

/-- At the end there is no character to recover over. -/
theorem recover (h : Spent src t a) : Spent src t a.recover.2 := by
  obtain ⟨input, hla, hr, hi⟩ := RoamingView.look_rests h.rests
  rw [List.getElem?_eq_none (Nat.le_of_eq h.index_eq.symm)] at hla
  rw [ActiveLexer.recover, hla]
  exact ⟨⟨hr, fun _ => hi.trans h.index_eq⟩, h.hitEof_eq, h.common,
    (a.endToken_input hi).trans h.end_eq⟩

end Spent

end

end ActiveLexer

namespace Lexer

section

variable {σ : Type} [CharStream σ] [RoamingView σ] {src : List Char} {t : Token}
  {l : Lexer σ RuleEngine}

/-- A lexer with an input that has seen its end and returns `t` from now on. -/
def Spent (src : List Char) (t : Token) (l : Lexer σ RuleEngine) : Prop :=
  ∃ a : ActiveLexer σ RuleEngine, l = a.toLexer ∧ a.Spent src t

theorem Spent.nextToken (h : Spent src t l) : Spent src t l.nextToken.2 := by
  obtain ⟨a, rfl, h⟩ := h
  exact ⟨a.nextToken.2, rfl, h.nextToken⟩

/-- No request that keeps the place changes the end token. -/
theorem Spent.perform (h : Spent src t l) {r : Request} (hr : r.keepsPlace = true) :
    Spent src t (r.perform l) := by
  have hl := h
  obtain ⟨a, rfl, h⟩ := h
  cases r with
  | next => exact hl.nextToken
  | take n => exact Tokens.take_keeps Spent.nextToken (t := a.toLexer.tokens) hl n
  | all =>
    exact Tokens.drain_keeps Spent.nextToken (t := a.toLexer.tokens) hl a.toLexer.patience
  | act action =>
    exact ⟨{ a with context := (action.apply a.context).2 }, rfl, { h with }⟩
  | notify =>
    exact ⟨{ a with
      listeners := (a.toLexerState.report a.input (a.context.start.getD a.here)).2.listeners },
      rfl, { h with }⟩
  | recoverNoViable => exact ⟨a.recover.2, rfl, h.recover⟩
  | recoverRuleFailure =>
    rcases hs : CharStream.consume a.input with ⟨e | _, input⟩
    · obtain rfl := RoamingView.step_failed h.rests hs
      rw [Request.perform, recoverRuleFailure_eq, hs]
      exact hl
    · have hlt := (RoamingView.step_rests h.rests hs).1
      exact absurd h.index_eq (Nat.ne_of_lt hlt)
  | addListener listener =>
    exact ⟨{ a with listeners := a.listeners.add listener }, rfl, { h with }⟩
  | removeListeners => exact ⟨{ a with listeners := a.listeners.removeAll }, rfl, { h with }⟩
  | setPosition | reset => contradiction

theorem Spent.performAll (h : Spent src t l) {requests : List Request}
    (hr : ∀ r ∈ requests, r.keepsPlace = true) :
    Spent src t (requests.foldl (fun l r => r.perform l) l) := by
  induction requests generalizing l with
  | nil => exact h
  | cons r requests ih =>
    obtain ⟨hfirst, hrest⟩ := List.forall_mem_cons.mp hr
    exact ih (h.perform hfirst) hrest

end

variable {σ : Type} [CharStream σ] [MarkedView σ] {g : Grammar} {src : List Char}
  {l l₀ : Lexer σ RuleEngine} {e t : Token}

/-- A call after the end fires nothing, and only the last token is another one. -/
theorem Spent.call (h : Spent src t l) :
    Asks l [] l.nextToken ∧
      ∃ input input', l.input = some input ∧
        l.nextToken = (.ok t, { l with token := some t, input := some input' }) ∧
        CharStream.index input' = CharStream.index input ∧
        MarkedView.outstanding input' = MarkedView.outstanding input := by
  obtain ⟨a, rfl, h⟩ := h
  have hnext := h.nextToken_eq
  have hindex : CharStream.index a.nextToken.2.input = CharStream.index a.input :=
    h.nextToken.index_eq.trans h.index_eq.symm
  have hmarks := a.outstanding_nextToken
  rw [hnext] at hindex hmarks
  rw [nextToken_toLexer, hnext]
  exact ⟨.searched h.searches, a.input, _, rfl, rfl, hindex, hmarks⟩

/-- Once the end has been seen, every call returns one end token. For every grammar, stream and
source, and every lexer with the common factory that a session has led to: where a call returns a
token and sees the end, there is an end token on nothing, with no text and on the default channel,
which that first token already is if it covers nothing itself. Whatever is then requested, the line,
the column and the input apart, the next call fires nothing, returns that token, and leaves all else
of the lexer as it was, with its stream at the same index under as many marks. -/
theorem end_token_repeats {allowed : Request → Prop} {fits : σ → Prop}
    (hreach : Reachable g allowed fits TokenFactory.common src l)
    (hcall : l.nextToken = (.ok e, l₀)) (hend : l₀.hitEof = true) :
    ∃ t : Token, t.isEof = true ∧ t.span.start = src.length ∧ t.span.stop = src.length ∧
      t.text = "" ∧ t.channel = .default ∧ (e.span.isEmpty = true → e = t) ∧
      ∀ requests : List Request, (∀ r ∈ requests, r.keepsPlace = true) →
        let l' := requests.foldl (fun l r => r.perform l) l₀
        Asks l' [] l'.nextToken ∧
          ∃ input input', l'.input = some input ∧
            l'.nextToken = (.ok t, { l' with token := some t, input := some input' }) ∧
            CharStream.index input' = CharStream.index input ∧
            MarkedView.outstanding input' = MarkedView.outstanding input := by
  cases hreach.idle with
  | detached =>
    obtain ⟨herror, -⟩ := Prod.mk.inj hcall
    contradiction
  | @attached _ a ha hg hc =>
    rw [nextToken_toLexer] at hcall
    obtain ⟨hanswer, rfl⟩ := Prod.mk.inj hcall
    have hlater := ha.nextToken
    have hcommon : a.nextToken.2.factory = TokenFactory.common := by
      obtain ⟨n, hw⟩ := hlater.went
      exact hw.factory_eq.trans hc
    have hfirst : a.nextToken.2.Spent src a.nextToken.2.endToken :=
      ⟨hlater.idle, hend, hcommon, rfl⟩
    refine ⟨a.nextToken.2.endToken, rfl, hfirst.index_eq, hfirst.index_eq, rfl, rfl,
      ha.end_of_empty hc hanswer, fun requests hr => ?_⟩
    exact Spent.call (Spent.performAll ⟨a.nextToken.2, rfl, hfirst⟩ hr)

/-- The lexer before the last character of `" a!"`, which no rule takes. -/
def hollowLast : Lexer TextStream RuleEngine := hollowStart.toLexer.nextToken.2

def hollowEnd : Token := ⟨.eof, .default, "", ⟨3, 3, 1, 3⟩, "inline"⟩

/-- What a caller may do after the end: give a text, change the mode and try to recover. -/
def meddling : List Request := [.act (.text "x"), .act (.pushMode ⟨5⟩), .recoverNoViable]

theorem end_token_repeats_hollow :
    Reachable hollow (fun _ => True) (fun _ => True) TokenFactory.common " a!".toList hollowLast ∧
      hollowLast.nextToken.1 = .ok hollowEnd ∧ hollowLast.nextToken.2.hitEof = true ∧
      (meddling.foldl (fun l r => r.perform l) hollowLast.nextToken.2).nextToken.1 =
        .ok hollowEnd := by
  have hreach : Reachable hollow (fun _ => True) (fun _ => True) TokenFactory.common " a!".toList
      hollowLast :=
    .request (.ofInput (TextStream.rests_ofString " a!" "inline") trivial) (r := .next) trivial
  have hanswer : hollowLast.nextToken.1 = .ok hollowEnd := by decide +kernel
  have hend : hollowLast.nextToken.2.hitEof = true := by decide +kernel
  have hcall : hollowLast.nextToken = (.ok hollowEnd, hollowLast.nextToken.2) := by
    rw [← hanswer]
  obtain ⟨t, -, -, -, -, -, hfirst, hlater⟩ := end_token_repeats hreach hcall hend
  obtain ⟨-, input, input', -, hnext, -⟩ := hlater meddling (by decide)
  refine ⟨hreach, hanswer, hend, ?_⟩
  rw [hfirst rfl, hnext]

end Lexer

end ModalLex

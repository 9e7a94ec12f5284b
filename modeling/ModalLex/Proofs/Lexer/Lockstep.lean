import ModalLex.Proofs.Engine.Recognition
import ModalLex.Proofs.Lexer.Calls
import ModalLex.Proofs.Lexer.Firing
import ModalLex.Proofs.Stream.Window

/-!
# Lexing a window and lexing the whole text

A rule lexer and the same lexer at work on another stream go in step as long as both streams
show one text from the start of the call on. The call's pin keeps exactly the characters that
token texts and diagnostics are cut from, and the offending character of a diagnostic has been
read by the failed match.
-/
namespace ModalLex

open TextView

variable {σ τ : Type} [CharStream σ] [LawfulView σ] [CharStream τ] [LawfulView τ]
  {src : List Char} {kept : Nat}

namespace ActiveLexer

/-- The same lexer at work on another stream. -/
def onto (a : ActiveLexer σ RuleEngine) (t : τ) : ActiveLexer τ RuleEngine where
  sourceName := a.sourceName
  engine := a.engine
  factory := TokenFactory.common
  listeners := a.listeners
  context := a.context
  hitEof := a.hitEof
  token := a.token
  input := t

/-- The lexer's stream and `t` stand at one index of one text, both pinned. -/
structure Facing (src : List Char) (kept : Nat) (a : ActiveLexer σ RuleEngine) (t : τ) : Prop where
  left : Shows src kept a.input
  right : Shows src kept t
  index_eq : CharStream.index t = CharStream.index a.input
  kept_le : kept ≤ CharStream.index a.input
  common : a.factory = TokenFactory.common

variable {a : ActiveLexer σ RuleEngine} {t : τ}

/-- Both streams moved alike, and whatever else the lexer did, its factory is the same. -/
theorem Facing.moved (h : Facing src kept a t) {n : Nat} {b : ActiveLexer σ RuleEngine} {u : τ}
    (hl : Moved src kept a.input n b.input) (hr : Moved src kept t n u)
    (hf : b.factory = a.factory) : Facing src kept b u where
  left := hl.shows
  right := hr.shows
  index_eq := by rw [hr.index_eq, hl.index_eq, h.index_eq]
  kept_le := by
    have hk := h.kept_le
    rw [hl.index_eq]
    omega
  common := hf.trans h.common

theorem Facing.text_eq (h : Facing src kept a t) {start stop : Nat} (hk : kept ≤ start)
    (hl : stop ≤ reach a.input) (hr : stop ≤ reach t) :
    CharStream.text t start stop = CharStream.text a.input start stop := by
  rw [LawfulView.slice h.left hk hl, LawfulView.slice h.right hk hr]

theorem here_onto (h : Facing src kept a t) : (a.onto t).here = a.here := by
  have hi := h.index_eq
  simp only [here, onto, hi]

theorem begin_onto (h : Facing src kept a t) : (a.onto t).begin = a.begin.onto t := by
  rw [begin, here_onto h]
  rfl

theorem conclude_onto (h : Facing src kept a t) (p : Pending) :
    (a.onto t).conclude p = ((a.conclude p).1, (a.conclude p).2.onto t) ∧
      Facing src kept (a.conclude p).2 t := by
  cases p with
  | valid kind =>
    cases he : a.context.emitted with
    | none => simpa only [conclude, onto, he, true_and] using h
    | some token =>
      simp only [conclude, onto, he, true_and]
      exact { h with }
  | _ => exact ⟨rfl, h⟩

theorem settle_onto (h : Facing src kept a t) (asked : Pending) :
    ∃ u, (a.onto t).settle asked = ((a.settle asked).1, (a.settle asked).2.onto u) ∧
      Facing src kept (a.settle asked).2 u := by
  obtain ⟨s', hs, hms, -⟩ := LawfulView.look_next h.left
  obtain ⟨u, ht, hmt, -⟩ := LawfulView.look_next h.right
  rw [h.index_eq] at ht
  have hn : Facing src kept
      (a.noted s' src[CharStream.index a.input]? (a.context.pending.orElse asked)) u :=
    h.moved hms hmt rfl
  obtain ⟨hc, hf⟩ := conclude_onto hn (a.context.pending.orElse asked)
  rw [settle_eq a asked hs, settle_eq (a.onto t) asked ht]
  exact ⟨u, hc, hf⟩

theorem recover_onto (h : Facing src kept a t) :
    ∃ u, (a.onto t).recover = (a.recover.1, a.recover.2.onto u) ∧
      Facing src kept a.recover.2 u := by
  have hright : Shows src kept (a.onto t).input := h.right
  have hi : CharStream.index (a.onto t).input = CharStream.index a.input := h.index_eq
  by_cases hlt : CharStream.index a.input < src.length
  · obtain ⟨s', hs, hms⟩ := recover_next h.left hlt
    obtain ⟨u, hu, hmu⟩ := recover_next hright (by rwa [hi])
    simp only [hi] at hu
    rw [hu, hs]
    exact ⟨u, rfl, h.moved hms hmu rfl⟩
  · obtain ⟨s', hs, hms⟩ := recover_end h.left (Nat.le_of_not_lt hlt)
    obtain ⟨u, hu, hmu⟩ := recover_end hright (by rw [hi]; exact Nat.le_of_not_lt hlt)
    rw [hu, hs]
    exact ⟨u, rfl, h.moved hms hmu rfl⟩

theorem diagnostic_onto (h : Facing src kept a t) {start : TokenStart} (hk : kept ≤ start.index)
    (hl : CharStream.index a.input < reach a.input) (hr : CharStream.index a.input < reach t) :
    (a.onto t).diagnostic t start = a.diagnostic a.input start := by
  have ht : CharStream.text t start.index (CharStream.index a.input + 1) =
      CharStream.text a.input start.index (CharStream.index a.input + 1) := h.text_eq hk hl hr
  simp only [LexerState.diagnostic, h.index_eq, ht]
  rfl

theorem giveUp_onto (h : Facing src kept a t) {start : TokenStart} (hk : kept ≤ start.index)
    (hl : CharStream.index a.input < reach a.input) (hr : CharStream.index a.input < reach t) :
    ∃ u, (a.onto t).giveUp start = ((a.giveUp start).1, (a.giveUp start).2.onto u) ∧
      Facing src kept (a.giveUp start).2 u := by
  have hd : (a.onto t).listeners.dispatch ((a.onto t).diagnostic (a.onto t).input start) =
      a.listeners.dispatch (a.diagnostic a.input start) :=
    congrArg a.listeners.dispatch (diagnostic_onto h hk hl hr)
  rcases hr : a.listeners.dispatch (a.diagnostic a.input start) with ⟨e | _, ls⟩
  · rw [giveUp_refused a start hr, giveUp_refused (a.onto t) start (hd.trans hr)]
    exact ⟨t, rfl, { h with }⟩
  · have hb : Facing src kept { a with listeners := ls } t := { h with }
    obtain ⟨u, hu, hfu⟩ := recover_onto hb
    rcases hc : recover { a with listeners := ls } with ⟨e | _, b⟩
    · rw [hc] at hu hfu
      rw [giveUp_stuck a start hr hc, giveUp_stuck (a.onto t) start (hd.trans hr) hu]
      exact ⟨u, rfl, hfu⟩
    · rw [hc] at hu hfu
      rw [giveUp_recovered a start hr hc, giveUp_recovered (a.onto t) start (hd.trans hr) hu]
      exact settle_onto hfu .skip

theorem fire_onto (h : Facing src kept a t) {start : TokenStart} (hk : kept ≤ start.index) :
    ∃ u, (a.onto t).fire start = ((a.fire start).1, (a.fire start).2.onto u) ∧
      Facing src kept (a.fire start).2 u := by
  obtain ⟨s', hs, hms, hrs⟩ := RuleEngine.matchToken_eq h.left a.engine a.context.mode
    { a.context with pending := .invalid }
  obtain ⟨u, ht, hmt, hrt⟩ := RuleEngine.matchToken_eq h.right a.engine a.context.mode
    { a.context with pending := .invalid }
  rw [h.index_eq] at ht hmt hrt
  have hq := RuleEngine.find_quiet a.engine (CharStream.index a.input)
    { a.context with pending := .invalid } (src.drop (CharStream.index a.input)) a.context.mode
  rw [fire_eq a start hs, fire_eq (a.onto t) start ht]
  generalize a.engine.find (CharStream.index a.input) (src.drop (CharStream.index a.input))
    a.context.mode { a.context with pending := .invalid } = f at hs ht hms hmt hq ⊢
  have hf : Facing src kept (a.recognized ⟨f.outcome, f.engine, s', f.context⟩) u :=
    h.moved hms hmt rfl
  obtain ⟨outcome, engine, context, taken⟩ := f
  rcases outcome with e | ⟨pending⟩ | ⟨from_, index⟩
  · exact ⟨u, rfl, hf⟩
  · exact settle_onto hf pending
  · obtain ⟨rfl, hi⟩ := hq _ _ rfl
    rw [List.length_drop] at hi
    -- The failed match has read the offending character on both sides.
    have hsi : CharStream.index s' = CharStream.index a.input := hms.index_look
    have hl : CharStream.index s' < reach s' := by
      rw [hsi]
      exact hrs (by omega)
    have hr : CharStream.index s' < reach u := by
      rw [hsi]
      exact hrt (by omega)
    exact giveUp_onto hf hk hl hr

/-- Under a common factory a token's text is cut alike from both streams. -/
theorem common_onto (h : Facing src kept a t) (r : TokenRequest) (hk : kept ≤ r.span.start)
    (hs : r.span.stop ≤ CharStream.index a.input) :
    TokenFactory.common t r = TokenFactory.common a.input r := by
  have hl := LawfulView.index_le h.left
  have hr := LawfulView.index_le h.right
  have hi := h.index_eq
  have ht := h.text_eq hk (Nat.le_trans hs hl) (by omega)
  simp only [TokenFactory.common, ht]

theorem build_onto (h : Facing src kept a t) (kind : TokenKind) {start : TokenStart}
    (hk : kept ≤ start.index) : (a.onto t).build kind start = a.build kind start := by
  have hc : (a.onto t).factory = TokenFactory.common := rfl
  have hi : CharStream.index (a.onto t).input = CharStream.index a.input := h.index_eq
  rw [build, build, h.common, hc, hi]
  exact common_onto h _ hk (Nat.le_refl _)

theorem record_onto (h : Facing src kept a t) (token : Token) :
    (a.onto t).record token = ((a.record token).1, (a.record token).2.onto t) ∧
      Facing src kept (a.record token).2 t :=
  ⟨rfl, { h with }⟩

theorem emitEof_onto (h : Facing src kept a t) :
    (a.onto t).emitEof = (a.emitEof.1, a.emitEof.2.onto t) ∧
      Facing src kept a.emitEof.2 t := by
  have hc : (a.onto t).factory = TokenFactory.common := rfl
  have hi : CharStream.index (a.onto t).input = CharStream.index a.input := h.index_eq
  rw [emitEof, emitEof, h.common, hc, hi]
  simp only [show (a.onto t).input = t from rfl]
  rw [common_onto h _ h.kept_le (Nat.le_refl _)]
  exact record_onto h _

/-- A whole search goes in step: by induction on the firings left, where every attempt begins
at or after the pin. -/
theorem run_onto (h : Facing src kept a t) {start : TokenStart} (hk : kept ≤ start.index)
    (fuel : Nat) :
    ∃ u, (a.onto t).run fuel start = ((a.run fuel start).1, (a.run fuel start).2.onto u) ∧
      Facing src kept (a.run fuel start).2 u := by
  induction fuel generalizing a t start with
  | zero => exact ⟨t, rfl, h⟩
  | succ fuel ih =>
    obtain ⟨u, hu, hfu⟩ := fire_onto h hk
    rw [run, run, hu]
    generalize a.fire start = r at hfu ⊢
    obtain ⟨verdict, b⟩ := r
    cases verdict with
    | failed e => exact ⟨u, rfl, hfu⟩
    | injected token => exact ⟨u, record_onto hfu token⟩
    | matched kind =>
      dsimp only at hfu ⊢
      rw [build_onto hfu kind hk]
      exact ⟨u, record_onto hfu (b.build kind start)⟩
    | more => exact ih hfu hk
    | skipped =>
      have he : (b.onto u).hitEof = b.hitEof := rfl
      dsimp only at hfu ⊢
      rw [he]
      cases b.hitEof with
      | true => exact ⟨u, emitEof_onto hfu⟩
      | false =>
        have hb : Facing src kept b.begin u := { hfu with }
        simp only [Bool.false_eq_true, ↓reduceIte, here_onto hfu, begin_onto hfu]
        exact ih hb hfu.kept_le

theorem search_onto (h : Facing src kept a t) :
    ∃ u, (a.onto t).search = (a.search.1, a.search.2.onto u) ∧ Facing src kept a.search.2 u := by
  have hp : (a.onto t).patience = a.patience := by
    rw [patience, patience, LawfulView.extent_eq h.left]
    exact congrArg (_ + · + 1) (LawfulView.extent_eq h.right)
  have he : (a.onto t).hitEof = a.hitEof := rfl
  rw [search, search, he]
  cases a.hitEof with
  | true => exact ⟨t, emitEof_onto h⟩
  | false =>
    have hb : Facing src kept a.begin t := { h with }
    simp only [Bool.false_eq_true, ↓reduceIte, here_onto h, begin_onto h, hp]
    exact run_onto hb h.kept_le a.patience

/-- Between calls both streams rest at one index, pinned or not. -/
structure Beside (src : List Char) (a : ActiveLexer σ RuleEngine) (t : τ) : Prop where
  left : Rests src a.input
  right : Rests src t
  index_eq : CharStream.index t = CharStream.index a.input
  common : a.factory = TokenFactory.common

/-- One call answers alike over both streams and leaves them side by side again. -/
theorem nextToken_onto (h : Beside src a t) :
    ∃ u, (a.onto t).nextToken = (a.nextToken.1, a.nextToken.2.onto u) ∧
      Beside src a.nextToken.2 u := by
  obtain ⟨hsl, hil⟩ := LawfulView.pin h.left
  obtain ⟨hsr, hir⟩ := LawfulView.pin h.right
  rw [h.index_eq] at hsr
  have hp : Facing src (CharStream.index a.input) { a with input := (CharStream.mark a.input).2 }
      (CharStream.mark t).2 :=
    ⟨hsl, hsr, by rw [hir, hil, h.index_eq], Nat.le_of_eq hil.symm, h.common⟩
  obtain ⟨u, hu, hfu⟩ := search_onto hp
  have hul := LawfulView.unpin hfu.left (CharStream.mark a.input).1
  have hur := LawfulView.unpin hfu.right (CharStream.mark t).1
  refine ⟨CharStream.release u (CharStream.mark t).1, ?_, hul.1, hur.1, ?_, hfu.common⟩
  · exact congrArg (fun r : Except LexError Token × ActiveLexer τ RuleEngine =>
      (r.1, { r.2 with input := CharStream.release r.2.input (CharStream.mark t).1 })) hu
  · exact hur.2.trans (hfu.index_eq.trans hul.2.symm)

end ActiveLexer

namespace Lexer

open ActiveLexer

variable {a : ActiveLexer σ RuleEngine} {t : τ}

theorem observe_onto (h : Beside src a t) (answer : Except LexError Token) :
    observe (answer, (a.onto t).toLexer) = observe (answer, a.toLexer) := by
  have hi := h.index_eq
  simp only [observe, ActiveLexer.toLexer, onto, position, charIndex, hi]

/-- Any number of calls goes in step, by induction on the calls. -/
theorem calls_onto (h : Beside src a t) (n : Nat) :
    ((a.onto t).toLexer.calls n).map observe = (a.toLexer.calls n).map observe := by
  induction n generalizing a t with
  | zero => rfl
  | succ n ih =>
    obtain ⟨u, hu, hb⟩ := nextToken_onto h
    rw [calls, calls, nextToken_toLexer, nextToken_toLexer, hu, List.map_cons, List.map_cons,
      ih hb, observe_onto hb]

/-- Lexing a window on a text is lexing the text. For every grammar, source and set of listeners,
any number of calls answer the same, errors and calls after the end included, deliver the same
diagnostics, and leave the same mode, mode stack, position and index. -/
theorem calls_window_eq_text (g : Grammar) (source name : String) (listeners : Listeners)
    (n : Nat) :
    ((fresh (WindowStream.ofString source name) g listeners).calls n).map observe =
      ((fresh (TextStream.ofString source name) g listeners).calls n).map observe := by
  let whole : ActiveLexer TextStream RuleEngine :=
    { fresh (TextStream.ofString source name) g listeners with
      input := TextStream.ofString source name }
  have h : Beside source.toList whole (WindowStream.ofString source name) :=
    ⟨TextStream.rests_ofString source name, WindowStream.represents_ofString source name, rfl, rfl⟩
  exact calls_onto h n

end Lexer

end ModalLex

import ModalLex.Proofs.Lexer.Hushed
import ModalLex.Proofs.Lexer.Pinning
import ModalLex.Proofs.Lexer.Progress

/-!
# Listeners only listen

Calls go as they do without listeners until one of them refuses a diagnostic. That call answers with
the listener's error and leaves the lexer where the match failed, with no character dropped; and
there calls go on to fail as long as the report on the next character is refused.
-/
namespace ModalLex

open TextView

variable {σ : Type} [CharStream σ]

namespace ActiveLexer

section

variable [MarkedView σ] {src : List Char} {a b f : ActiveLexer σ RuleEngine} {d : Diagnostic}
  {e : LexError}

/-- A listener refuses with `e` what a call of `a` reports as `d`, when it fires from `f`. -/
structure Refusal (src : List Char) (a f : ActiveLexer σ RuleEngine) (d : Diagnostic)
    (e : LexError) : Prop where
  /-- The call fires from the lexers that it does without listeners, and ends at `f`. -/
  searches : ∃ before rest, a.pinned.Searches (before ++ [f]) a.pinned.search ∧
    a.hush.pinned.Searches (before.map hush ++ f.hush :: rest) a.hush.pinned.search
  /-- Whatever was reported before has been accepted. -/
  accepted : ∃ ds, a.listeners.Accepts ds f.listeners
  report_eq : ∃ start, f.report? start = some d
  stuck : Stuck src f
  /-- The listeners up to the one that refuses have been called, and no other. -/
  called : ∃ first k later, a.listeners.registered = first ++ k :: later ∧
    Listeners.AcceptInTurn d first f.listeners.log ∧
    k.refuses (f.listeners.log.tell first d) d = some e ∧
    a.nextToken.2.listeners = { a.listeners with log := f.listeners.log.tell (first ++ [k]) d }
  answer_eq : a.nextToken.1 = .error e
  held : Held f a.nextToken.2
  outstanding_eq : MarkedView.outstanding a.nextToken.2.input = MarkedView.outstanding a.input

theorem Idle.hush (h : Idle src a) : Idle src a.hush := { h with }

/-- Letting the stream go moves nothing. -/
theorem Idle.held_nextToken (h : Idle src a) : Held a.pinned.search.2 a.nextToken.2 :=
  ⟨h.index_nextToken, rfl, rfl, rfl, rfl, rfl⟩

/-- A call goes as without listeners, or one of them refuses what it reports. -/
theorem Idle.hush_cases (h : Idle src a) :
    (a.hush.nextToken = (a.nextToken.1, a.nextToken.2.hush) ∧
        ∃ ds, a.listeners.Accepts ds a.nextToken.2.listeners) ∨
      ∃ f d e, Refusal src a f d e := by
  obtain ⟨firings, hs, hlen⟩ := h.exists_searches
  rcases hs.hush_cases h.pinned h.eof_pinned with ⟨hsilent, haccept⟩ |
    ⟨before, f, d, e, rfl, hrefused, rest, c', hsilent⟩
  · left
    have hp : (firings.map ActiveLexer.hush).length ≤ a.hush.pinned.patience := by
      rw [List.length_map, h.hush.patience_pinned]
      omega
    have hsearch : a.hush.pinned.search = _ := hsilent.search_eq hp
    refine ⟨?_, haccept⟩
    rw [nextToken_eq, nextToken_eq, hsearch]
    rfl
  · right
    obtain ⟨firings', hs', -⟩ := h.hush.exists_searches
    obtain ⟨rfl, -⟩ := hsilent.unique hs'
    obtain ⟨start, hreport, hfire⟩ := hrefused.fired
    have hheld := hrefused.working.refused hreport hrefused.dispatch_eq hfire
    obtain ⟨ds, haccept⟩ := hrefused.accepted
    have hregistered : f.listeners.registered = a.listeners.registered := haccept.registered_eq
    obtain ⟨first, k, later, hsplit, hturn, hk, hlisteners⟩ :=
      Listeners.dispatch_error hrefused.dispatch_eq
    rw [hregistered] at hsplit hlisteners
    exact ⟨f, d, e, {
      searches := ⟨before, rest, hs, hs'⟩
      accepted := ⟨ds, haccept⟩
      report_eq := ⟨start, hreport⟩
      stuck := hrefused.working.stuck hreport
      called := ⟨first, k, later, hsplit, hturn, hk, hlisteners⟩
      answer_eq := hrefused.answer_eq
      held := hheld.trans h.held_nextToken
      outstanding_eq := a.outstanding_nextToken }⟩

/-- The report on the next character alone. -/
def charReport (src : List Char) (a : ActiveLexer σ RuleEngine) : Diagnostic where
  sourceName := a.sourceName
  line := a.engine.position.line
  column := a.engine.position.column
  message :=
    let text := String.ofList ((src.drop (CharStream.index a.input)).take 1)
    "token recognition error at: '" ++ showText text ++ "'"

omit [MarkedView σ] in
theorem Held.charReport_eq (h : Held a b) : b.charReport src = a.charReport src := by
  rw [charReport, charReport, h.index_eq, h.position_eq, h.sourceName_eq]

/-- What an attempt reports that begins where the lexer is stuck. -/
theorem Stuck.report?_here {kept : Nat} (hs : Stuck src a) (h : Working src kept a)
    (hk : kept ≤ CharStream.index a.input) : a.report? a.here = some (a.charReport src) := by
  obtain ⟨input, hfound, hmoved, hread⟩ := hs.found_eq h
  have hi : CharStream.index input = CharStream.index a.input := hmoved.index_look
  have hreach : CharStream.index input + 1 ≤ reach input := by omega
  have htext := LawfulView.slice hmoved.shows hk hreach
  rw [hi, Nat.add_sub_cancel_left] at htext
  rw [report?, hfound]
  simp only [LexerState.diagnostic, charReport, here, hi, htext]
  rfl

/-- A call of a stuck lexer fails where the report on the next character is refused, and leaves the
lexer stuck there. -/
theorem Stuck.nextToken (hs : Stuck src a) (h : Idle src a) {ls : Listeners}
    (hd : a.listeners.dispatch (a.charReport src) = (.error e, ls)) :
    a.nextToken.1 = .error e ∧ Held a a.nextToken.2 := by
  have hindex := h.index_pinned
  have hbegin : Held a a.pinned.begin := ⟨hindex, rfl, rfl, rfl, rfl, rfl⟩
  have hwork : Working src (CharStream.index a.input) a.pinned.begin :=
    .begin h.pinned h.eof_pinned
  have hreport := (hbegin.stuck hs).report?_here hwork (Nat.le_of_eq hindex.symm)
  rw [hbegin.charReport_eq] at hreport
  obtain ⟨b, hfire, rfl⟩ : ∃ b, a.pinned.begin.fire a.pinned.here = (.failed e, b) ∧
      b.listeners = ls := ⟨_, a.pinned.begin.fire_refused a.pinned.here hreport hd, rfl⟩
  have hflag : a.pinned.hitEof = false :=
    Bool.eq_false_iff.mpr fun ht => Nat.ne_of_lt hs.index_lt (h.eof_imp ht)
  have hsearch : a.pinned.search = (.error e, b) :=
    (Searches.begun hflag (.failed hfire)).search_eq (Nat.succ_le_succ (Nat.zero_le _))
  have hnext := h.held_nextToken
  rw [hsearch] at hnext
  refine ⟨?_, hbegin.trans ((hwork.refused hreport hd hfire).trans hnext)⟩
  rw [nextToken_eq, hsearch]

end

end ActiveLexer

namespace Lexer

open ActiveLexer

/-- `n` calls go as they do without listeners, and all they report is accepted. -/
structure Unhindered (l : Lexer σ RuleEngine) (n : Nat) : Prop where
  calls_eq : l.hush.calls n = (l.calls n).map fun c => (c.1, c.2.hush)
  accepted : ∃ ds, l.listeners.Accepts ds (after n l).listeners

theorem Unhindered.none (l : Lexer σ RuleEngine) : l.Unhindered 0 := ⟨rfl, [], .nothing _⟩

theorem Unhindered.cons {l : Lexer σ RuleEngine} {n : Nat} {ds : List Diagnostic}
    (hcall : l.hush.nextToken = (l.nextToken.1, l.nextToken.2.hush))
    (haccept : l.listeners.Accepts ds l.nextToken.2.listeners)
    (h : l.nextToken.2.Unhindered n) : l.Unhindered (n + 1) where
  calls_eq := by
    rw [calls, calls, hcall, List.map_cons, h.calls_eq]
  accepted := by
    obtain ⟨es, hes⟩ := h.accepted
    exact ⟨ds ++ es, haccept.trans hes⟩

/-- A lexer without an input reports nothing. -/
theorem unhindered_detached (s : LexerState σ RuleEngine) (n : Nat) : Unhindered ⟨s, none⟩ n := by
  induction n with
  | zero => exact .none _
  | succ n ih => exact .cons rfl (.nothing _) ih

/-- Calls fail where the lexer stands for as long as the report on the next character is refused,
each with the error that it is refused with. -/
def Barred (src : List Char) (a : ActiveLexer σ RuleEngine) : Prop :=
  ∀ n,
    (∀ j ≤ n, ∃ e ls,
      (after j a.toLexer).listeners.dispatch (a.charReport src) = (.error e, ls)) →
    ∃ (b : ActiveLexer σ RuleEngine) (e : LexError) (ls : Listeners),
      after n a.toLexer = b.toLexer ∧
        b.listeners.dispatch (a.charReport src) = (.error e, ls) ∧
        b.nextToken.1 = .error e ∧ Held a b.nextToken.2

section

variable [MarkedView σ] {g : Grammar} {factory : TokenFactory σ} {src : List Char}
  {a : ActiveLexer σ RuleEngine} {l : Lexer σ RuleEngine}

/-- By induction on the calls, each of which leaves the lexer where it was. -/
theorem after_stuck (hs : a.Stuck src) (h : a.Idle src) (n : Nat)
    (hrefused : ∀ j < n, ∃ e ls,
      (after j a.toLexer).listeners.dispatch (a.charReport src) = (.error e, ls)) :
    ∃ b, after n a.toLexer = b.toLexer ∧ b.Idle src ∧ Held a b := by
  induction n generalizing a with
  | zero => exact ⟨a, rfl, h, .refl a⟩
  | succ n ih =>
    obtain ⟨e, ls, hd⟩ := hrefused 0 (Nat.succ_pos n)
    obtain ⟨-, hheld⟩ := hs.nextToken h hd
    obtain ⟨b, hb, hidle, hstill⟩ := ih (hheld.stuck hs) h.nextToken.idle fun j hj => by
      rw [hheld.charReport_eq]
      exact hrefused (j + 1) (Nat.succ_lt_succ hj)
    exact ⟨b, hb, hidle, hheld.trans hstill⟩

theorem barred_of_stuck (hs : a.Stuck src) (h : a.Idle src) : Barred src a := by
  intro n hrefused
  obtain ⟨b, hb, hidle, hheld⟩ := after_stuck hs h n fun j hj => hrefused j (Nat.le_of_lt hj)
  obtain ⟨e, ls, hd⟩ := hrefused n (Nat.le_refl n)
  rw [hb] at hd
  have hreport := hd
  rw [← hheld.charReport_eq] at hreport
  obtain ⟨hanswer, hnext⟩ := (hheld.stuck hs).nextToken hidle hreport
  exact ⟨b, e, ls, hb, hd, hanswer, hheld.trans hnext⟩

/-- What a firing drops has been accepted by every listener. -/
theorem accepted_of_dropped (h : a.Idle src) {firings : List (ActiveLexer σ RuleEngine)}
    {c : Except LexError Token × ActiveLexer σ RuleEngine} (hs : a.pinned.Searches firings c)
    {f : ActiveLexer σ RuleEngine} (hf : f ∈ firings) {start : TokenStart} {d : Diagnostic}
    (hreport : f.report? start = some d)
    (hmoved : CharStream.index (f.fire start).2.input ≠ CharStream.index f.input) :
    Listeners.AcceptInTurn d a.listeners.registered f.listeners.log := by
  cases hs with
  | ended => contradiction
  | begun hflag hruns =>
    have hkeeps := (hruns.keeps (P := fun m => m.listeners.registered = a.listeners.registered)
      id (fun _ => id) (fun _ hm hf => by
        obtain ⟨n, ht⟩ := hf.took
        exact ht.registered_eq.trans hm) (.begin h.pinned h.eof_pinned) rfl).1
    obtain ⟨hwork, hregistered⟩ := hkeeps f hf
    rcases hfire : f.fire start with ⟨v, b⟩
    rw [hfire] at hmoved
    rcases hd : f.listeners.dispatch d with ⟨e | ⟨⟨⟩⟩, ls⟩
    · obtain ⟨-, hb⟩ := Prod.mk.inj (hfire.symm.trans (f.fire_refused start hreport hd))
      have hlisteners : b.listeners = ls := by rw [hb]
      exact absurd (hwork.refused hreport (hlisteners ▸ hd) hfire).index_eq hmoved
    · rw [← hregistered]
      exact (Listeners.dispatch_ok hd).1

/-- Any number of calls goes as without listeners, or as far as the first one that is interrupted,
by induction on the calls. -/
theorem calls_hush_cases (h : a.Idle src) (n : Nat) :
    a.toLexer.Unhindered n ∨ ∃ k b f d e, k < n ∧ a.toLexer.Unhindered k ∧
      after k a.toLexer = b.toLexer ∧ b.Idle src ∧ Refusal src b f d e := by
  induction n generalizing a with
  | zero => exact .inl (.none _)
  | succ n ih =>
    rcases h.hush_cases with ⟨hcall, ds, haccept⟩ | ⟨f, d, e, hrefusal⟩
    · have hcall' : a.toLexer.hush.nextToken =
          (a.toLexer.nextToken.1, a.toLexer.nextToken.2.hush) :=
        congrArg (fun c : Except LexError Token × ActiveLexer σ RuleEngine => (c.1, c.2.toLexer))
          hcall
      rcases ih h.nextToken.idle with hrest | ⟨k, b, f, d, e, hk, hrest, hb, hidle, hrefusal⟩
      · exact .inl (.cons hcall' haccept hrest)
      · exact .inr ⟨k + 1, b, f, d, e, Nat.succ_lt_succ hk, .cons hcall' haccept hrest, hb, hidle,
          hrefusal⟩
    · exact .inr ⟨0, a, f, d, e, Nat.succ_pos n, .none _, rfl, h, hrefusal⟩

/-- Listeners only observe until one of them fails. For every grammar, stream, source, factory and
list of listeners, and every lexer that a session has led to: calls go as they do without listeners,
lexer by lexer, and all that is reported is accepted, up to a first call that a listener interrupts.
That call goes as without listeners up to the firing that is reported; the listeners up to the
first one that refuses are called once, and the others not; the answer is its error, the lexer is
held where the match failed, and its stream is under as many marks as before. From there on calls
fail at the same place for as long as the report on the next character is refused. And no call drops
a character that is reported unless all listeners have accepted the report. -/
theorem listeners_only_observe {allowed : Request → Prop} {fits : σ → Prop}
    (hreach : Reachable g allowed fits factory src l) (n : Nat) :
    (l.Unhindered n ∨
      ∃ (k : Nat) (a f : ActiveLexer σ RuleEngine) (d : Diagnostic) (e : LexError),
        k < n ∧ l.Unhindered k ∧ after k l = a.toLexer ∧ Refusal src a f d e ∧
        Barred src a.nextToken.2) ∧
    ∀ (a f : ActiveLexer σ RuleEngine) (firings : List (ActiveLexer σ RuleEngine))
      (start : TokenStart) (d : Diagnostic),
      l = a.toLexer → a.pinned.Searches firings a.pinned.search → f ∈ firings →
      f.report? start = some d →
      CharStream.index (f.fire start).2.input ≠ CharStream.index f.input →
      Listeners.AcceptInTurn d a.listeners.registered f.listeners.log := by
  constructor
  · cases hreach.idle with
    | @detached s => exact .inl (unhindered_detached s n)
    | @attached _ a ha =>
      rcases calls_hush_cases ha n with hall | ⟨k, b, f, d, e, hk, hfirst, hb, hidle, hrefusal⟩
      · exact .inl hall
      · have hstuck := hrefusal.held.stuck hrefusal.stuck
        exact .inr ⟨k, b, f, d, e, hk, hfirst, hb, hrefusal,
          barred_of_stuck hstuck hidle.nextToken.idle⟩
  · rintro a f firings start d rfl hs hf hreport hmoved
    exact accepted_of_dropped hreach.idle.active.1 hs hf hreport hmoved

end

/-- The lexer at the start of `" a!"`. The second of its three listeners refuses everything. -/
def hollowHeard : Lexer TextStream RuleEngine :=
  (hollowStart.toLexer.addListener (.bail 1)).addListener (.collector 2)

theorem listeners_only_observe_hollow :
    Reachable hollow (fun _ => True) (fun _ => True) TokenFactory.common " a!".toList
        hollowHeard ∧
      ¬ hollowHeard.Unhindered 2 ∧
      ∃ (k : Nat) (a f : ActiveLexer TextStream RuleEngine) (d : Diagnostic) (e : LexError),
        k < 2 ∧ hollowHeard.Unhindered k ∧ after k hollowHeard = a.toLexer ∧
          Refusal " a!".toList a f d e ∧ Barred " a!".toList a.nextToken.2 := by
  have hreach : Reachable hollow (fun _ => True) (fun _ => True) TokenFactory.common
      " a!".toList hollowHeard :=
    .request (r := .addListener (.collector 2)) (.request (r := .addListener (.bail 1))
      (.ofInput (TextStream.rests_ofString " a!" "inline") trivial) trivial) trivial
  have hanswers : (hollowHeard.hush.calls 2).map Prod.fst ≠ (hollowHeard.calls 2).map Prod.fst := by
    decide +kernel
  have hhindered : ¬ hollowHeard.Unhindered 2 := by
    intro h
    have hcalls := congrArg (List.map Prod.fst) h.calls_eq
    rw [List.map_map] at hcalls
    exact hanswers hcalls
  exact ⟨hreach, hhindered, (listeners_only_observe hreach 2).1.resolve_left hhindered⟩

end Lexer

end ModalLex

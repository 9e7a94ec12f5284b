import ModalLex.Proofs.Lexer.Runs

/-!
# Lexing without listeners

Listeners have no part in a lexer's run but to end it. A run goes as it does without them up to the
first firing whose report one of them refuses.
-/
namespace ModalLex

open TextView

/-- The log after these listeners were called with a diagnostic, one after another. -/
def Log.tell (log : Log) (listeners : List Listener) (d : Diagnostic) : Log :=
  listeners.foldl (fun log k => log.deliver k.inbox d) log

namespace Listeners

/-- Each of these listeners accepts the diagnostic when its turn comes. -/
def AcceptInTurn (d : Diagnostic) : List Listener → Log → Prop
  | [], _ => True
  | k :: rest, log => k.refuses log d = none ∧ AcceptInTurn d rest (log.deliver k.inbox d)

/-- The listeners accept these diagnostics, one after another. -/
inductive Accepts : Listeners → List Diagnostic → Listeners → Prop
  | nothing (ls : Listeners) : Accepts ls [] ls
  | cons {ls ls' ls'' : Listeners} {d : Diagnostic} {ds : List Diagnostic} :
      ls.dispatch d = (.ok (), ls') → Accepts ls' ds ls'' → Accepts ls (d :: ds) ls''

variable {ls ls' ls'' : Listeners} {d : Diagnostic} {ds es : List Diagnostic} {e : LexError}

theorem Accepts.trans (h : ls.Accepts ds ls') (h' : ls'.Accepts es ls'') :
    ls.Accepts (ds ++ es) ls'' := by
  induction h with
  | nothing => exact h'
  | cons hd _ ih => exact .cons hd (ih h')

theorem Accepts.registered_eq (h : ls.Accepts ds ls') : ls'.registered = ls.registered := by
  induction h with
  | nothing => rfl
  | cons hd _ ih => exact ih.trans (ActiveLexer.dispatch_registered hd)

/-- A dispatch calls the listeners in order, and stops after the first one that refuses. -/
theorem deliverAll_cases (d : Diagnostic) (registered : List Listener) (log : Log) :
    (AcceptInTurn d registered log ∧
        deliverAll d registered log = (.ok (), log.tell registered d)) ∨
      ∃ before k later e, registered = before ++ k :: later ∧ AcceptInTurn d before log ∧
        k.refuses (log.tell before d) d = some e ∧
        deliverAll d registered log = (.error e, log.tell (before ++ [k]) d) := by
  induction registered generalizing log with
  | nil => exact .inl ⟨trivial, rfl⟩
  | cons k rest ih =>
    rw [deliverAll]
    cases hk : k.refuses log d with
    | some e => exact .inr ⟨[], k, rest, e, rfl, trivial, hk, rfl⟩
    | none =>
      rcases ih (log.deliver k.inbox d) with ⟨haccept, hall⟩ |
        ⟨before, j, later, e, rfl, haccept, hj, hall⟩
      · exact .inl ⟨⟨hk, haccept⟩, hall⟩
      · exact .inr ⟨k :: before, j, later, e, rfl, ⟨hk, haccept⟩, hj, hall⟩

/-- Where all accept, all have been called. -/
theorem dispatch_ok (h : ls.dispatch d = (.ok (), ls')) :
    AcceptInTurn d ls.registered ls.log ∧
      ls' = { ls with log := ls.log.tell ls.registered d } := by
  rw [dispatch] at h
  rcases deliverAll_cases d ls.registered ls.log with ⟨haccept, hall⟩ |
    ⟨before, k, later, e, -, -, -, hall⟩
  · rw [hall] at h
    exact ⟨haccept, (Prod.mk.inj h).2.symm⟩
  · rw [hall] at h
    cases h

/-- The listeners before the first one that refuses have been called, and that one, and no other. -/
theorem dispatch_error (h : ls.dispatch d = (.error e, ls')) :
    ∃ before k later, ls.registered = before ++ k :: later ∧ AcceptInTurn d before ls.log ∧
      k.refuses (ls.log.tell before d) d = some e ∧
      ls' = { ls with log := ls.log.tell (before ++ [k]) d } := by
  rw [dispatch] at h
  rcases deliverAll_cases d ls.registered ls.log with ⟨haccept, hall⟩ |
    ⟨before, k, later, e', hsplit, haccept, hk, hall⟩
  · rw [hall] at h
    cases h
  · rw [hall] at h
    obtain ⟨he, hls⟩ := Prod.mk.inj h
    obtain rfl := Except.error.inj he
    exact ⟨before, k, later, hsplit, haccept, hk, hls.symm⟩

end Listeners

variable {σ ε : Type}

/-- The lexer without its listeners. -/
def ActiveLexer.hush (a : ActiveLexer σ ε) : ActiveLexer σ ε := { a with listeners := .empty }

def Lexer.hush (l : Lexer σ ε) : Lexer σ ε := { l with listeners := .empty }

namespace ActiveLexer

section

variable [CharStream σ] (a : ActiveLexer σ ε)

theorem settle_hush (asked : Pending) :
    a.hush.settle asked = ((a.settle asked).1, (a.settle asked).2.hush) ∧
      (a.settle asked).2.listeners = a.listeners := by
  rcases hla : CharStream.la a.input 1 with ⟨next, input⟩
  rw [settle_eq a asked hla, settle_eq a.hush asked hla]
  have hasked : a.hush.context.pending.orElse asked = a.context.pending.orElse asked := rfl
  rw [hasked]
  cases a.context.pending.orElse asked with
  | valid kind =>
    cases he : a.context.emitted <;> simp only [conclude, noted, hush, he, and_self]
  | _ => exact ⟨rfl, rfl⟩

variable [RecognitionEngine ε] (start : TokenStart) {b : ActiveLexer σ ε} {d : Diagnostic}
  {e : LexError} {ls : Listeners}

theorem recover_hush :
    a.hush.recover = (a.recover.1, a.recover.2.hush) ∧ a.recover.2.listeners = a.listeners := by
  rcases hla : CharStream.la a.input 1 with ⟨_ | c, input⟩ <;>
    simp only [recover, hush, hla, and_self]

/-- With an accepted report a failed match is recovered from as without listeners. -/
theorem giveUp_hush (hd : a.listeners.dispatch (a.diagnostic a.input start) = (.ok (), ls)) :
    a.hush.giveUp start = ((a.giveUp start).1, (a.giveUp start).2.hush) ∧
      (a.giveUp start).2.listeners = ls := by
  have hquiet : a.hush.listeners.dispatch (a.hush.diagnostic a.hush.input start) =
      (.ok (), .empty) := rfl
  obtain ⟨hrecover, hkept⟩ := recover_hush { a with listeners := ls }
  have hhush : hush { a with listeners := ls } = { a.hush with listeners := .empty } := rfl
  rw [hhush] at hrecover
  rcases hr : recover { a with listeners := ls } with ⟨e | ⟨⟨⟩⟩, b⟩
  · rw [hr] at hrecover hkept
    rw [giveUp_stuck a start hd hr, giveUp_stuck a.hush start hquiet hrecover]
    exact ⟨rfl, hkept⟩
  · rw [hr] at hrecover hkept
    rw [giveUp_recovered a start hd hr, giveUp_recovered a.hush start hquiet hrecover]
    obtain ⟨hsettle, hlisteners⟩ := b.settle_hush .skip
    exact ⟨hsettle, hlisteners.trans hkept⟩

/-- What the match of a firing finds. -/
def found : Recognition ε σ :=
  RecognitionEngine.matchToken a.engine a.input a.context.mode
    { a.context with pending := .invalid }

/-- The diagnostic that a firing reports, if its match fails. -/
def report? : Option Diagnostic :=
  match a.found.outcome with
  | .ok (.noViable _ _) => some ((a.recognized a.found).diagnostic a.found.input start)
  | .ok (.matched _) | .error _ => none

/-- A firing whose report is accepted, or that reports nothing, goes as without listeners. -/
theorem fire_hush
    (haccept : ∀ d, a.report? start = some d → ∃ ls, a.listeners.dispatch d = (.ok (), ls)) :
    a.hush.fire start = ((a.fire start).1, (a.fire start).2.hush) ∧
      ∃ ds, a.listeners.Accepts ds (a.fire start).2.listeners := by
  have hfire := fire_eq a start (r := a.found) rfl
  have hhush := fire_eq a.hush start (r := a.found) rfl
  have hrec : a.hush.recognized a.found = (a.recognized a.found).hush := rfl
  rw [hrec] at hhush
  rw [report?] at haccept
  rw [hfire, hhush]
  rcases ho : a.found.outcome with e | ⟨pending⟩ | ⟨from_, index⟩
  · exact ⟨rfl, [], .nothing _⟩
  · obtain ⟨hsettle, hkept⟩ := (a.recognized a.found).settle_hush pending
    refine ⟨hsettle, [], ?_⟩
    dsimp only
    rw [hkept]
    exact .nothing _
  · rw [ho] at haccept
    obtain ⟨ls, hd⟩ := haccept _ rfl
    obtain ⟨hgive, hkept⟩ := (a.recognized a.found).giveUp_hush start hd
    refine ⟨hgive, [(a.recognized a.found).diagnostic a.found.input start], ?_⟩
    dsimp only
    rw [hkept]
    exact .cons hd (.nothing ls)

/-- A firing whose report is refused ends where its match failed. -/
theorem fire_refused (hreport : a.report? start = some d)
    (hd : a.listeners.dispatch d = (.error e, ls)) :
    a.fire start = (.failed e, { a.recognized a.found with listeners := ls }) := by
  rw [fire_eq a start (r := a.found) rfl]
  rw [report?] at hreport
  rcases ho : a.found.outcome with _ | ⟨pending⟩ | ⟨from_, index⟩
  · rw [ho] at hreport
    contradiction
  · rw [ho] at hreport
    contradiction
  · rw [ho] at hreport
    obtain rfl := Option.some.inj hreport
    exact giveUp_refused (a.recognized a.found) start hd

/-- A firing goes as without listeners, or it fails because one of them refuses its report. -/
theorem fire_cases {start : TokenStart} {v : Verdict} (hfire : a.fire start = (v, b)) :
    (a.hush.fire start = (v, b.hush) ∧ ∃ ds, a.listeners.Accepts ds b.listeners) ∨
      ∃ d e, a.report? start = some d ∧ v = .failed e ∧
        a.listeners.dispatch d = (.error e, b.listeners) := by
  by_cases haccept : ∀ d, a.report? start = some d → ∃ ls, a.listeners.dispatch d = (.ok (), ls)
  · have hhush := a.fire_hush start haccept
    rw [hfire] at hhush
    exact .inl hhush
  · push Not at haccept
    obtain ⟨d, hreport, hrefused⟩ := haccept
    rcases hd : a.listeners.dispatch d with ⟨e | ⟨⟨⟩⟩, ls⟩
    · obtain ⟨rfl, rfl⟩ := Prod.mk.inj (hfire.symm.trans (a.fire_refused start hreport hd))
      exact .inr ⟨d, e, hreport, rfl, hd⟩
    · exact absurd hd (hrefused ls)

/-- A firing that does not fail goes as without listeners. -/
theorem fire_goes {start : TokenStart} {v : Verdict} (hfire : a.fire start = (v, b))
    (hv : ∀ e, v ≠ .failed e) :
    a.hush.fire start = (v, b.hush) ∧ ∃ ds, a.listeners.Accepts ds b.listeners := by
  rcases a.fire_cases hfire with hgoes | ⟨d, e, -, hfailed, -⟩
  · exact hgoes
  · exact absurd hfailed (hv e)

end

section

variable [CharStream σ] {src : List Char} {a b c : ActiveLexer σ RuleEngine}

/-- The mode is one of the grammar's, and none of its rules takes the next character. -/
structure Stuck (src : List Char) (a : ActiveLexer σ RuleEngine) : Prop where
  index_lt : CharStream.index a.input < src.length
  no_winner : ∃ md, a.engine.grammar.mode? a.context.mode = some md ∧
    winner? md.rules (src.drop (CharStream.index a.input)) = none

/-- `b` stands where `a` does. -/
structure Held (a b : ActiveLexer σ RuleEngine) : Prop where
  index_eq : CharStream.index b.input = CharStream.index a.input
  modes_eq : b.context.modes = a.context.modes
  hitEof_eq : b.hitEof = a.hitEof
  position_eq : b.engine.position = a.engine.position
  grammar_eq : b.engine.grammar = a.engine.grammar
  sourceName_eq : b.sourceName = a.sourceName

namespace Held

theorem refl (a : ActiveLexer σ RuleEngine) : Held a a := ⟨rfl, rfl, rfl, rfl, rfl, rfl⟩

theorem trans (h : Held a b) (h' : Held b c) : Held a c where
  index_eq := h'.index_eq.trans h.index_eq
  modes_eq := h'.modes_eq.trans h.modes_eq
  hitEof_eq := h'.hitEof_eq.trans h.hitEof_eq
  position_eq := h'.position_eq.trans h.position_eq
  grammar_eq := h'.grammar_eq.trans h.grammar_eq
  sourceName_eq := h'.sourceName_eq.trans h.sourceName_eq

theorem stuck (h : Held a b) (hs : Stuck src a) : Stuck src b := by
  obtain ⟨hi, md, hmode, hw⟩ := hs
  have hmode' : b.context.mode = a.context.mode := congrArg Prod.fst h.modes_eq
  refine ⟨by rwa [h.index_eq], md, ?_, ?_⟩
  · rwa [h.grammar_eq, hmode']
  · rwa [h.index_eq]

end Held

end

section

variable [CharStream σ] [LawfulView σ] {src : List Char} {kept : Nat} {start : TokenStart}
  {a b f m : ActiveLexer σ RuleEngine} {d : Diagnostic} {e : LexError} {v : Verdict}
  {firings : List (ActiveLexer σ RuleEngine)}
  {c : Except LexError Token × ActiveLexer σ RuleEngine}

/-- Only where the lexer is stuck is anything reported. -/
theorem Working.stuck (h : Working src kept a) (hreport : a.report? start = some d) :
    Stuck src a := by
  obtain ⟨input, hfound, -⟩ := RuleEngine.matchToken_eq h.shows a.engine a.context.mode
    { a.context with pending := .invalid }
  have ho := congrArg Recognition.outcome (show a.found = _ from hfound)
  rw [report?, ho] at hreport
  rcases Nat.lt_or_ge (CharStream.index a.input) src.length with hi | hi
  · cases hmode : a.engine.grammar.mode? a.context.mode with
    | none =>
      rw [RuleEngine.find_unknown _ _ _ (drop_ne_nil hi) hmode] at hreport
      contradiction
    | some md =>
      cases hw : winner? md.rules (src.drop (CharStream.index a.input)) with
      | none => exact ⟨hi, md, hmode, hw⟩
      | some w =>
        rw [RuleEngine.find_winner _ _ _ (drop_ne_nil hi) hmode hw] at hreport
        cases hc : (Action.applyAll { a.context with pending := .invalid } w.1.actions).1 <;>
          simp [hc, Except.map] at hreport
  · rw [List.drop_eq_nil_of_le hi, RuleEngine.find_nil] at hreport
    contradiction

/-- The match of a stuck lexer finds nothing, having read the character that it is stuck at. -/
theorem Stuck.found_eq (hs : Stuck src a) (h : Working src kept a) :
    ∃ input, a.found = ⟨.ok (.noViable (CharStream.index a.input) (CharStream.index a.input)),
        { a.engine with start := CharStream.index a.input }, input,
        { a.context with pending := .invalid }⟩ ∧
      Moved src kept a.input 0 input ∧ CharStream.index a.input < reach input := by
  obtain ⟨md, hmode, hw⟩ := hs.no_winner
  obtain ⟨input, hfound, hmoved, hread⟩ := RuleEngine.matchToken_eq h.shows a.engine
    a.context.mode { a.context with pending := .invalid }
  rw [RuleEngine.find_noViable _ _ _ (drop_ne_nil hs.index_lt) hmode hw] at hfound hmoved
  exact ⟨input, hfound, hmoved, hread hs.index_lt⟩

/-- Where a report is refused the lexer goes no further than the match that failed. -/
theorem Working.refused (h : Working src kept a) (hreport : a.report? start = some d)
    (hd : a.listeners.dispatch d = (.error e, b.listeners)) (hfire : a.fire start = (v, b)) :
    Held a b := by
  obtain ⟨input, hfound, hmoved, -⟩ := (h.stuck hreport).found_eq h
  have hrefused := a.fire_refused start hreport hd
  rw [hfound, hfire] at hrefused
  obtain ⟨-, hb⟩ := Prod.mk.inj hrefused
  rw [hb]
  exact ⟨hmoved.index_look, rfl, rfl, rfl, rfl, rfl⟩

/-- The run of `a` ends at `f`, where a listener refuses what is reported. -/
structure Refused (src : List Char) (kept : Nat) (a f : ActiveLexer σ RuleEngine)
    (d : Diagnostic) (e : LexError) (c : Except LexError Token × ActiveLexer σ RuleEngine) :
    Prop where
  working : Working src kept f
  accepted : ∃ ds, a.listeners.Accepts ds f.listeners
  fired : ∃ start, f.report? start = some d ∧ f.fire start = (.failed e, c.2)
  dispatch_eq : f.listeners.dispatch d = (.error e, c.2.listeners)
  answer_eq : c.1 = .error e

theorem Refused.before (h : Refused src kept m f d e c) {ds : List Diagnostic}
    (haccept : a.listeners.Accepts ds m.listeners) : Refused src kept a f d e c := by
  obtain ⟨es, hes⟩ := h.accepted
  exact { h with accepted := ⟨ds ++ es, haccept.trans hes⟩ }

/-- A run goes as without listeners, or as far as a firing whose report is refused. By induction on
the run; the silent run that goes on from there exists because what is left of the text shrinks. -/
theorem Runs.hush_cases (hr : Runs start a firings c) (h : Working src kept a) :
    (Runs start a.hush (firings.map hush) (c.1, c.2.hush) ∧
        ∃ ds, a.listeners.Accepts ds c.2.listeners) ∨
      ∃ before f d e, firings = before ++ [f] ∧ Refused src kept a f d e c ∧
        ∃ rest c', Runs start a.hush (before.map hush ++ f.hush :: rest) c' := by
  induction hr with
  | @failed start a m e hs =>
    rcases a.fire_cases hs with ⟨hhush, haccept⟩ | ⟨d, e', hreport, hv, hd⟩
    · exact .inl ⟨.failed hhush, haccept⟩
    · obtain rfl := Verdict.failed.inj hv
      obtain ⟨fs, c', hruns, -⟩ := exists_runs (l := a.hush) { h with } start
      obtain ⟨rest, rfl⟩ := hruns.head
      exact .inr ⟨[], a, d, e, rfl, ⟨h, ⟨[], .nothing _⟩, ⟨start, hreport, hs⟩, hd, rfl⟩,
        rest, c', hruns⟩
  | @injected _ a _ _ hs =>
    obtain ⟨hhush, haccept⟩ := a.fire_goes hs nofun
    exact .inl ⟨.injected hhush, haccept⟩
  | @matched _ a _ _ hs =>
    obtain ⟨hhush, haccept⟩ := a.fire_goes hs nofun
    exact .inl ⟨.matched hhush, haccept⟩
  | @ended _ a _ hs he =>
    obtain ⟨hhush, haccept⟩ := a.fire_goes hs nofun
    exact .inl ⟨.ended hhush he, haccept⟩
  | @more _ a m _ _ hs hruns ih =>
    obtain ⟨hhush, ds, haccept⟩ := a.fire_goes hs nofun
    rcases ih ((h.fired hs).working h) with ⟨hsilent, es, hes⟩ |
      ⟨before, f, d, e, rfl, hrefused, rest, c', hsilent⟩
    · exact .inl ⟨.more hhush hsilent, ds ++ es, haccept.trans hes⟩
    · exact .inr ⟨a :: before, f, d, e, rfl, hrefused.before haccept, rest, c',
        .more hhush hsilent⟩
  | @onward _ a m _ _ hs he hruns ih =>
    obtain ⟨hhush, ds, haccept⟩ := a.fire_goes hs nofun
    have hm := (h.fired hs).working h
    rcases ih (.begin hm.shows hm.eof_imp) with ⟨hsilent, es, hes⟩ |
      ⟨before, f, d, e, rfl, hrefused, rest, c', hsilent⟩
    · exact .inl ⟨.onward hhush he hsilent, ds ++ es, haccept.trans hes⟩
    · exact .inr ⟨a :: before, f, d, e, rfl, hrefused.before haccept, rest, c',
        .onward hhush he hsilent⟩

theorem Searches.hush_cases (hs : Searches a firings c) (hshows : Shows src kept a.input)
    (he : a.hitEof = true → CharStream.index a.input = src.length) :
    (Searches a.hush (firings.map hush) (c.1, c.2.hush) ∧
        ∃ ds, a.listeners.Accepts ds c.2.listeners) ∨
      ∃ before f d e, firings = before ++ [f] ∧ Refused src kept a f d e c ∧
        ∃ rest c', Searches a.hush (before.map hush ++ f.hush :: rest) c' := by
  cases hs with
  | ended hflag => exact .inl ⟨.ended hflag, [], .nothing _⟩
  | begun hflag hruns =>
    rcases hruns.hush_cases (.begin hshows he) with ⟨hsilent, haccept⟩ |
      ⟨before, f, d, e, hlist, hrefused, rest, c', hsilent⟩
    · exact .inl ⟨.begun hflag hsilent, haccept⟩
    · exact .inr ⟨before, f, d, e, hlist, { hrefused with }, rest, c', .begun hflag hsilent⟩

end

end ActiveLexer

end ModalLex

import ModalLex.Proofs.Lexer.Lockstep
import ModalLex.Proofs.Lexer.Progress
import ModalLex.Tokenization

/-!
# Source names

A lexer writes the name of its source on the tokens that it builds and on the diagnostics that it
reports, and looks at it nowhere. Two lexers over streams of one text, one of them under another
name, go in step, and what they return and report differs in the names alone.
-/
namespace ModalLex

/-- The same token, ascribed to another source. -/
def Token.ascribed (name : String) (t : Token) : Token := { t with sourceName := name }

def Diagnostic.ascribed (name : String) (d : Diagnostic) : Diagnostic :=
  { d with sourceName := name }

def Log.ascribed (name : String) (log : Log) : Log :=
  ⟨log.entries.map fun e => (e.1, e.2.ascribed name)⟩

theorem Log.ascribed_deliver (name : String) (log : Log) (inbox : Nat) (d : Diagnostic) :
    (log.deliver inbox d).ascribed name = (log.ascribed name).deliver inbox (d.ascribed name) := by
  rw [deliver, ascribed, Array.map_push]
  rfl

theorem Log.received_ascribed (name : String) (log : Log) (inbox : Nat) :
    (log.ascribed name).received inbox = (log.received inbox).map (Diagnostic.ascribed name) := by
  rw [received, received, ascribed, Array.toList_map, List.filterMap_map, List.map_filterMap]
  refine List.filterMap_congr fun e _ => ?_
  dsimp only [Function.comp]
  split <;> rfl

/-- Whether a diagnostic is refused does not depend on source names. -/
def Listener.Blind (l : Listener) : Prop :=
  ∀ name log d, l.refuses (Log.ascribed name log) (d.ascribed name) = l.refuses log d

theorem Listener.blind_collector (inbox : Nat) : (Listener.collector inbox).Blind :=
  fun _ _ _ => rfl

namespace Listeners

def Blind (ls : Listeners) : Prop := ∀ l ∈ ls.registered, l.Blind

def ascribed (name : String) (ls : Listeners) : Listeners := { ls with log := ls.log.ascribed name }

theorem deliverAll_ascribed {ls : List Listener} (h : ∀ l ∈ ls, l.Blind) (name : String)
    (d : Diagnostic) (log : Log) :
    deliverAll (d.ascribed name) ls (log.ascribed name) =
      ((deliverAll d ls log).1, (deliverAll d ls log).2.ascribed name) := by
  induction ls generalizing log with
  | nil => rfl
  | cons l rest ih =>
    obtain ⟨hl, hrest⟩ := List.forall_mem_cons.mp h
    rw [deliverAll, deliverAll, hl name log d, ← Log.ascribed_deliver]
    cases l.refuses log d with
    | some e => rfl
    | none => exact ih hrest _

theorem Blind.dispatch {ls : Listeners} (h : ls.Blind) (name : String) (d : Diagnostic) :
    (ls.ascribed name).dispatch (d.ascribed name) =
      ((ls.dispatch d).1, (ls.dispatch d).2.ascribed name) := by
  have hd := deliverAll_ascribed h name d ls.log
  rw [Listeners.dispatch, ascribed, hd]
  rfl

end Listeners

namespace ActiveLexer

variable {σ ε : Type}

/-- The same lexer, its source, its last token and what it has reported ascribed to another name. -/
def ascribed (name : String) (a : ActiveLexer σ ε) : ActiveLexer σ ε :=
  { a with
    sourceName := name
    listeners := a.listeners.ascribed name
    token := a.token.map (Token.ascribed name) }

variable [CharStream σ]

theorem settle_ascribed (name : String) (l : ActiveLexer σ ε) (asked : Pending) :
    (l.ascribed name).settle asked = ((l.settle asked).1, (l.settle asked).2.ascribed name) := by
  rcases hla : CharStream.la l.input 1 with ⟨next, input⟩
  rw [settle_eq l asked hla, settle_eq (l.ascribed name) asked hla]
  have hasked : (l.ascribed name).context.pending.orElse asked =
      l.context.pending.orElse asked := rfl
  rw [hasked]
  cases l.context.pending.orElse asked with
  | valid kind =>
    cases he : l.context.emitted <;> simp only [conclude, noted, ascribed, he]
  | _ => rfl

theorem build_ascribed (name : String) {l : ActiveLexer σ ε}
    (hf : l.factory = TokenFactory.common) (kind : TokenKind) (start : TokenStart) :
    (l.ascribed name).build kind start = (l.build kind start).ascribed name := by
  have hf' : (l.ascribed name).factory = TokenFactory.common := hf
  rw [build, build, hf, hf']
  rfl

variable [RecognitionEngine ε]

theorem recover_ascribed (name : String) (l : ActiveLexer σ ε) :
    (l.ascribed name).recover = (l.recover.1, l.recover.2.ascribed name) := by
  rcases hla : CharStream.la l.input 1 with ⟨_ | c, input⟩ <;>
    simp only [recover, ascribed, hla]

theorem giveUp_ascribed (name : String) {l : ActiveLexer σ ε} (h : l.listeners.Blind)
    (start : TokenStart) :
    (l.ascribed name).giveUp start = ((l.giveUp start).1, (l.giveUp start).2.ascribed name) := by
  have hd : (l.ascribed name).listeners.dispatch
      ((l.ascribed name).diagnostic (l.ascribed name).input start) =
        ((l.listeners.dispatch (l.diagnostic l.input start)).1,
          (l.listeners.dispatch (l.diagnostic l.input start)).2.ascribed name) :=
    h.dispatch name (l.diagnostic l.input start)
  rcases hr : l.listeners.dispatch (l.diagnostic l.input start) with ⟨e | ⟨⟨⟩⟩, ls⟩
  · rw [hr] at hd
    rw [giveUp_refused l start hr, giveUp_refused (l.ascribed name) start hd]
    rfl
  · rw [hr] at hd
    have hrec := recover_ascribed name { l with listeners := ls }
    rcases hc : recover { l with listeners := ls } with ⟨e | ⟨⟨⟩⟩, m⟩
    · rw [hc] at hrec
      rw [giveUp_stuck l start hr hc, giveUp_stuck (l.ascribed name) start hd hrec]
    · rw [hc] at hrec
      rw [giveUp_recovered l start hr hc, giveUp_recovered (l.ascribed name) start hd hrec]
      exact settle_ascribed name m .skip

/-- A firing goes alike under any name, whatever the engine and the stream. -/
theorem fire_ascribed (name : String) {l : ActiveLexer σ ε} (h : l.listeners.Blind)
    (start : TokenStart) :
    (l.ascribed name).fire start = ((l.fire start).1, (l.fire start).2.ascribed name) := by
  rcases hr : RecognitionEngine.matchToken l.engine l.input l.context.mode
    { l.context with pending := .invalid } with ⟨outcome, engine, input, context⟩
  have hrec : (l.ascribed name).recognized ⟨outcome, engine, input, context⟩ =
      (l.recognized ⟨outcome, engine, input, context⟩).ascribed name := rfl
  rw [fire_eq l start hr, fire_eq (l.ascribed name) start hr, hrec]
  have hm : (l.recognized ⟨outcome, engine, input, context⟩).listeners.Blind := h
  generalize l.recognized ⟨outcome, engine, input, context⟩ = m at hm ⊢
  rcases outcome with e | ⟨pending⟩ | ⟨from_, index⟩
  · rfl
  · exact settle_ascribed name m pending
  · exact giveUp_ascribed name hm start

theorem emitEof_ascribed (name : String) {l : ActiveLexer σ ε}
    (hf : l.factory = TokenFactory.common) :
    (l.ascribed name).emitEof =
      (l.emitEof.1.map (Token.ascribed name), l.emitEof.2.ascribed name) := by
  have hf' : (l.ascribed name).factory = TokenFactory.common := hf
  have hcolumn : (l.ascribed name).eofColumn = l.eofColumn := by
    rw [eofColumn, eofColumn]
    cases ht : l.token <;> simp only [ascribed, ht, Option.map, Token.ascribed]
  rw [emitEof, emitEof, hf, hf', hcolumn]
  rfl

/-- Nothing that the lexer calls looks at names. -/
structure Anonymous (a : ActiveLexer σ ε) : Prop where
  common : a.factory = TokenFactory.common
  blind : a.listeners.Blind

variable {src : List Char} {kept : Nat}

theorem Went.anonymous [LawfulView σ] {a b : ActiveLexer σ RuleEngine} {n : Nat}
    (hw : Went src a n b) (h : a.Anonymous) : b.Anonymous where
  common := hw.factory_eq.trans h.common
  blind := by
    rw [Listeners.Blind, hw.registered_eq]
    exact h.blind

section

variable [LawfulView σ] {l : ActiveLexer σ RuleEngine}

/-- A search goes alike, by induction on the firings left: no rule supplies a token of its own, so
that every token bears the name of the lexer. -/
theorem run_ascribed (name : String) (h : Working src kept l) (ha : l.Anonymous)
    (start : TokenStart) (fuel : Nat) :
    (l.ascribed name).run fuel start =
      ((l.run fuel start).1.map (Token.ascribed name), (l.run fuel start).2.ascribed name) := by
  induction fuel generalizing l start with
  | zero => rfl
  | succ fuel ih =>
    rw [run, run, fire_ascribed name ha.blind]
    rcases hfire : l.fire start with ⟨verdict, m⟩
    have hf := h.fired hfire
    obtain ⟨n, htook⟩ := hf.took
    have hwork := hf.working h
    have hm := htook.toWent.anonymous ha
    cases verdict with
    | failed e => rfl
    | injected token => exact absurd hf Fired.not_injected
    | matched kind =>
      dsimp only
      rw [build_ascribed name hm.common]
      rfl
    | more => exact ih hwork hm start
    | skipped =>
      have he : (m.ascribed name).hitEof = m.hitEof := rfl
      dsimp only
      rw [he]
      cases m.hitEof with
      | true => exact emitEof_ascribed name hm.common
      | false => exact ih (.begin hwork.shows hwork.eof_imp) { hm with } m.here

end

variable [RoamingView σ] {a : ActiveLexer σ RuleEngine}

theorem Idle.nextToken_ascribed (name : String) (h : a.Idle src) (ha : a.Anonymous) :
    (a.ascribed name).nextToken =
      (a.nextToken.1.map (Token.ascribed name), a.nextToken.2.ascribed name) := by
  have hpinned : (a.ascribed name).pinned = a.pinned.ascribed name := rfl
  have hflag : (a.pinned.ascribed name).hitEof = a.pinned.hitEof := rfl
  have hsearch : (a.pinned.ascribed name).search =
      (a.pinned.search.1.map (Token.ascribed name), a.pinned.search.2.ascribed name) := by
    rw [search, search, hflag]
    cases a.pinned.hitEof with
    | true => exact emitEof_ascribed name ha.common
    | false =>
      exact run_ascribed name (.begin h.pinned h.eof_pinned) ⟨ha.common, ha.blind⟩ a.pinned.here
        a.pinned.patience
  rw [nextToken_eq, nextToken_eq, hpinned, hsearch]
  rfl

end ActiveLexer

namespace Tokens

open ActiveLexer

variable {σ τ : Type} [CharStream σ] [RoamingView σ] [CharStream τ] [LawfulView τ]
  {src : List Char} {a : ActiveLexer σ RuleEngine} {t : τ}

/-- The whole sequence of tokens goes alike over two streams of one text under two names, by
induction on the calls. -/
theorem drain_ascribed (name : String) (h : a.Idle src) (hb : Beside src a t)
    (hblind : a.listeners.Blind) (budget : Nat) :
    (drain budget ⟨((a.ascribed name).onto t).toLexer, false⟩).1 =
        (drain budget ⟨a.toLexer, false⟩).1.map (List.map (Token.ascribed name)) ∧
      (drain budget ⟨((a.ascribed name).onto t).toLexer, false⟩).2.lexer.listeners =
        (drain budget ⟨a.toLexer, false⟩).2.lexer.listeners.ascribed name := by
  induction budget generalizing a t with
  | zero => exact ⟨rfl, rfl⟩
  | succ budget ih =>
    have ha : a.Anonymous := ⟨hb.common, hblind⟩
    have hnamed : Beside src (a.ascribed name) t := { hb with }
    obtain ⟨u, hu, hbeside⟩ := nextToken_onto hnamed
    obtain ⟨k, hwent⟩ := h.nextToken.went
    have hidle := h.nextToken.idle
    have hblind' := (hwent.anonymous ha).blind
    rw [h.nextToken_ascribed name ha] at hu hbeside
    rw [drain_succ, drain_succ, hu]
    generalize a.nextToken = c at hu hbeside hidle hblind' ⊢
    obtain ⟨e | token, b⟩ := c
    · exact ⟨rfl, rfl⟩
    · have heof : (token.ascribed name).isEof = token.isEof := rfl
      simp only [Except.map, resume, heof]
      cases token.isEof with
      | true => exact ⟨rfl, rfl⟩
      | false =>
        obtain ⟨hanswer, hlisteners⟩ := ih hidle { hbeside with } hblind'
        refine ⟨?_, hlisteners⟩
        change Except.map _ (drain budget _).1 = Except.map _ (Except.map _ (drain budget _).1)
        rw [hanswer]
        cases (drain budget ⟨b.toLexer, false⟩).1 <;> rfl

end Tokens

end ModalLex

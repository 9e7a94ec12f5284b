import ModalLex.Stream.Watched
import ModalLex.Proofs.Lexer.Firing
import ModalLex.Proofs.Lexer.Runs

/-!
# Watching changes nothing else

A rule lexer whose stream keeps a history of its uses goes in step with the lexer it was made from,
over every stream. Only the history grows.
-/
namespace ModalLex

variable {σ : Type} [CharStream σ]

namespace Watched

theorem la_mk {s t : σ} {n : Int} {next : Option Char} (h : CharStream.la s n = (next, t))
    (history : List (StreamUse × σ)) :
    CharStream.la (mk s history) n = (next, ⟨t, (.looked n, t) :: history⟩) := by
  simp only [CharStream.la, h, used]

theorem index_mk (s : σ) (history : List (StreamUse × σ)) :
    CharStream.index (mk s history) = CharStream.index s := rfl

theorem extent_mk (s : σ) (history : List (StreamUse × σ)) :
    CharStream.extent (mk s history) = CharStream.extent s := rfl

end Watched

namespace Pattern

theorem startsWith_watched (chars : List Char) (s : σ) (offset : Int)
    (history : List (StreamUse × σ)) :
    ∃ history', startsWith chars (Watched.mk s history) offset =
      ((startsWith chars s offset).1, ⟨(startsWith chars s offset).2, history'⟩) := by
  induction chars generalizing s offset history with
  | nil => exact ⟨history, rfl⟩
  | cons c chars ih =>
    rcases hla : CharStream.la s (offset + 1) with ⟨next, t⟩
    rw [startsWith, startsWith, hla, Watched.la_mk hla]
    cases next with
    | none => exact ⟨_, rfl⟩
    | some d =>
      by_cases hd : d = c
      · simpa only [if_pos hd] using ih t (offset + 1) _
      · simp only [if_neg hd]
        exact ⟨_, rfl⟩

theorem countMembers_watched (members : CharSet) (limit : Nat) (s : σ) (offset : Int)
    (history : List (StreamUse × σ)) :
    ∃ history', countMembers members limit (Watched.mk s history) offset =
      ((countMembers members limit s offset).1,
        ⟨(countMembers members limit s offset).2, history'⟩) := by
  induction limit generalizing s offset history with
  | zero => exact ⟨history, rfl⟩
  | succ limit ih =>
    rcases hla : CharStream.la s (offset + 1) with ⟨next, t⟩
    rw [countMembers, countMembers, hla, Watched.la_mk hla]
    cases next with
    | none => exact ⟨_, rfl⟩
    | some d =>
      dsimp only
      cases members.contains d with
      | false => exact ⟨_, rfl⟩
      | true =>
        obtain ⟨history', h⟩ := ih t (offset + 1) ((.looked (offset + 1), t) :: history)
        refine ⟨history', ?_⟩
        simp only [h, if_true]

mutual

theorem matchLength_watched (s : σ) (offset : Int) (history : List (StreamUse × σ)) :
    ∀ p : Pattern, ∃ history', matchLength (Watched.mk s history) offset p =
      ((matchLength s offset p).1, ⟨(matchLength s offset p).2, history'⟩)
  | .literal chars => by
    obtain ⟨history', h⟩ := startsWith_watched chars s offset history
    refine ⟨history', ?_⟩
    simp only [matchLength, h]
  | .set members min max => by
    obtain ⟨history', h⟩ :=
      countMembers_watched members (max.getD (CharStream.extent s)) s offset history
    refine ⟨history', ?_⟩
    simp only [matchLength, Watched.extent_mk, h]
  | .seq parts => matchLengths_watched s offset history parts

theorem matchLengths_watched (s : σ) (offset : Int) (history : List (StreamUse × σ)) :
    ∀ parts : List Pattern, ∃ history', matchLengths (Watched.mk s history) offset parts =
      ((matchLengths s offset parts).1, ⟨(matchLengths s offset parts).2, history'⟩)
  | [] => ⟨history, rfl⟩
  | p :: parts => by
    obtain ⟨history₁, h₁⟩ := matchLength_watched s offset history p
    rcases hp : matchLength s offset p with ⟨_ | n, t⟩
    · rw [hp] at h₁
      rw [matchLengths, matchLengths, h₁, hp]
      exact ⟨history₁, rfl⟩
    · rw [hp] at h₁
      obtain ⟨history₂, h₂⟩ := matchLengths_watched t (offset + n) history₁ parts
      refine ⟨history₂, ?_⟩
      rw [matchLengths, matchLengths, h₁, hp]
      dsimp only at h₂ ⊢
      rw [h₂]
      rcases matchLengths t (offset + n) parts with ⟨_ | m, u⟩ <;> rfl

end

end Pattern

namespace Position

theorem consume_watched (p : Position) (s : σ) (history : List (StreamUse × σ)) :
    ∃ history', p.consume (Watched.mk s history) =
      ((p.consume s).1, (p.consume s).2.1, ⟨(p.consume s).2.2, history'⟩) := by
  rcases hla : CharStream.la s 1 with ⟨c, t⟩
  rcases hc : CharStream.consume t with ⟨r, u⟩
  refine ⟨(.consumed, u) :: (.looked 1, t) :: history, ?_⟩
  rw [consume, consume, hla, Watched.la_mk hla]
  cases r <;> simp only [CharStream.consume, Watched.used, hc]

theorem consumeMany_watched (n : Nat) (p : Position) (s : σ) (history : List (StreamUse × σ)) :
    ∃ history', consumeMany n p (Watched.mk s history) =
      ((consumeMany n p s).1, (consumeMany n p s).2.1,
        ⟨(consumeMany n p s).2.2, history'⟩) := by
  induction n generalizing p s history with
  | zero => exact ⟨history, rfl⟩
  | succ n ih =>
    obtain ⟨history₁, h⟩ := p.consume_watched s history
    rw [consumeMany, consumeMany, h]
    rcases p.consume s with ⟨e | _, q, t⟩
    · exact ⟨history₁, rfl⟩
    · exact ih q t history₁

end Position

namespace RuleEngine

theorem longest_watched (best : Option (Rule × Nat)) (s : σ) (rules : List Rule)
    (history : List (StreamUse × σ)) :
    ∃ history', longest best (Watched.mk s history) rules =
      ((longest best s rules).1, ⟨(longest best s rules).2, history'⟩) := by
  induction rules generalizing best s history with
  | nil => exact ⟨history, rfl⟩
  | cons rule rules ih =>
    obtain ⟨history₁, h⟩ := Pattern.matchLength_watched s 0 history rule.pattern
    rw [longest, longest, h]
    exact ih _ _ history₁

theorem accept_watched (e : RuleEngine) (s : σ) (context : Context) (rule : Rule) (length : Nat)
    (history : List (StreamUse × σ)) :
    ∃ history', e.accept (Watched.mk s history) context rule length =
      ⟨(e.accept s context rule length).outcome, (e.accept s context rule length).engine,
        ⟨(e.accept s context rule length).input, history'⟩,
        (e.accept s context rule length).context⟩ := by
  obtain ⟨history', h⟩ := Position.consumeMany_watched length e.position s history
  refine ⟨history', ?_⟩
  rw [accept, accept, h]
  rcases Position.consumeMany length e.position s with ⟨error | _, p, t⟩
  · rfl
  · dsimp only
    rcases Action.applyAll context rule.actions with ⟨error | _, c⟩ <;> rfl

theorem matchToken_watched (e : RuleEngine) (s : σ) (mode : ModeId) (context : Context)
    (history : List (StreamUse × σ)) :
    ∃ history', e.matchToken (Watched.mk s history) mode context =
      ⟨(e.matchToken s mode context).outcome, (e.matchToken s mode context).engine,
        ⟨(e.matchToken s mode context).input, history'⟩,
        (e.matchToken s mode context).context⟩ := by
  rcases hla : CharStream.la s 1 with ⟨next, t⟩
  rw [matchToken, matchToken, hla, Watched.la_mk hla, Watched.index_mk]
  cases next with
  | none => exact ⟨_, rfl⟩
  | some c =>
    dsimp only
    cases e.grammar.mode? mode with
    | none => exact ⟨_, rfl⟩
    | some m =>
      obtain ⟨history₂, h⟩ := longest_watched none t m.rules ((.looked 1, t) :: history)
      dsimp only
      rw [h]
      rcases longest none t m.rules with ⟨_ | ⟨rule, length⟩, u⟩
      · exact ⟨_, rfl⟩
      · exact accept_watched _ u context rule length history₂

end RuleEngine

namespace ActiveLexer

/-- The same lexer with a history of what its stream is used for. -/
def watched {ε : Type} (a : ActiveLexer σ ε) (history : List (StreamUse × σ)) :
    ActiveLexer (Watched σ) ε where
  sourceName := a.sourceName
  engine := a.engine
  factory w := a.factory w.stream
  listeners := a.listeners
  context := a.context
  hitEof := a.hitEof
  token := a.token
  input := ⟨a.input, history⟩

variable (a : ActiveLexer σ RuleEngine) (history : List (StreamUse × σ))

theorem settle_watched (asked : Pending) :
    ∃ history', (a.watched history).settle asked =
      ((a.settle asked).1, (a.settle asked).2.watched history') := by
  rcases hla : CharStream.la a.input 1 with ⟨next, t⟩
  refine ⟨(.looked 1, t) :: history, ?_⟩
  rw [settle_eq a asked hla, settle_eq (a.watched history) asked (Watched.la_mk hla history)]
  have hasked : (a.watched history).context.pending.orElse asked =
      a.context.pending.orElse asked := rfl
  rw [hasked]
  cases a.context.pending.orElse asked with
  | valid kind => cases he : a.context.emitted <;> simp only [conclude, noted, watched, he]
  | _ => rfl

theorem recover_watched :
    ∃ history', (a.watched history).recover = (a.recover.1, a.recover.2.watched history') := by
  rcases hla : CharStream.la a.input 1 with ⟨_ | c, t⟩
  · refine ⟨(.looked 1, t) :: history, ?_⟩
    simp only [recover, watched, hla, Watched.la_mk hla]
  · obtain ⟨history', h⟩ := a.engine.position.consume_watched t ((.looked 1, t) :: history)
    refine ⟨history', ?_⟩
    simp only [recover, watched, RecognitionEngine.consume, hla, Watched.la_mk hla, h]

theorem giveUp_watched (start : TokenStart) :
    ∃ history', (a.watched history).giveUp start =
      ((a.giveUp start).1, (a.giveUp start).2.watched history') := by
  have hd : (a.watched history).listeners.dispatch
      ((a.watched history).diagnostic (a.watched history).input start) =
        a.listeners.dispatch (a.diagnostic a.input start) := rfl
  rcases hr : a.listeners.dispatch (a.diagnostic a.input start) with ⟨e | ⟨⟨⟩⟩, ls⟩
  · rw [giveUp_refused a start hr, giveUp_refused (a.watched history) start (hd.trans hr)]
    exact ⟨history, rfl⟩
  · obtain ⟨history₁, hrec⟩ := recover_watched { a with listeners := ls } history
    rcases hc : recover { a with listeners := ls } with ⟨e | ⟨⟨⟩⟩, b⟩
    · rw [hc] at hrec
      rw [giveUp_stuck a start hr hc, giveUp_stuck (a.watched history) start (hd.trans hr) hrec]
      exact ⟨history₁, rfl⟩
    · rw [hc] at hrec
      rw [giveUp_recovered a start hr hc,
        giveUp_recovered (a.watched history) start (hd.trans hr) hrec]
      exact settle_watched b history₁ .skip

theorem fire_watched (start : TokenStart) :
    ∃ history', (a.watched history).fire start =
      ((a.fire start).1, (a.fire start).2.watched history') := by
  obtain ⟨history₁, hm⟩ := a.engine.matchToken_watched a.input a.context.mode
    { a.context with pending := .invalid } history
  rcases hr : a.engine.matchToken a.input a.context.mode
    { a.context with pending := .invalid } with ⟨outcome, engine, t, context⟩
  rw [hr] at hm
  rw [fire_eq a start hr, fire_eq (a.watched history) start hm]
  have hb : (a.watched history).recognized ⟨outcome, engine, ⟨t, history₁⟩, context⟩ =
      (a.recognized ⟨outcome, engine, t, context⟩).watched history₁ := rfl
  rw [hb]
  generalize a.recognized ⟨outcome, engine, t, context⟩ = b
  rcases outcome with e | ⟨pending⟩ | ⟨_, _⟩
  · exact ⟨history₁, rfl⟩
  · exact settle_watched b history₁ pending
  · exact giveUp_watched b history₁ start

/-- A run goes as it does unwatched, by induction on the firings left. -/
theorem run_watched (fuel : Nat) (start : TokenStart) :
    ∃ history', (a.watched history).run fuel start =
      ((a.run fuel start).1, (a.run fuel start).2.watched history') := by
  induction fuel generalizing a history start with
  | zero => exact ⟨history, rfl⟩
  | succ fuel ih =>
    obtain ⟨history₁, h⟩ := a.fire_watched history start
    rw [run, run, h]
    rcases a.fire start with ⟨verdict, b⟩
    cases verdict with
    | failed | injected | matched => exact ⟨history₁, rfl⟩
    | more => exact ih b history₁ start
    | skipped =>
      have he : (b.watched history₁).hitEof = b.hitEof := rfl
      dsimp only
      rw [he]
      cases b.hitEof with
      | true => exact ⟨history₁, rfl⟩
      | false => exact ih b.begin history₁ b.here

theorem search_watched :
    ∃ history', (a.watched history).search = (a.search.1, a.search.2.watched history') := by
  have he : (a.watched history).hitEof = a.hitEof := rfl
  rw [search, search, he]
  cases a.hitEof with
  | true => exact ⟨history, rfl⟩
  | false => exact a.begin.run_watched history _ a.here

/-- A call answers as it does unwatched. It begins with a mark, which it gives back in the end. -/
theorem nextToken_watched :
    ∃ history',
      (a.pinned.watched ((.marked (CharStream.mark a.input).1, a.pinned.input) :: history)).search =
        (a.pinned.search.1, a.pinned.search.2.watched history') ∧
      (a.watched history).nextToken =
        (a.nextToken.1, a.nextToken.2.watched
          ((.released (CharStream.mark a.input).1, a.nextToken.2.input) :: history')) := by
  obtain ⟨history', h⟩ := a.pinned.search_watched
    ((.marked (CharStream.mark a.input).1, a.pinned.input) :: history)
  refine ⟨history', h, ?_⟩
  have hpinned : (a.watched history).pinned =
      a.pinned.watched ((.marked (CharStream.mark a.input).1, a.pinned.input) :: history) := rfl
  rw [nextToken_eq, nextToken_eq, hpinned, h]
  rfl

end ActiveLexer

end ModalLex

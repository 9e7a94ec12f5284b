import ModalLex.Engine.Recorded
import ModalLex.Proofs.Lexer.Firing
import ModalLex.Proofs.Lexer.Runs

/-!
# Recording changes nothing else

A lexer whose engine records the matches asked of it goes in step with the lexer it was made
from. Along a run the record grows by one entry per firing, with the mode and the index of each.
-/
namespace ModalLex.ActiveLexer

variable {σ ε : Type} [CharStream σ]

/-- The same lexer with a record of the matches asked of its engine. -/
def recorded (l : ActiveLexer σ ε) (calls : List (ModeId × Nat)) :
    ActiveLexer σ (Recorded ε) where
  sourceName := l.sourceName
  engine := ⟨l.engine, calls⟩
  factory := l.factory
  listeners := l.listeners
  context := l.context
  hitEof := l.hitEof
  token := l.token
  input := l.input

/-- What a firing from here asks of the engine. -/
def asked (l : ActiveLexer σ ε) : ModeId × Nat := (l.context.mode, CharStream.index l.input)

/-- The record after these firings, the last one first. -/
def recordOf (firings : List (ActiveLexer σ ε)) (calls : List (ModeId × Nat)) :
    List (ModeId × Nat) :=
  (firings.map asked).reverse ++ calls

@[simp]
theorem recordOf_cons (l : ActiveLexer σ ε) (firings : List (ActiveLexer σ ε))
    (calls : List (ModeId × Nat)) :
    recordOf (l :: firings) calls = recordOf firings (l.asked :: calls) := by
  rw [recordOf, recordOf, List.map_cons, List.reverse_cons, List.append_assoc,
    List.singleton_append]

@[simp]
theorem length_recordOf (firings : List (ActiveLexer σ ε)) (calls : List (ModeId × Nat)) :
    (recordOf firings calls).length = firings.length + calls.length := by
  rw [recordOf, List.length_append, List.length_reverse, List.length_map]

theorem settle_recorded (l : ActiveLexer σ ε) (calls : List (ModeId × Nat)) (p : Pending) :
    (l.recorded calls).settle p = ((l.settle p).1, (l.settle p).2.recorded calls) := by
  rcases hla : CharStream.la l.input 1 with ⟨next, input⟩
  rw [settle_eq l p hla, settle_eq (l.recorded calls) p hla]
  have hasked : (l.recorded calls).context.pending.orElse p = l.context.pending.orElse p := rfl
  rw [hasked]
  cases l.context.pending.orElse p with
  | valid kind =>
    cases he : l.context.emitted <;> simp only [conclude, noted, recorded, he]
  | _ => rfl

variable [RecognitionEngine ε]

theorem recover_recorded (l : ActiveLexer σ ε) (calls : List (ModeId × Nat)) :
    (l.recorded calls).recover = (l.recover.1, l.recover.2.recorded calls) := by
  rcases hla : CharStream.la l.input 1 with ⟨_ | c, input⟩ <;>
    simp only [recover, recorded, hla, RecognitionEngine.consume]

theorem giveUp_recorded (l : ActiveLexer σ ε) (calls : List (ModeId × Nat)) (start : TokenStart) :
    (l.recorded calls).giveUp start =
      ((l.giveUp start).1, (l.giveUp start).2.recorded calls) := by
  have hd : (l.recorded calls).listeners.dispatch
      ((l.recorded calls).diagnostic (l.recorded calls).input start) =
        l.listeners.dispatch (l.diagnostic l.input start) := rfl
  rcases hr : l.listeners.dispatch (l.diagnostic l.input start) with ⟨e | ⟨⟨⟩⟩, ls⟩
  · rw [giveUp_refused l start hr, giveUp_refused (l.recorded calls) start (hd.trans hr)]
    rfl
  · have hrec := recover_recorded { l with listeners := ls } calls
    rcases hc : recover { l with listeners := ls } with ⟨e | ⟨⟨⟩⟩, m⟩
    · rw [hc] at hrec
      rw [giveUp_stuck l start hr hc, giveUp_stuck (l.recorded calls) start (hd.trans hr) hrec]
    · rw [hc] at hrec
      rw [giveUp_recovered l start hr hc,
        giveUp_recovered (l.recorded calls) start (hd.trans hr) hrec]
      exact settle_recorded m calls .skip

/-- A firing goes as it does without a record, and adds one match to it. -/
theorem fire_recorded (l : ActiveLexer σ ε) (calls : List (ModeId × Nat)) (start : TokenStart) :
    (l.recorded calls).fire start =
      ((l.fire start).1, (l.fire start).2.recorded (l.asked :: calls)) := by
  rcases hr : RecognitionEngine.matchToken l.engine l.input l.context.mode
    { l.context with pending := .invalid } with ⟨outcome, engine, input, context⟩
  have hr' := congrArg (fun r : Recognition ε σ =>
    (⟨r.outcome, ⟨r.engine, l.asked :: calls⟩, r.input, r.context⟩ :
      Recognition (Recorded ε) σ)) hr
  have hrec : (l.recorded calls).recognized
      ⟨outcome, ⟨engine, l.asked :: calls⟩, input, context⟩ =
        (l.recognized ⟨outcome, engine, input, context⟩).recorded (l.asked :: calls) := rfl
  rw [fire_eq l start hr, fire_eq (l.recorded calls) start hr', hrec]
  generalize l.recognized ⟨outcome, engine, input, context⟩ = m
  rcases outcome with e | ⟨pending⟩ | ⟨from_, index⟩
  · rfl
  · exact settle_recorded m _ pending
  · exact giveUp_recorded m _ start

variable {l : ActiveLexer σ ε} {start : TokenStart} {firings : List (ActiveLexer σ ε)}
  {c : Except LexError Token × ActiveLexer σ ε}

/-- A run of a lexer is also one of its recorded copy, by induction on the run. -/
theorem Runs.run_recorded (h : Runs start l firings c) (calls : List (ModeId × Nat))
    (extra : Nat) :
    (l.recorded calls).run (extra + firings.length) start =
      (c.1, c.2.recorded (recordOf firings calls)) := by
  induction h generalizing calls with
  | failed hfire | injected hfire | matched hfire =>
    rw [List.length_singleton, run, fire_recorded, hfire]
    rfl
  | more hfire hruns ih =>
    rw [List.length_cons, ← Nat.add_assoc, run, fire_recorded, hfire, recordOf_cons]
    exact ih _
  | ended hfire he =>
    rw [List.length_singleton, run, fire_recorded, hfire]
    exact if_pos he
  | onward hfire he hruns ih =>
    rw [List.length_cons, ← Nat.add_assoc, run, fire_recorded, hfire, recordOf_cons]
    exact (if_neg (he ▸ Bool.false_ne_true)).trans (ih _)

theorem Searches.search_recorded (h : Searches l firings c) (hp : firings.length ≤ l.patience)
    (calls : List (ModeId × Nat)) :
    (l.recorded calls).search = (c.1, c.2.recorded (recordOf firings calls)) := by
  cases h with
  | ended he => exact if_pos he
  | begun he hruns =>
    have hr := hruns.run_recorded calls (l.patience - firings.length)
    rw [Nat.sub_add_cancel hp] at hr
    exact (if_neg (he ▸ Bool.false_ne_true)).trans hr

/-- A call for the next token adds its firings to the record. -/
theorem Searches.nextToken_recorded (h : Searches l.pinned firings c)
    (hp : firings.length ≤ l.pinned.patience) (calls : List (ModeId × Nat)) :
    (l.recorded calls).nextToken =
      (l.nextToken.1, l.nextToken.2.recorded (recordOf firings calls)) := by
  have hs : (l.recorded calls).pinned.search =
      (c.1, c.2.recorded (recordOf firings calls)) := h.search_recorded hp calls
  rw [nextToken_eq, nextToken_eq, hs, h.search_eq hp]
  rfl

end ModalLex.ActiveLexer

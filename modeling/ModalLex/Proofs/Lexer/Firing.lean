import ModalLex.Lexer
import ModalLex.Proofs.Engine.Recognition

/-!
# Settling a firing

After a firing the driver notes whether the input has ended and goes by what the actions asked
for, or else by what the match itself asks. The lemmas here name the two steps apart, for any
engine and any stream.
-/
namespace ModalLex

/-- What a firing comes down to: what its actions asked for, or else what the match asks. -/
def Pending.orElse (asked match_ : Pending) : Pending :=
  if asked = .invalid then match_ else asked

/-- The verdict that settles a firing where no action has supplied a token. -/
def Verdict.ofPending : Pending → Verdict
  | .skip => .skipped
  | .more => .more
  | .invalid => .failed (.illegalState .untypedMatch)
  | .valid kind => .matched kind

namespace ActiveLexer

variable {σ ε : Type} [CharStream σ]

/-- The lexer after it has looked at the next character and settled what is asked. -/
def noted (l : ActiveLexer σ ε) (input : σ) (next : Option Char) (pending : Pending) :
    ActiveLexer σ ε :=
  { l with
    input
    hitEof := l.hitEof || next.isNone
    context := { l.context with pending } }

/-- The verdict on what is asked. A token that an action supplied is taken out of the context. -/
def conclude (l : ActiveLexer σ ε) : Pending → Verdict × ActiveLexer σ ε
  | .skip => (.skipped, l)
  | .more => (.more, l)
  | .invalid => (.failed (.illegalState .untypedMatch), l)
  | .valid kind =>
    match l.context.emitted with
    | some token => (.injected token, { l with context := { l.context with emitted := none } })
    | none => (.matched kind, l)

theorem settle_eq (l : ActiveLexer σ ε) (asked : Pending) {next : Option Char} {input : σ}
    (hla : CharStream.la l.input 1 = (next, input)) :
    l.settle asked =
      (l.noted input next (l.context.pending.orElse asked)).conclude
        (l.context.pending.orElse asked) := by
  have hp : (if l.context.pending = .invalid then asked else l.context.pending) =
      l.context.pending.orElse asked := rfl
  simp only [settle, hla, hp]
  cases l.context.pending.orElse asked with
  | valid kind => cases he : l.context.emitted <;> simp only [conclude, noted, he]
  | _ => rfl

variable [RecognitionEngine ε]

theorem giveUp_refused (l : ActiveLexer σ ε) (start : TokenStart) {e : LexError} {ls : Listeners}
    (hd : l.listeners.dispatch (l.diagnostic l.input start) = (.error e, ls)) :
    l.giveUp start = (.failed e, { l with listeners := ls }) := by
  simp only [giveUp, LexerState.report, hd]

theorem giveUp_recovered (l : ActiveLexer σ ε) (start : TokenStart) {ls : Listeners}
    {l' : ActiveLexer σ ε} (hd : l.listeners.dispatch (l.diagnostic l.input start) = (.ok (), ls))
    (hr : recover { l with listeners := ls } = (.ok (), l')) :
    l.giveUp start = l'.settle .skip := by
  simp only [giveUp, LexerState.report, hd, hr]

theorem giveUp_stuck (l : ActiveLexer σ ε) (start : TokenStart) {ls : Listeners}
    {l' : ActiveLexer σ ε} {e : LexError}
    (hd : l.listeners.dispatch (l.diagnostic l.input start) = (.ok (), ls))
    (hr : recover { l with listeners := ls } = (.error e, l')) :
    l.giveUp start = (.failed e, l') := by
  simp only [giveUp, LexerState.report, hd, hr]

/-- The lexer with what a match left behind. -/
def recognized (l : ActiveLexer σ ε) (r : Recognition ε σ) : ActiveLexer σ ε :=
  { l with engine := r.engine, input := r.input, context := r.context }

theorem fire_eq (l : ActiveLexer σ ε) (start : TokenStart) {r : Recognition ε σ}
    (hr : RecognitionEngine.matchToken l.engine l.input l.context.mode
      { l.context with pending := .invalid } = r) :
    l.fire start =
      match r.outcome with
      | .error e => (.failed e, l.recognized r)
      | .ok (.matched pending) => (l.recognized r).settle pending
      | .ok (.noViable _ _) => (l.recognized r).giveUp start := by
  subst hr
  rfl

/-! A firing leaves the remembered token alone, and settling it the engine too. -/

omit [RecognitionEngine ε] in
theorem settle_leaves (l : ActiveLexer σ ε) (asked : Pending) :
    (l.settle asked).2.engine = l.engine ∧ (l.settle asked).2.token = l.token := by
  rcases hla : CharStream.la l.input 1 with ⟨next, input⟩
  rw [settle_eq l asked hla]
  cases l.context.pending.orElse asked with
  | skip | more | invalid => exact ⟨rfl, rfl⟩
  | valid kind =>
    dsimp only [conclude]
    split <;> exact ⟨rfl, rfl⟩

theorem recover_token (l : ActiveLexer σ ε) : l.recover.2.token = l.token := by
  unfold recover
  rcases CharStream.la l.input 1 with ⟨_ | c, input⟩ <;> rfl

theorem giveUp_token (l : ActiveLexer σ ε) (start : TokenStart) :
    (l.giveUp start).2.token = l.token := by
  rcases hd : l.listeners.dispatch (l.diagnostic l.input start) with ⟨e | ⟨⟨⟩⟩, ls⟩
  · rw [giveUp_refused l start hd]
  · have htoken := recover_token { l with listeners := ls }
    rcases hr : recover { l with listeners := ls } with ⟨e | ⟨⟨⟩⟩, m⟩
    · rw [hr] at htoken
      rw [giveUp_stuck l start hd hr]
      exact htoken
    · rw [hr] at htoken
      rw [giveUp_recovered l start hd hr, (m.settle_leaves .skip).2]
      exact htoken

theorem fire_token (l : ActiveLexer σ ε) (start : TokenStart) :
    (l.fire start).2.token = l.token := by
  rw [fire_eq l start rfl]
  split
  · rfl
  · exact (settle_leaves _ _).2
  · exact giveUp_token _ start

end ActiveLexer

namespace ActiveLexer

open TextView

section

variable {σ ε : Type} [CharStream σ] {l : ActiveLexer σ ε}

theorem build_kind (hf : l.factory = TokenFactory.common) (kind : TokenKind) (start : TokenStart) :
    (l.build kind start).kind = kind := by
  rw [build, hf]
  rfl

theorem emitEof_kind [RecognitionEngine ε] (hf : l.factory = TokenFactory.common) {token : Token}
    (h : l.emitEof.1 = .ok token) : token.kind = .eof := by
  rw [← Except.ok.inj h, hf]
  rfl

theorem emitEof_isEof [RecognitionEngine ε] (hf : l.factory = TokenFactory.common) {token : Token}
    (h : l.emitEof.1 = .ok token) : token.isEof = true :=
  beq_iff_eq.mpr (emitEof_kind hf h)

end

variable {σ : Type} [CharStream σ] [LawfulView σ] {src : List Char} {kept : Nat}
  {l : ActiveLexer σ RuleEngine}

theorem recover_end (h : Shows src kept l.input) (hi : src.length ≤ CharStream.index l.input) :
    ∃ input, l.recover = (.ok (), { l with input }) ∧ Moved src kept l.input 0 input := by
  obtain ⟨input, hla, hm, -⟩ := LawfulView.look_next h
  rw [List.getElem?_eq_none hi] at hla
  exact ⟨input, by rw [recover, hla], hm⟩

/-- Where characters are left, recovery steps over the next one and the position follows. -/
theorem recover_next (h : Shows src kept l.input) (hi : CharStream.index l.input < src.length) :
    ∃ input, l.recover =
        (.ok (), { l with
          engine := { l.engine with
            position := l.engine.position.after src[CharStream.index l.input] }
          input }) ∧
      Moved src kept l.input 1 input := by
  obtain ⟨t, hla, hm, -⟩ := LawfulView.look_next h
  rw [List.getElem?_eq_getElem hi] at hla
  obtain ⟨u, hu, hmu⟩ := Position.consume_eq hm.shows l.engine.position (by rwa [hm.index_look])
  simp only [hm.index_look] at hu
  refine ⟨u, ?_, hm.look_trans hmu⟩
  rw [recover, hla]
  simp only [RecognitionEngine.consume, hu]

end ActiveLexer

end ModalLex

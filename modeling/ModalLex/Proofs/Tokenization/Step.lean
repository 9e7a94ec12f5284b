import ModalLex.Proofs.Tokenization.Course

/-!
# One firing along the course

A lexer over a text in memory stands where the course stands when cursor, position, modes and
name agree; it follows the course when its context moreover holds the channel and the text of
the attempt under way. A firing takes it one step along.
-/
namespace ModalLex

open TextView

/-- The driver's view of where an attempt began. -/
def OpenAttempt.tokenStart (o : OpenAttempt) : TokenStart :=
  ⟨o.start, o.position.line, o.position.column⟩

namespace ActiveLexer

/-- The lexer stands where the course stands, whatever the attempt. -/
structure Stands (g : Grammar) (name : String) (src : List Char)
    (l : ActiveLexer TextStream RuleEngine) (s : Scan) : Prop where
  shows : Shows src 0 l.input
  index_eq : CharStream.index l.input = s.index
  position_eq : l.engine.position = s.position
  grammar_eq : l.engine.grammar = g
  mode_eq : l.context.mode = s.mode
  stack_eq : l.context.modeStack.modes = s.stack
  emitted_eq : l.context.emitted = none
  name_eq : l.sourceName = name
  common : l.factory = TokenFactory.common
  listening : l.listeners.registered = [.collector Tokenization.inbox]
  eof_imp : l.hitEof = true → s.index = src.length

/-- The lexer stands where the course stands and holds what its attempt has gathered. -/
structure Follows (g : Grammar) (name : String) (src : List Char)
    (l : ActiveLexer TextStream RuleEngine) (s : Scan) : Prop extends Stands g name src l s where
  channel_eq : l.context.channel = s.current.channel
  text_eq : l.context.text = s.current.text?

variable {g : Grammar} {name : String} {src rest : List Char} {s : Scan}
  {l m : ActiveLexer TextStream RuleEngine}

theorem Stands.begin (h : Stands g name src l s) (hs : s.attempt = none) :
    Follows g name src l.begin s where
  toStands := { h with emitted_eq := rfl }
  channel_eq := by
    rw [Scan.current_none hs]
    rfl
  text_eq := by
    rw [Scan.current_none hs]
    rfl

theorem Stands.here_eq (h : Stands g name src l s) (hs : s.attempt = none) :
    l.here = s.current.tokenStart := by
  have hi := h.index_eq
  have hp : RecognitionEngine.position l.engine = s.position := h.position_eq
  rw [here, hi, hp, Scan.current_none hs]
  rfl

theorem Stands.close {chars : List Char} {mode : ModeId} {stack : List ModeId}
    {attempt : Option OpenAttempt} (h : Stands g name src l (s.past chars mode stack attempt)) :
    Stands g name src l (s.past chars mode stack none) :=
  { h with }

theorem Stands.patience_eq (h : Stands g name src l s) : l.patience = src.length + 1 := by
  rw [patience, LawfulView.extent_eq h.shows]
  exact congrArg (· + 1) (Nat.zero_add _)

theorem Stands.working (h : Stands g name src l s) : Working src 0 l :=
  ⟨h.shows, h.emitted_eq, fun ht => h.index_eq.trans (h.eof_imp ht)⟩

/-- A firing finds the winner that the course finds. -/
theorem Stands.winner_eq (h : Stands g name src l s) (hp : s.Placed src rest) :
    winner? (l.engine.grammar.rulesOf l.context.mode) (src.drop (CharStream.index l.input)) =
      winner? (g.rulesOf s.mode) rest := by
  rw [h.grammar_eq, h.mode_eq, h.index_eq, ← hp.rest_eq]

/-- The rule that is about to fire is the winner in the current mode. -/
theorem pick_eq (h : Stands g name src l s) (hp : s.Placed src rest) :
    l.pick = (winner? (g.rulesOf s.mode) rest).map Prod.fst := by
  rw [h.working.pick_eq, h.winner_eq hp]

/-- Where a firing took characters the course has gone past them. -/
theorem Stands.past (h : Stands g name src l s) (hp : s.Placed src rest) {n : Nat}
    (hn : n ≤ rest.length) (ht : Took src 0 l n m) (hw : Working src 0 m)
    (attempt : Option OpenAttempt) :
    Stands g name src m
      (s.past (rest.take n) m.context.mode m.context.modeStack.modes attempt) := by
  have hindex : CharStream.index m.input = s.index + (rest.take n).length := by
    rw [ht.index_eq, h.index_eq, List.length_take_of_le hn]
  exact {
    shows := hw.shows
    index_eq := hindex
    position_eq := by
      rw [ht.position_eq, h.position_eq, h.index_eq, ← hp.rest_eq]
      rfl
    grammar_eq := ht.grammar_eq.trans h.grammar_eq
    mode_eq := rfl
    stack_eq := rfl
    emitted_eq := hw.emitted_eq
    name_eq := ht.sourceName_eq.trans h.name_eq
    common := ht.factory_eq.trans h.common
    listening := ht.registered_eq.trans h.listening
    eof_imp := fun hf => hindex.symm.trans (hw.eof_imp hf) }

/-- The flag for the end tells whether characters are left. -/
theorem Stands.hitEof_eq (h : Stands g name src l s) (hp : s.Placed src rest)
    (hf : l.hitEof = true ↔ CharStream.index l.input = src.length) :
    l.hitEof = rest.isEmpty := by
  have hl := hp.length_eq
  rw [Bool.eq_iff_iff, hf, h.index_eq, List.isEmpty_iff, ← List.length_eq_zero_iff]
  omega

theorem fire_end (h : Follows g name src l s) (hp : s.Placed src []) (start : TokenStart) :
    ∃ l', l.fire start = (.matched .eof, l') ∧ Follows g name src l' s ∧ l'.hitEof = true ∧
      l'.listeners = l.listeners := by
  have hend : CharStream.index l.input = src.length := h.index_eq.trans hp.length_eq
  rcases hfire : l.fire start with ⟨v, m⟩
  have hf := h.working.fired hfire
  have hwork := hf.working h.working
  obtain ⟨rfl, took, context_eq, hitEof_eq, listeners_eq⟩ := hf.of_end hend
  have hm := h.toStands.past hp (Nat.zero_le _) took hwork s.attempt
  rw [context_eq, h.mode_eq, h.stack_eq] at hm
  refine ⟨m, rfl, ⟨hm, ?_, ?_⟩, hitEof_eq, listeners_eq⟩
  · rw [context_eq]
    exact h.channel_eq
  · rw [context_eq]
    exact h.text_eq

/-- A winner whose actions pop a mode that was never pushed fails the call. -/
theorem fire_underflow (h : Stands g name src l s) (hp : s.Placed src rest)
    {r : Rule} {n : Nat} (hw : winner? (g.rulesOf s.mode) rest = some (r, n))
    (hm : Action.modesAfter? s.mode s.stack r.actions = none) (start : TokenStart) :
    ∃ l', l.fire start = (.failed .emptyModeStack, l') ∧
      CharStream.index l'.input = s.index + n ∧ l'.listeners = l.listeners := by
  rcases hfire : l.fire start with ⟨v, m⟩
  have hf := (h.working.fired hfire).of_winner ((h.winner_eq hp).trans hw)
  rw [h.mode_eq, h.stack_eq, hm] at hf
  obtain ⟨took, listeners_eq, rfl, -⟩ := hf
  exact ⟨m, rfl, took.index_eq.trans (by rw [h.index_eq]), listeners_eq⟩

/-- A winner whose actions succeed settles as it decides, and the attempt holds it from then on. -/
theorem fire_winner (h : Follows g name src l s) (hp : s.Placed src rest)
    {r : Rule} {n : Nat} (hw : winner? (g.rulesOf s.mode) rest = some (r, n))
    {mode : ModeId} {stack : List ModeId}
    (hm : Action.modesAfter? s.mode s.stack r.actions = some (mode, stack)) (start : TokenStart) :
    ∃ l', l.fire start = (.ofPending r.decision.pending, l') ∧
      Follows g name src l' (s.past (rest.take n) mode stack
        (some (s.current.extend r (rest.take n)))) ∧
      l'.hitEof = (rest.drop n).isEmpty ∧ l'.listeners = l.listeners := by
  rcases hfire : l.fire start with ⟨v, m⟩
  have hfired := h.working.fired hfire
  have hf := hfired.of_winner ((h.winner_eq hp).trans hw)
  rw [h.mode_eq, h.stack_eq, hm] at hf
  obtain ⟨took, listeners_eq, rfl, context_eq, hitEof_iff⟩ := hf
  have hs := h.toStands.past hp (winner?_le hw) took (hfired.working h.working)
    (some (s.current.extend r (rest.take n)))
  rw [context_eq] at hs
  refine ⟨m, rfl, ⟨hs, ?_, ?_⟩, hs.hitEof_eq ((hp.cut n).past_extend (winner?_take_ne hw) r)
    hitEof_iff, listeners_eq⟩
  · rw [context_eq, Scan.current_past_some, OpenAttempt.channel_extend, ← h.channel_eq]
    rfl
  · rw [context_eq, Scan.current_past_some, OpenAttempt.text?_extend, ← h.text_eq]
    rfl

theorem dispatch_collector {ls : Listeners} {inbox : Nat}
    (h : ls.registered = [.collector inbox]) (d : Diagnostic) :
    ls.dispatch d = (.ok (), { ls with log := ls.log.deliver inbox d }) := by
  simp only [Listeners.dispatch, h, Listeners.deliverAll, Listener.collector]

/-- What is reported at the next character, once that has been read. -/
theorem diagnostic_eq (h : Stands g name src l s) {c : Char} {cs : List Char}
    (hp : s.Placed src (c :: cs)) {input : TextStream} (hm : Moved src 0 l.input 0 input)
    (hr : CharStream.index l.input < reach input) :
    l.diagnostic input s.current.tokenStart = s.current.diagnostic name c := by
  have hstop := hp.stop_eq
  have hindex := hm.index_look.trans h.index_eq
  rw [h.index_eq] at hr
  rw [OpenAttempt.stop] at hstop
  have hslice : CharStream.text input s.current.start (s.index + 1) =
      String.ofList (s.current.taken ++ [c]) := by
    rw [LawfulView.slice hm.shows (Nat.zero_le _) hr, hp.drop_eq]
    congr 1
    rw [List.take_append, List.take_of_length_le (by omega),
      show s.index + 1 - s.current.start - s.current.taken.length = 1 by omega]
    rfl
  simp only [LexerState.diagnostic, OpenAttempt.tokenStart, hindex, hslice, h.name_eq]
  rfl

/-- Where no rule wins the next character is reported and dropped. -/
theorem fire_unmatched (h : Stands g name src l s) {c : Char} {cs : List Char}
    (hp : s.Placed src (c :: cs)) (hd : s.Declared g)
    (hw : winner? (g.rulesOf s.mode) (c :: cs) = none) :
    ∃ l', l.fire s.current.tokenStart = (.skipped, l') ∧
      Stands g name src l' (s.past [c] s.mode s.stack none) ∧ l'.hitEof = cs.isEmpty ∧
      l'.listeners.log =
        l.listeners.log.deliver Tokenization.inbox (s.current.diagnostic name c) := by
  have hlt : CharStream.index l.input < src.length :=
    h.index_eq ▸ hp.index_lt (List.cons_ne_nil c cs)
  have hnone := (h.winner_eq hp).trans hw
  have hdispatch {input : TextStream} (hm : Moved src 0 l.input 0 input)
      (hr : CharStream.index l.input < reach input) :
      l.listeners.dispatch (l.diagnostic input s.current.tokenStart) =
        (.ok (), { l.listeners with
          log := l.listeners.log.deliver Tokenization.inbox (s.current.diagnostic name c) }) := by
    rw [diagnostic_eq h hp hm hr, dispatch_collector h.listening]
  rcases hfire : l.fire s.current.tokenStart with ⟨v, m⟩
  have hf := h.working.fired hfire
  have hwork := hf.working h.working
  cases hf with
  | ended hend => exact absurd hend (Nat.ne_of_lt hlt)
  | undeclared _ hmode =>
    rw [h.grammar_eq, h.mode_eq, Grammar.mode?, List.getElem?_eq_none_iff] at hmode
    exact absurd hd.mode_lt (Nat.not_lt_of_le hmode)
  | underflow hw' | won hw' =>
    rw [hw'] at hnone
    contradiction
  | refused _ hlook hread hrefused =>
    exact nomatch (Prod.mk.inj ((hdispatch hlook hread).symm.trans hrefused)).1
  | unmatched _ hlook hread hreported took context_eq hitEof_iff =>
    rw [hdispatch hlook hread] at hreported
    obtain ⟨-, hlisteners⟩ := Prod.mk.inj hreported
    have hm := h.past hp (Nat.le_add_left 1 cs.length) took hwork none
    rw [context_eq, h.mode_eq, h.stack_eq] at hm
    exact ⟨m, rfl, hm, hm.hitEof_eq hp.past_one hitEof_iff, by rw [← hlisteners]⟩

end ActiveLexer

end ModalLex

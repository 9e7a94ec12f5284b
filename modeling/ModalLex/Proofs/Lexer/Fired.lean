import ModalLex.Proofs.Grammar.Effects
import ModalLex.Proofs.Lexer.Firing

/-!
# What a firing can do

Over a stream that shows a text a firing has six ways to go. Each says which characters were
taken, what the context, the listeners and the flag for the end have become, and the verdict.
What a run of a rule lexer keeps is proved from these.
-/
namespace ModalLex

open TextView

/-- The current mode and the suspended ones, the most recent first. -/
def Context.modes (c : Context) : ModeId × List ModeId := (c.mode, c.modeStack.modes)

namespace ActiveLexer

variable {σ : Type} [CharStream σ] {src : List Char} {kept n k : Nat}
  {l l' m : ActiveLexer σ RuleEngine}

/-- `m` is `l` after `n` characters. The position has followed them, and what was set up for the
lexer is as it was. -/
structure Went (src : List Char) (l : ActiveLexer σ RuleEngine) (n : Nat)
    (m : ActiveLexer σ RuleEngine) : Prop where
  index_eq : CharStream.index m.input = CharStream.index l.input + n
  position_eq : m.engine.position =
    l.engine.position.advance ((src.drop (CharStream.index l.input)).take n)
  grammar_eq : m.engine.grammar = l.engine.grammar
  registered_eq : m.listeners.registered = l.listeners.registered
  factory_eq : m.factory = l.factory
  sourceName_eq : m.sourceName = l.sourceName

theorem Went.refl (l : ActiveLexer σ RuleEngine) : Went src l 0 l :=
  ⟨rfl, by simp, rfl, rfl, rfl, rfl⟩

theorem Went.trans (h : Went src l n l') (h' : Went src l' k m) : Went src l (n + k) m where
  index_eq := by rw [h'.index_eq, h.index_eq, Nat.add_assoc]
  position_eq := by
    rw [h'.position_eq, h.position_eq, h.index_eq, List.take_add, List.drop_drop,
      Position.advance_append]
  grammar_eq := h'.grammar_eq.trans h.grammar_eq
  registered_eq := h'.registered_eq.trans h.registered_eq
  factory_eq := h'.factory_eq.trans h.factory_eq
  sourceName_eq := h'.sourceName_eq.trans h.sourceName_eq

variable [LawfulView σ]

/-- A lexer inside a call. No action has supplied a token, and the flag for the end is up only
where the text ends. -/
structure Working (src : List Char) (kept : Nat) (l : ActiveLexer σ RuleEngine) : Prop where
  shows : Shows src kept l.input
  emitted_eq : l.context.emitted = none
  eof_imp : l.hitEof = true → CharStream.index l.input = src.length

/-- The lexer went over `n` characters and its stream is still pinned. -/
structure Took (src : List Char) (kept : Nat) (l : ActiveLexer σ RuleEngine) (n : Nat)
    (m : ActiveLexer σ RuleEngine) : Prop extends Went src l n m where
  shows : Shows src kept m.input

theorem Took.trans (h : Took src kept l n l') (h' : Took src kept l' k m) :
    Took src kept l (n + k) m :=
  ⟨h.toWent.trans h'.toWent, h'.shows⟩

/-- What the engine leaves behind when it steps over `n` characters. -/
theorem took_recognized {input : σ} {outcome : Except LexError MatchOutcome} {engine : RuleEngine}
    {context : Context} (hm : Moved src kept l.input n input)
    (hp : engine.position =
      l.engine.position.advance ((src.drop (CharStream.index l.input)).take n))
    (hg : engine.grammar = l.engine.grammar) :
    Took src kept l n (l.recognized ⟨outcome, engine, input, context⟩) :=
  ⟨⟨hm.index_eq, hp, hg, rfl, rfl, rfl⟩, hm.shows⟩

/-- What the engine leaves behind when it steps over nothing. -/
theorem took_recognized_none {input : σ} {outcome : Except LexError MatchOutcome}
    {context : Context} (start : Nat) (hm : Moved src kept l.input 0 input) :
    Took src kept l 0
      (l.recognized ⟨outcome, { l.engine with start }, input, context⟩) :=
  took_recognized hm (by simp) rfl

/-- What a firing, for the attempt that began at `start`, can come to. -/
inductive Fired (src : List Char) (kept : Nat) (start : TokenStart)
    (l : ActiveLexer σ RuleEngine) : Verdict → ActiveLexer σ RuleEngine → Prop
  /-- No characters are left; the engine answers with the end kind. -/
  | ended {m : ActiveLexer σ RuleEngine} (hend : CharStream.index l.input = src.length)
      (took : Took src kept l 0 m)
      (context_eq : m.context = { l.context with pending := .valid .eof })
      (hitEof_eq : m.hitEof = true) (listeners_eq : m.listeners = l.listeners) :
      Fired src kept start l (.matched .eof) m
  | undeclared {m : ActiveLexer σ RuleEngine} (hi : CharStream.index l.input < src.length)
      (hmode : l.engine.grammar.mode? l.context.mode = none)
      (took : Took src kept l 0 m) (context_eq : m.context = { l.context with pending := .invalid })
      (hitEof_eq : m.hitEof = l.hitEof) (listeners_eq : m.listeners = l.listeners) :
      Fired src kept start l (.failed (.illegalState (.unknownMode l.context.mode))) m
  /-- The actions of the winner pop a mode that was never pushed. -/
  | underflow {m : ActiveLexer σ RuleEngine} {r : Rule} {n : Nat}
      (hw : winner? (l.engine.grammar.rulesOf l.context.mode)
        (src.drop (CharStream.index l.input)) = some (r, n))
      (hm : Action.modesAfter? l.context.mode l.context.modeStack.modes r.actions = none)
      (took : Took src kept l n m)
      (context_eq : m.context =
        (Action.applyAll { l.context with pending := .invalid } r.actions).2)
      (hitEof_eq : m.hitEof = l.hitEof) (listeners_eq : m.listeners = l.listeners) :
      Fired src kept start l (.failed .emptyModeStack) m
  | won {m : ActiveLexer σ RuleEngine} {r : Rule} {n : Nat} {mode : ModeId} {stack : List ModeId}
      (hw : winner? (l.engine.grammar.rulesOf l.context.mode)
        (src.drop (CharStream.index l.input)) = some (r, n))
      (hm : Action.modesAfter? l.context.mode l.context.modeStack.modes r.actions =
        some (mode, stack))
      (took : Took src kept l n m)
      (context_eq : m.context =
        { Action.settled l.context r.actions mode stack with pending := r.decision.pending })
      (hitEof_iff : m.hitEof = true ↔ CharStream.index m.input = src.length)
      (listeners_eq : m.listeners = l.listeners) :
      Fired src kept start l (.ofPending r.decision.pending) m
  /-- No rule takes a character, and a listener refuses the report. -/
  | refused {m : ActiveLexer σ RuleEngine} {input : σ} {e : LexError}
      (hw : winner? (l.engine.grammar.rulesOf l.context.mode)
        (src.drop (CharStream.index l.input)) = none)
      (hlook : Moved src kept l.input 0 input)
      (hread : CharStream.index l.input < reach input)
      (hd : l.listeners.dispatch (l.diagnostic input start) = (.error e, m.listeners))
      (took : Took src kept l 0 m) (context_eq : m.context = { l.context with pending := .invalid })
      (hitEof_eq : m.hitEof = l.hitEof) : Fired src kept start l (.failed e) m
  /-- No rule takes a character; the next one is reported and dropped. -/
  | unmatched {m : ActiveLexer σ RuleEngine} {input : σ}
      (hw : winner? (l.engine.grammar.rulesOf l.context.mode)
        (src.drop (CharStream.index l.input)) = none)
      (hlook : Moved src kept l.input 0 input)
      (hread : CharStream.index l.input < reach input)
      (hd : l.listeners.dispatch (l.diagnostic input start) = (.ok (), m.listeners))
      (took : Took src kept l 1 m) (context_eq : m.context = { l.context with pending := .skip })
      (hitEof_iff : m.hitEof = true ↔ CharStream.index m.input = src.length) :
      Fired src kept start l .skipped m

theorem drop_ne_nil {i : Nat} (hi : i < src.length) : src.drop i ≠ [] := by
  rw [List.drop_eq_getElem_cons hi]
  exact List.cons_ne_nil _ _

theorem Working.index_le (h : Working src kept l) : CharStream.index l.input ≤ src.length :=
  Nat.le_trans (LawfulView.index_le h.shows) (LawfulView.reach_le h.shows)

/-- Settling looks at the next character, and so tells whether the text has ended. -/
theorem settle_took (h : Working src kept l) (asked : Pending) :
    ∃ m, l.settle asked = (.ofPending (l.context.pending.orElse asked), m) ∧
      Took src kept l 0 m ∧
      m.context = { l.context with pending := l.context.pending.orElse asked } ∧
      (m.hitEof = true ↔ CharStream.index m.input = src.length) ∧ m.listeners = l.listeners := by
  obtain ⟨input, hla, hm, -⟩ := LawfulView.look_next h.shows
  have hle := h.index_le
  have hi := hm.index_look
  rw [settle_eq l asked hla]
  refine ⟨l.noted input src[CharStream.index l.input]? (l.context.pending.orElse asked), ?_,
    ⟨⟨hi, by simp [noted], rfl, rfl, rfl, rfl⟩, hm.shows⟩, rfl, ?_, rfl⟩
  · cases l.context.pending.orElse asked with
    | valid kind =>
      simp only [conclude, noted, h.emitted_eq]
      rfl
    | _ => rfl
  · have hnext : src[CharStream.index l.input]?.isNone = true ↔
        CharStream.index l.input = src.length := by
      rw [Option.isNone_iff_eq_none, List.getElem?_eq_none_iff]
      omega
    simp only [noted, Bool.or_eq_true, hnext, hi]
    exact or_iff_right_of_imp h.eof_imp

theorem dispatch_registered {ls ls' : Listeners} {d : Diagnostic} {r : Except LexError Unit}
    (h : ls.dispatch d = (r, ls')) : ls'.registered = ls.registered := by
  obtain ⟨-, rfl⟩ := Prod.mk.inj h
  rfl

theorem giveUp_fired (h : Working src kept l) (start : TokenStart)
    (hi : CharStream.index l.input < src.length) (hp : l.context.pending = .invalid) :
    (∃ e ls, l.giveUp start = (.failed e, { l with listeners := ls }) ∧
        l.listeners.dispatch (l.diagnostic l.input start) = (.error e, ls)) ∨
      ∃ m, l.giveUp start = (.skipped, m) ∧
        l.listeners.dispatch (l.diagnostic l.input start) = (.ok (), m.listeners) ∧
        Took src kept l 1 m ∧ m.context = { l.context with pending := .skip } ∧
        (m.hitEof = true ↔ CharStream.index m.input = src.length) := by
  rcases hd : l.listeners.dispatch (l.diagnostic l.input start) with ⟨e | ⟨⟨⟩⟩, ls⟩
  · exact .inl ⟨e, ls, giveUp_refused l start hd, rfl⟩
  · right
    have hflag : l.hitEof = false := Bool.eq_false_iff.mpr fun ht => by
      have he := h.eof_imp ht
      omega
    obtain ⟨input, hrec, hmoved⟩ := recover_next (l := { l with listeners := ls }) h.shows hi
    have hone : (src.drop (CharStream.index l.input)).take 1 = [src[CharStream.index l.input]] := by
      rw [List.drop_eq_getElem_cons hi]
      rfl
    have hwork : Working src kept { l with
        engine := { l.engine with
          position := l.engine.position.after src[CharStream.index l.input] }
        listeners := ls, input } :=
      ⟨hmoved.shows, h.emitted_eq, fun ht => absurd (hflag.symm.trans ht) Bool.false_ne_true⟩
    have htook : Took src kept l 1 { l with
        engine := { l.engine with
          position := l.engine.position.after src[CharStream.index l.input] }
        listeners := ls, input } :=
      ⟨⟨hmoved.index_eq, by rw [hone]; rfl, rfl, dispatch_registered hd, rfl, rfl⟩, hmoved.shows⟩
    obtain ⟨m, hsettle, htook', hcontext, hflag', hlisteners⟩ := settle_took hwork .skip
    refine ⟨m, ?_, by rw [hlisteners], htook.trans htook', ?_, hflag'⟩
    · rw [giveUp_recovered l start hd hrec, hsettle]
      simp only [hp]
      rfl
    · rw [hcontext]
      simp only [hp]
      rfl

/-- A firing settles what the engine finds among the characters left. -/
theorem fire_finding (h : Working src kept l) (start : TokenStart) :
    let f := l.engine.find (CharStream.index l.input) (src.drop (CharStream.index l.input))
      l.context.mode { l.context with pending := .invalid }
    ∃ input, Moved src kept l.input f.taken input ∧
      (CharStream.index l.input < src.length → CharStream.index l.input < reach input) ∧
      l.fire start =
        match f.outcome with
        | .error e => (.failed e, l.recognized ⟨f.outcome, f.engine, input, f.context⟩)
        | .ok (.matched pending) =>
          (l.recognized ⟨f.outcome, f.engine, input, f.context⟩).settle pending
        | .ok (.noViable _ _) =>
          (l.recognized ⟨f.outcome, f.engine, input, f.context⟩).giveUp start := by
  obtain ⟨input, hmatch, hmoved, hread⟩ := RuleEngine.matchToken_eq h.shows l.engine
    l.context.mode { l.context with pending := .invalid }
  exact ⟨input, hmoved, hread, fire_eq l start hmatch⟩

theorem fired_end (h : Working src kept l) (start : TokenStart)
    (hend : CharStream.index l.input = src.length) :
    Fired src kept start l (l.fire start).1 (l.fire start).2 := by
  obtain ⟨input, hmoved, -, hf⟩ := fire_finding h start
  rw [hend, List.drop_length, RuleEngine.find_nil] at hmoved hf
  let found := l.recognized ⟨.ok (.matched (.valid .eof)), { l.engine with start := src.length },
    input, { l.context with pending := .invalid }⟩
  have htook : Took src kept l 0 found := took_recognized_none _ hmoved
  have hwork : Working src kept found :=
    ⟨hmoved.shows, h.emitted_eq, fun _ => hmoved.index_look.trans hend⟩
  obtain ⟨m, hsettle, htook', hcontext, hflag, hlisteners⟩ := settle_took hwork (.valid .eof)
  have htook := htook.trans htook'
  rw [Nat.zero_add] at htook
  rw [hf.trans hsettle]
  exact .ended hend htook hcontext (hflag.mpr (htook.index_eq.trans hend)) hlisteners

/-- A mode that the grammar does not have fails the firing. -/
theorem fire_undeclared (h : Working src kept l) (start : TokenStart)
    (hi : CharStream.index l.input < src.length)
    (hmode : l.engine.grammar.mode? l.context.mode = none) :
    ∃ m, l.fire start = (.failed (.illegalState (.unknownMode l.context.mode)), m) ∧
      Took src kept l 0 m ∧ m.context = { l.context with pending := .invalid } ∧
      m.hitEof = l.hitEof ∧ m.listeners = l.listeners := by
  obtain ⟨input, hmoved, -, hf⟩ := fire_finding h start
  rw [RuleEngine.find_unknown _ _ _ (drop_ne_nil hi) hmode] at hmoved hf
  exact ⟨_, hf, took_recognized_none _ hmoved, rfl, rfl, rfl⟩

theorem fired_unmatched (h : Working src kept l) (start : TokenStart)
    (hi : CharStream.index l.input < src.length) {md : Mode}
    (hmode : l.engine.grammar.mode? l.context.mode = some md)
    (hw : winner? md.rules (src.drop (CharStream.index l.input)) = none) :
    Fired src kept start l (l.fire start).1 (l.fire start).2 := by
  have hrules : l.engine.grammar.rulesOf l.context.mode = md.rules := by
    rw [Grammar.rulesOf, hmode]
  obtain ⟨input, hmoved, hread, hf⟩ := fire_finding h start
  rw [RuleEngine.find_noViable _ _ _ (drop_ne_nil hi) hmode hw] at hmoved hf
  rw [← hrules] at hw
  let found := l.recognized ⟨.ok (.noViable (CharStream.index l.input)
    (CharStream.index l.input)), { l.engine with start := CharStream.index l.input }, input,
    { l.context with pending := .invalid }⟩
  have hlook := hmoved.index_look
  have htook : Took src kept l 0 found := took_recognized_none _ hmoved
  have hwork : Working src kept found :=
    ⟨hmoved.shows, h.emitted_eq, fun ht => hlook.trans (h.eof_imp ht)⟩
  replace hf : l.fire start = found.giveUp start := hf
  rw [hf]
  rcases giveUp_fired hwork start (hlook ▸ hi) rfl with
    ⟨e, ls, hg, hd⟩ | ⟨m, hg, hd, htook', hcontext, hflag⟩
  · rw [hg]
    exact .refused hw hmoved (hread hi) hd
      ⟨⟨hlook, htook.position_eq, rfl, dispatch_registered hd, rfl, rfl⟩, hmoved.shows⟩ rfl rfl
  · have htook := htook.trans htook'
    rw [Nat.zero_add] at htook
    rw [hg]
    exact .unmatched hw hmoved (hread hi) hd htook hcontext hflag

theorem fired_winner (h : Working src kept l) (start : TokenStart)
    (hi : CharStream.index l.input < src.length) {md : Mode}
    (hmode : l.engine.grammar.mode? l.context.mode = some md) {r : Rule} {n : Nat}
    (hw : winner? md.rules (src.drop (CharStream.index l.input)) = some (r, n)) :
    Fired src kept start l (l.fire start).1 (l.fire start).2 := by
  have hrules : l.engine.grammar.rulesOf l.context.mode = md.rules := by
    rw [Grammar.rulesOf, hmode]
  obtain ⟨input, hmoved, -, hf⟩ := fire_finding h start
  rw [RuleEngine.find_winner _ _ _ (drop_ne_nil hi) hmode hw] at hmoved hf
  rw [← hrules] at hw
  cases hmodes : Action.modesAfter? l.context.mode l.context.modeStack.modes r.actions with
  | none =>
    have hu := Action.applyAll_underflow (c := { l.context with pending := .invalid }) hmodes
    simp only [hu] at hf
    rw [hf]
    exact .underflow hw hmodes (took_recognized hmoved rfl rfl) rfl rfl rfl
  | some modes =>
    obtain ⟨mode, stack⟩ := modes
    have hs := Action.applyAll_settled (c := { l.context with pending := .invalid }) hmodes
    rw [hs] at hf
    let found := l.recognized ⟨.ok (.matched (RuleEngine.asks r)),
      { l.engine with
        start := CharStream.index l.input
        position := l.engine.position.advance
          ((src.drop (CharStream.index l.input)).take n) }, input,
      Action.settled { l.context with pending := .invalid } r.actions mode stack⟩
    have htook : Took src kept l n found := took_recognized hmoved rfl rfl
    -- Where characters are left the flag for the end is not up.
    have hwork : Working src kept found :=
      ⟨hmoved.shows, h.emitted_eq, fun ht => absurd (h.eof_imp ht) (Nat.ne_of_lt hi)⟩
    obtain ⟨m, hsettle, htook', hcontext, hflag, hlisteners⟩ :=
      settle_took hwork (RuleEngine.asks r)
    have hasked : found.context.pending.orElse (RuleEngine.asks r) = r.decision.pending :=
      r.orElse_asks
    rw [hasked] at hsettle hcontext
    rw [hf.trans hsettle]
    exact .won hw hmodes (htook.trans htook') hcontext hflag hlisteners

/-- Every firing is one of the six. -/
theorem Working.fired (h : Working src kept l) {start : TokenStart} {v : Verdict}
    (hfire : l.fire start = (v, m)) : Fired src kept start l v m := by
  suffices hf : Fired src kept start l (l.fire start).1 (l.fire start).2 by rwa [hfire] at hf
  have hle := h.index_le
  rcases Nat.lt_or_eq_of_le hle with hi | hend
  · cases hmode : l.engine.grammar.mode? l.context.mode with
    | none =>
      obtain ⟨m, hf, htook, hcontext, hflag, hlisteners⟩ := fire_undeclared h start hi hmode
      rw [hf]
      exact .undeclared hi hmode htook hcontext hflag hlisteners
    | some md =>
      cases hw : winner? md.rules (src.drop (CharStream.index l.input)) with
      | none => exact fired_unmatched h start hi hmode hw
      | some w => exact fired_winner h start hi hmode hw
  · exact fired_end h start hend

/-- A firing that does not fail where characters are left is made in a mode of the grammar. -/
theorem Working.exists_mode (h : Working src kept l) {start : TokenStart} {v : Verdict}
    (hfire : l.fire start = (v, m)) (hv : ∀ e, v ≠ .failed e)
    (hi : CharStream.index l.input < src.length) :
    ∃ md, l.engine.grammar.mode? l.context.mode = some md := by
  cases hmode : l.engine.grammar.mode? l.context.mode with
  | some md => exact ⟨md, rfl⟩
  | none =>
    obtain ⟨_, hfailed, -⟩ := fire_undeclared h start hi hmode
    rw [hfire] at hfailed
    exact absurd (Prod.mk.inj hfailed).1 (hv _)

/-- A winner takes characters that are there. -/
theorem winner_bounds {rules : List Rule} {i : Nat} {r : Rule} {n : Nat}
    (hw : winner? rules (src.drop i) = some (r, n)) : 0 < n ∧ i + n ≤ src.length := by
  have hpos := (winner?_spec hw).2.2
  have hle := winner?_le hw
  rw [List.length_drop] at hle
  omega

theorem mode_of_winner {g : Grammar} {mode : ModeId} {rest : List Char} {w : Rule × Nat}
    (hw : winner? (g.rulesOf mode) rest = some w) : ∃ m, g.mode? mode = some m := by
  rw [Grammar.rulesOf] at hw
  cases hm : g.mode? mode with
  | none =>
    rw [hm] at hw
    contradiction
  | some m => exact ⟨m, rfl⟩

namespace Fired

variable {start : TokenStart} {v : Verdict}

theorem took (h : Fired src kept start l v m) : ∃ n, Took src kept l n m := by
  cases h with
  | ended hend htook => exact ⟨0, htook⟩
  | undeclared hi hmode htook => exact ⟨0, htook⟩
  | underflow hw hm htook => exact ⟨_, htook⟩
  | won hw hm htook => exact ⟨_, htook⟩
  | refused hw hlook hread hd htook => exact ⟨0, htook⟩
  | unmatched hw hlook hread hd htook => exact ⟨1, htook⟩

/-- Where the text has ended a firing matches the end. -/
theorem of_end (h : Fired src kept start l v m) (hend : CharStream.index l.input = src.length) :
    v = .matched .eof ∧ Took src kept l 0 m ∧
      m.context = { l.context with pending := .valid .eof } ∧ m.hitEof = true ∧
      m.listeners = l.listeners := by
  cases h with
  | ended _ took context_eq hitEof_eq listeners_eq =>
    exact ⟨rfl, took, context_eq, hitEof_eq, listeners_eq⟩
  | undeclared hi => exact absurd hend (Nat.ne_of_lt hi)
  | underflow hw | won hw =>
    have hb := winner_bounds hw
    omega
  | refused _ hlook hread | unmatched _ hlook hread =>
    have hr := LawfulView.reach_le hlook.shows
    omega

/-- Where a rule wins a firing comes to what its actions make of the modes. -/
theorem of_winner (h : Fired src kept start l v m)
    {r : Rule} {n : Nat}
    (hw : winner? (l.engine.grammar.rulesOf l.context.mode)
      (src.drop (CharStream.index l.input)) = some (r, n)) :
    Took src kept l n m ∧ m.listeners = l.listeners ∧
      match Action.modesAfter? l.context.mode l.context.modeStack.modes r.actions with
      | none =>
        v = .failed .emptyModeStack ∧
          m.context = (Action.applyAll { l.context with pending := .invalid } r.actions).2 ∧
          m.hitEof = l.hitEof
      | some (mode, stack) =>
        v = .ofPending r.decision.pending ∧
          m.context =
            { Action.settled l.context r.actions mode stack with pending := r.decision.pending } ∧
          (m.hitEof = true ↔ CharStream.index m.input = src.length) := by
  cases h with
  | ended hend =>
    have hb := winner_bounds hw
    omega
  | undeclared hi hmode =>
    obtain ⟨md, hdeclared⟩ := mode_of_winner hw
    rw [hmode] at hdeclared
    contradiction
  | underflow hw' hm took context_eq hitEof_eq listeners_eq =>
    obtain ⟨rfl, rfl⟩ := Prod.mk.inj (Option.some.inj (hw'.symm.trans hw))
    rw [hm]
    exact ⟨took, listeners_eq, rfl, context_eq, hitEof_eq⟩
  | won hw' hm took context_eq hitEof_iff listeners_eq =>
    obtain ⟨rfl, rfl⟩ := Prod.mk.inj (Option.some.inj (hw'.symm.trans hw))
    rw [hm]
    exact ⟨took, listeners_eq, rfl, context_eq, hitEof_iff⟩
  | refused hw' | unmatched hw' =>
    rw [hw'] at hw
    contradiction

/-- No action of a rule supplies a token. -/
theorem not_injected {token : Token} : ¬ Fired src kept start l (.injected token) m := by
  intro h
  generalize hv : Verdict.injected token = v at h
  cases h with
  | @won _ r => cases hd : r.decision <;> (rw [hd] at hv; contradiction)
  | _ => contradiction

theorem working (hl : Working src kept l) (h : Fired src kept start l v m) :
    Working src kept m := by
  have key {n : Nat} (htook : Took src kept l n m) (he : m.context.emitted = l.context.emitted)
      (hf : m.hitEof = true → CharStream.index m.input = src.length) : Working src kept m :=
    ⟨htook.shows, he.trans hl.emitted_eq, hf⟩
  have still (htook : Took src kept l 0 m) (hf : m.hitEof = l.hitEof) (ht : m.hitEof = true) :
      CharStream.index m.input = src.length :=
    htook.index_eq.trans (hl.eof_imp (hf ▸ ht))
  cases h with
  | ended hend htook hcontext =>
    exact key htook (by rw [hcontext]) fun _ => htook.index_eq.trans hend
  | undeclared hi hmode htook hcontext hflag =>
    exact key htook (by rw [hcontext]) (still htook hflag)
  | underflow hw hm htook hcontext hflag =>
    refine key htook (by rw [hcontext, Action.applyAll_emitted]) fun ht => ?_
    have hend := hl.eof_imp (hflag ▸ ht)
    have hb := winner_bounds hw
    omega
  | won hw hm htook hcontext hflag => exact key htook (by rw [hcontext]; rfl) hflag.mp
  | refused hw hlook hread hd htook hcontext hflag =>
    exact key htook (by rw [hcontext]) (still htook hflag)
  | unmatched hw hlook hread hd htook hcontext hflag =>
    exact key htook (by rw [hcontext]) hflag.mp

end Fired

end ActiveLexer

end ModalLex

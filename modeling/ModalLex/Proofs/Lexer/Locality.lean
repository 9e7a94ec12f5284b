import Mathlib.Data.List.Forall2
import ModalLex.Proofs.Lexer.Progress

/-!
# Lexing sees the unread text only

Two lexers for one grammar that are in the same modes, with the same text left to read, go on alike,
whatever they have read before and wherever they stand: they fire the same rules, fail alike, and
return and report the same, but for where it stands. The relation holds between two lexers inside a
call; each firing keeps it, so a call does, and so do any number of calls.
-/
namespace ModalLex

open TextView

/-- What the actions of an attempt have made of a context, apart from where the attempt began. -/
def Context.gathered (c : Context) : Context := { c with pending := .invalid, start := none }

theorem Context.eq_of_gathered {c c' : Context} (h : c'.gathered = c.gathered) :
    { c' with pending := .invalid } = { c with pending := .invalid, start := c'.start } := by
  cases c
  cases c'
  simp only [gathered, mk.injEq] at h ⊢
  simp [h]

theorem Context.modes_of_gathered {c c' : Context} (h : c'.gathered = c.gathered) :
    c'.modes = c.modes := by
  have hm : c'.gathered.modes = c.gathered.modes := by rw [h]
  exact hm

theorem Context.gathered_begin {c c' : Context} (h : c'.modes = c.modes) (start start' : TokenStart) :
    (c'.beginAttempt start').gathered = (c.beginAttempt start).gathered := by
  obtain ⟨hmode, hstack⟩ := Prod.mk.inj h
  have hs : c'.modeStack = c.modeStack := congrArg ModeStack.mk hstack
  rw [beginAttempt, beginAttempt, gathered, gathered, hmode, hs]

namespace Action

/-- No action looks at where the attempt began. -/
theorem apply_start (c : Context) (start : Option TokenStart) (a : Action) :
    apply { c with start } a = ((apply c a).1, { (apply c a).2 with start }) := by
  cases a with
  | popMode =>
    simp only [apply, Context.popMode]
    rcases c.modeStack.pop with ⟨_ | mode, stack⟩ <;> rfl
  | _ => rfl

theorem applyAll_start (c : Context) (start : Option TokenStart) (actions : List Action) :
    applyAll { c with start } actions =
      ((applyAll c actions).1, { (applyAll c actions).2 with start }) := by
  induction actions generalizing c with
  | nil => rfl
  | cons a rest ih =>
    rw [applyAll, apply_start, applyAll]
    rcases apply c a with ⟨e | _, c'⟩
    · rfl
    · exact ih c'

theorem applyAll_gathered {c c' : Context} (h : c'.gathered = c.gathered) (actions : List Action) :
    (applyAll { c' with pending := .invalid } actions).2.gathered =
      (applyAll { c with pending := .invalid } actions).2.gathered := by
  rw [Context.eq_of_gathered h]
  exact congrArg (fun r => r.2.gathered) (applyAll_start { c with pending := .invalid } _ actions)

theorem settled_gathered {c c' : Context} (h : c'.gathered = c.gathered) (actions : List Action)
    (mode : ModeId) (stack : List ModeId) (pending : Pending) :
    Context.gathered { settled c' actions mode stack with pending } =
      Context.gathered { settled c actions mode stack with pending } := by
  cases c
  cases c'
  simp only [Context.gathered, Context.mk.injEq] at h
  simp [Context.gathered, settled, h]

end Action

/-- Each of the listeners has received these diagnostics, and nothing else. -/
structure Listeners.Heard (ls ls' : Listeners) (ds : List Diagnostic) : Prop where
  registered_eq : ls'.registered = ls.registered
  entries_eq : ls'.log.entries.toList =
    ls.log.entries.toList ++ ds.flatMap fun d => ls.registered.map fun l => (l.inbox, d)

namespace Listeners

variable {ls ls' ls'' ks ks' ks'' : Listeners} {ds es : List Diagnostic} {d : Diagnostic}

theorem Heard.nothing (ls : Listeners) : ls.Heard ls [] :=
  ⟨rfl, (List.append_nil _).symm⟩

theorem Heard.trans (h : ls.Heard ls' ds) (h' : ls'.Heard ls'' es) : ls.Heard ls'' (ds ++ es) where
  registered_eq := h'.registered_eq.trans h.registered_eq
  entries_eq := by
    rw [h'.entries_eq, h.entries_eq, h.registered_eq, List.flatMap_append, List.append_assoc]

theorem deliverAll_entries {registered : List Listener} (d : Diagnostic)
    (h : ∀ l ∈ registered, ∀ log d, l.refuses log d = none) (log : Log) :
    (deliverAll d registered log).2.entries.toList =
      log.entries.toList ++ registered.map fun l => (l.inbox, d) := by
  induction registered generalizing log with
  | nil => exact (List.append_nil _).symm
  | cons l rest ih =>
    rw [deliverAll, h l List.mem_cons_self]
    dsimp only
    rw [ih (fun k hk => h k (List.mem_cons_of_mem _ hk)), Log.deliver, Array.toList_push,
      List.append_assoc]
    rfl

theorem Accepting.heard (h : ls.Accepting) {r : Except LexError Unit}
    (hd : ls.dispatch d = (r, ls')) : ls.Heard ls' [d] := by
  obtain ⟨-, rfl⟩ := Prod.mk.inj hd
  refine ⟨rfl, ?_⟩
  rw [List.flatMap_singleton]
  exact deliverAll_entries d h ls.log

/-- The listeners on both sides have heard the same messages. -/
def Echo (ls ls' ks ks' : Listeners) : Prop :=
  ∃ ds es, ls.Heard ls' ds ∧ ks.Heard ks' es ∧
    es.map Diagnostic.message = ds.map Diagnostic.message

theorem Echo.nothing (hl : ls' = ls) (hk : ks' = ks) : Echo ls ls' ks ks' := by
  subst hl hk
  exact ⟨[], [], .nothing _, .nothing _, rfl⟩

theorem Echo.trans (h : Echo ls ls' ks ks') (h' : Echo ls' ls'' ks' ks'') :
    Echo ls ls'' ks ks'' := by
  obtain ⟨ds, es, hl, hk, hm⟩ := h
  obtain ⟨ds', es', hl', hk', hm'⟩ := h'
  refine ⟨ds ++ ds', es ++ es', hl.trans hl', hk.trans hk', ?_⟩
  rw [List.map_append, List.map_append, hm, hm']

end Listeners

/-- The same token, `i` on one side being where `j` is on the other. -/
structure Token.Shifted (i j : Nat) (t t' : Token) : Prop where
  kind_eq : t'.kind = t.kind
  channel_eq : t'.channel = t.channel
  text_eq : t'.text = t.text
  start_eq : t'.span.start + i = t.span.start + j
  stop_eq : t'.span.stop + i = t.span.stop + j

/-- The same token or the same error. -/
def SameAnswer (i j : Nat) : Except LexError Token → Except LexError Token → Prop
  | .ok t, .ok t' => t.Shifted i j t'
  | .error e, .error e' => e' = e
  | .ok _, .error _ | .error _, .ok _ => False

theorem SameAnswer.rebase {i j i' j' : Nat} {x x' : Except LexError Token}
    (h : SameAnswer i j x x') (hij : j + i' = i + j') : SameAnswer i' j' x x' := by
  rcases x with e | t <;> rcases x' with e' | t'
  · exact h
  · exact h
  · exact h
  · have hstart := h.start_eq
    have hstop := h.stop_eq
    exact ⟨h.kind_eq, h.channel_eq, h.text_eq, by omega, by omega⟩

namespace ActiveLexer

section

variable {σ : Type} [CharStream σ] [LawfulView σ] {src : List Char} {kept : Nat}
  {start : TokenStart} {l m : ActiveLexer σ RuleEngine} {v : Verdict}

/-- Where no rule takes the next character it is reported to listeners that accept, and dropped. -/
theorem Fired.of_unmatched (h : Fired src kept start l v m) (haccept : l.listeners.Accepting)
    (hi : CharStream.index l.input < src.length) {md : Mode}
    (hmode : l.engine.grammar.mode? l.context.mode = some md)
    (hw : winner? (l.engine.grammar.rulesOf l.context.mode)
      (src.drop (CharStream.index l.input)) = none) :
    v = .skipped ∧ Took src kept l 1 m ∧ m.context = { l.context with pending := .skip } ∧
      (m.hitEof = true ↔ CharStream.index m.input = src.length) ∧
      ∃ input, Moved src kept l.input 0 input ∧ CharStream.index l.input < reach input ∧
        l.listeners.Heard m.listeners [l.diagnostic input start] := by
  cases h with
  | ended hend => exact absurd hend (Nat.ne_of_lt hi)
  | undeclared _ hnone =>
    rw [hnone] at hmode
    contradiction
  | underflow hw' | won hw' =>
    rw [hw] at hw'
    contradiction
  | refused _ _ _ hd => exact absurd (haccept.dispatch_ok hd) nofun
  | unmatched _ hlook hread hd took context_eq hitEof_iff =>
    exact ⟨rfl, took, context_eq, hitEof_iff, _, hlook, hread, haccept.heard hd⟩

end

variable {σ τ : Type} [CharStream σ] [LawfulView σ] [CharStream τ] [LawfulView τ]

/-- Inside a call: two lexers in the same modes that have gone over the same `gone` characters since
the call began, and have the same before them. -/
structure Akin (src src' : List Char) (kept kept' gone : Nat) (a : ActiveLexer σ RuleEngine)
    (b : ActiveLexer τ RuleEngine) : Prop where
  left : Working src kept a
  right : Working src' kept' b
  rest_eq : src'.drop kept' = src.drop kept
  left_index : CharStream.index a.input = kept + gone
  right_index : CharStream.index b.input = kept' + gone
  grammar_eq : b.engine.grammar = a.engine.grammar
  gathered_eq : b.context.gathered = a.context.gathered
  hitEof_eq : b.hitEof = a.hitEof
  left_common : a.factory = TokenFactory.common
  right_common : b.factory = TokenFactory.common
  left_accepting : a.listeners.Accepting
  right_accepting : b.listeners.Accepting

variable {src src' : List Char} {kept kept' gone k n : Nat} {a m : ActiveLexer σ RuleEngine}
  {b m' : ActiveLexer τ RuleEngine} {start start' : TokenStart} {v v' : Verdict}

namespace Akin

variable (h : Akin src src' kept kept' gone a b)

include h

theorem drop_eq (k : Nat) : src'.drop (kept' + k) = src.drop (kept + k) := by
  rw [← List.drop_drop, h.rest_eq, List.drop_drop]

theorem at_end : CharStream.index b.input = src'.length ↔ CharStream.index a.input = src.length := by
  have hl := congrArg List.length h.rest_eq
  have ha := h.left.index_le
  have hb := h.right.index_le
  rw [List.length_drop, List.length_drop] at hl
  rw [h.left_index] at ha ⊢
  rw [h.right_index] at hb ⊢
  omega

theorem left_drop : src.drop (CharStream.index a.input) = src.drop (kept + gone) := by
  rw [h.left_index]

theorem right_drop : src'.drop (CharStream.index b.input) = src.drop (kept + gone) := by
  rw [h.right_index, h.drop_eq]

/-- Both lexers went over as many characters, and made the same of their contexts. -/
theorem took (hm : Took src kept a n m) (hm' : Took src' kept' b n m') (hw : Working src kept m)
    (hw' : Working src' kept' m') (hg : m'.context.gathered = m.context.gathered)
    (he : m'.hitEof = m.hitEof) : Akin src src' kept kept' (gone + n) m m' where
  left := hw
  right := hw'
  rest_eq := h.rest_eq
  left_index := by rw [hm.index_eq, h.left_index, Nat.add_assoc]
  right_index := by rw [hm'.index_eq, h.right_index, Nat.add_assoc]
  grammar_eq := by rw [hm'.grammar_eq, hm.grammar_eq, h.grammar_eq]
  gathered_eq := hg
  hitEof_eq := he
  left_common := hm.factory_eq.trans h.left_common
  right_common := hm'.factory_eq.trans h.right_common
  left_accepting := by
    rw [Listeners.Accepting, hm.registered_eq]
    exact h.left_accepting
  right_accepting := by
    rw [Listeners.Accepting, hm'.registered_eq]
    exact h.right_accepting

/-- The flag for the end goes up on both sides or on neither. -/
theorem hitEof_of_took (hm : Took src kept a n m) (hm' : Took src' kept' b n m')
    (hw : Working src kept m) (hw' : Working src' kept' m')
    (hf : m.hitEof = true ↔ CharStream.index m.input = src.length)
    (hf' : m'.hitEof = true ↔ CharStream.index m'.input = src'.length) :
    m'.hitEof = m.hitEof := by
  have hl := congrArg List.length h.rest_eq
  have hi := hw.index_le
  have hi' := hw'.index_le
  rw [hm.index_eq, h.left_index] at hi hf
  rw [hm'.index_eq, h.right_index] at hi' hf'
  rw [List.length_drop, List.length_drop] at hl
  rw [Bool.eq_iff_iff, hf, hf']
  omega

theorem diagnostic_message (hs : start.index = kept + k) (hs' : start'.index = kept' + k)
    {input : σ} {input' : τ} (hm : Moved src kept a.input 0 input)
    (hr : CharStream.index a.input < reach input) (hm' : Moved src' kept' b.input 0 input')
    (hr' : CharStream.index b.input < reach input') :
    (b.diagnostic input' start').message = (a.diagnostic input start).message := by
  have ha : CharStream.index input = kept + gone := hm.index_look.trans h.left_index
  have hb : CharStream.index input' = kept' + gone := hm'.index_look.trans h.right_index
  rw [h.left_index] at hr
  rw [h.right_index] at hr'
  have htext : CharStream.text input' start'.index (CharStream.index input' + 1) =
      CharStream.text input start.index (CharStream.index input + 1) := by
    rw [ha, hb, hs, hs', LawfulView.slice hm.shows (Nat.le_add_right _ _) hr,
      LawfulView.slice hm'.shows (Nat.le_add_right _ _) hr', h.drop_eq]
    congr 2
    omega
  rw [LexerState.diagnostic, LexerState.diagnostic, htext]

end Akin

/-- Firings on both sides come to the same verdict, and leave lexers that are still akin. -/
structure InStep (src src' : List Char) (kept kept' : Nat) (a : ActiveLexer σ RuleEngine)
    (b : ActiveLexer τ RuleEngine) (v v' : Verdict) (m : ActiveLexer σ RuleEngine)
    (m' : ActiveLexer τ RuleEngine) : Prop where
  verdict_eq : v' = v
  akin : ∃ gone, Akin src src' kept kept' gone m m'
  echo : Listeners.Echo a.listeners m.listeners b.listeners m'.listeners

namespace Akin

variable (h : Akin src src' kept kept' gone a b)

include h

theorem mode_eq : b.context.mode = a.context.mode ∧
    b.context.modeStack.modes = a.context.modeStack.modes :=
  Prod.mk.inj (Context.modes_of_gathered h.gathered_eq)

theorem mode?_eq : b.engine.grammar.mode? b.context.mode =
    a.engine.grammar.mode? a.context.mode := by
  rw [h.grammar_eq, h.mode_eq.1]

theorem winner_eq : winner? (b.engine.grammar.rulesOf b.context.mode)
      (src'.drop (CharStream.index b.input)) =
    winner? (a.engine.grammar.rulesOf a.context.mode) (src.drop (CharStream.index a.input)) := by
  rw [h.grammar_eq, h.mode_eq.1, h.right_drop, h.left_drop]

theorem index_lt (hi : CharStream.index a.input < src.length) :
    CharStream.index b.input < src'.length :=
  Nat.lt_of_le_of_ne h.right.index_le fun he => Nat.ne_of_lt hi (h.at_end.mp he)

theorem fire_end (hf : Fired src kept start a v m) (hf' : Fired src' kept' start' b v' m')
    (hend : CharStream.index a.input = src.length) : InStep src src' kept kept' a b v v' m m' := by
  obtain ⟨rfl, ht, hc, he, hl⟩ := hf.of_end hend
  obtain ⟨rfl, ht', hc', he', hl'⟩ := hf'.of_end (h.at_end.mpr hend)
  have hg : m'.context.gathered = m.context.gathered := by
    rw [hc, hc']
    exact h.gathered_eq
  exact ⟨rfl, ⟨_, h.took ht ht' (hf.working h.left) (hf'.working h.right) hg (he'.trans he.symm)⟩,
    .nothing hl hl'⟩

theorem fire_undeclared (hfire : a.fire start = (v, m)) (hfire' : b.fire start' = (v', m'))
    (hi : CharStream.index a.input < src.length)
    (hmode : a.engine.grammar.mode? a.context.mode = none) :
    InStep src src' kept kept' a b v v' m m' := by
  obtain ⟨_, hfailed, ht, hc, he, hl⟩ := ActiveLexer.fire_undeclared h.left start hi hmode
  obtain ⟨_, hfailed', ht', hc', he', hl'⟩ :=
    ActiveLexer.fire_undeclared h.right start' (h.index_lt hi) (h.mode?_eq.trans hmode)
  obtain ⟨rfl, rfl⟩ := Prod.mk.inj (hfire.symm.trans hfailed)
  obtain ⟨rfl, rfl⟩ := Prod.mk.inj (hfire'.symm.trans hfailed')
  have hw := (h.left.fired hfire).working h.left
  have hw' := (h.right.fired hfire').working h.right
  have hg : m'.context.gathered = m.context.gathered := by
    rw [hc, hc']
    exact h.gathered_eq
  have hflag : m'.hitEof = m.hitEof := by rw [he, he', h.hitEof_eq]
  exact ⟨by rw [h.mode_eq.1], ⟨_, h.took ht ht' hw hw' hg hflag⟩, .nothing hl hl'⟩

theorem fire_unmatched (hs : start.index = kept + k) (hs' : start'.index = kept' + k)
    (hf : Fired src kept start a v m) (hf' : Fired src' kept' start' b v' m')
    (hi : CharStream.index a.input < src.length) {md : Mode}
    (hmode : a.engine.grammar.mode? a.context.mode = some md)
    (hwin : winner? (a.engine.grammar.rulesOf a.context.mode)
      (src.drop (CharStream.index a.input)) = none) : InStep src src' kept kept' a b v v' m m' := by
  obtain ⟨rfl, ht, hc, he, input, hm, hr, hl⟩ :=
    hf.of_unmatched h.left_accepting hi hmode hwin
  obtain ⟨rfl, ht', hc', he', input', hm', hr', hl'⟩ :=
    hf'.of_unmatched h.right_accepting (h.index_lt hi) (h.mode?_eq.trans hmode)
      (h.winner_eq.trans hwin)
  have hw := hf.working h.left
  have hw' := hf'.working h.right
  have hg : m'.context.gathered = m.context.gathered := by
    rw [hc, hc']
    exact h.gathered_eq
  have hmessage := h.diagnostic_message hs hs' hm hr hm' hr'
  exact ⟨rfl, ⟨_, h.took ht ht' hw hw' hg (h.hitEof_of_took ht ht' hw hw' he he')⟩,
    _, _, hl, hl', congrArg (fun message => [message]) hmessage⟩

theorem fire_winner (hf : Fired src kept start a v m) (hf' : Fired src' kept' start' b v' m')
    {r : Rule} {n : Nat} (hwin : winner? (a.engine.grammar.rulesOf a.context.mode)
      (src.drop (CharStream.index a.input)) = some (r, n)) :
    InStep src src' kept kept' a b v v' m m' := by
  obtain ⟨ht, hl, hv⟩ := hf.of_winner hwin
  obtain ⟨ht', hl', hv'⟩ := hf'.of_winner (h.winner_eq.trans hwin)
  have hw := hf.working h.left
  have hw' := hf'.working h.right
  rw [h.mode_eq.1, h.mode_eq.2] at hv'
  cases hm : Action.modesAfter? a.context.mode a.context.modeStack.modes r.actions with
  | none =>
    rw [hm] at hv hv'
    obtain ⟨rfl, hc, he⟩ := hv
    obtain ⟨rfl, hc', he'⟩ := hv'
    have hg : m'.context.gathered = m.context.gathered := by
      rw [hc, hc']
      exact Action.applyAll_gathered h.gathered_eq r.actions
    have hflag : m'.hitEof = m.hitEof := by rw [he, he', h.hitEof_eq]
    exact ⟨rfl, ⟨_, h.took ht ht' hw hw' hg hflag⟩, .nothing hl hl'⟩
  | some modes =>
    rw [hm] at hv hv'
    obtain ⟨rfl, hc, he⟩ := hv
    obtain ⟨rfl, hc', he'⟩ := hv'
    have hg : m'.context.gathered = m.context.gathered := by
      rw [hc, hc']
      exact Action.settled_gathered h.gathered_eq r.actions _ _ _
    exact ⟨rfl, ⟨_, h.took ht ht' hw hw' hg (h.hitEof_of_took ht ht' hw hw' he he')⟩,
      .nothing hl hl'⟩

/-- Firing keeps two lexers in step. -/
theorem fire (hs : start.index = kept + k) (hs' : start'.index = kept' + k)
    (hfire : a.fire start = (v, m)) (hfire' : b.fire start' = (v', m')) :
    InStep src src' kept kept' a b v v' m m' := by
  have hf := h.left.fired hfire
  have hf' := h.right.fired hfire'
  rcases Nat.lt_or_eq_of_le h.left.index_le with hi | hend
  · cases hmode : a.engine.grammar.mode? a.context.mode with
    | none => exact h.fire_undeclared hfire hfire' hi hmode
    | some md =>
      cases hwin : winner? (a.engine.grammar.rulesOf a.context.mode)
        (src.drop (CharStream.index a.input)) with
      | none => exact h.fire_unmatched hs hs' hf hf' hi hmode hwin
      | some w => exact h.fire_winner hf hf' hwin
  · exact h.fire_end hf hf' hend

/-- The tokens that the two attempts make are the same, but for where they stand. -/
theorem build (hs : start.index = kept + k) (hs' : start'.index = kept' + k) (kind : TokenKind) :
    (a.build kind start).Shifted kept kept' (b.build kind start') := by
  have hchannel : b.context.channel = a.context.channel :=
    (congrArg Context.channel h.gathered_eq : b.context.gathered.channel = _)
  have htext : b.context.text = a.context.text :=
    (congrArg Context.text h.gathered_eq : b.context.gathered.text = _)
  have hreach := LawfulView.index_le h.left.shows
  have hreach' := LawfulView.index_le h.right.shows
  have hslice : CharStream.text b.input start'.index (CharStream.index b.input) =
      CharStream.text a.input start.index (CharStream.index a.input) := by
    rw [hs, hs', LawfulView.slice h.left.shows (Nat.le_add_right _ _) hreach,
      LawfulView.slice h.right.shows (Nat.le_add_right _ _) hreach', h.drop_eq, h.left_index,
      h.right_index, Nat.add_sub_add_left, Nat.add_sub_add_left]
  have hlt : start'.index < CharStream.index b.input ↔ start.index < CharStream.index a.input := by
    rw [hs, hs', h.left_index, h.right_index]
    omega
  rw [ActiveLexer.build, ActiveLexer.build, h.left_common, h.right_common]
  refine ⟨rfl, hchannel, ?_, ?_, ?_⟩
  · simp only [TokenFactory.common, htext, hslice, hlt]
  · show start'.index + kept = start.index + kept'
    omega
  · show CharStream.index b.input + kept = CharStream.index a.input + kept'
    rw [h.left_index, h.right_index]
    omega

theorem record (token : Token) (token' : Token) :
    Akin src src' kept kept' gone (a.record token).2 (b.record token').2 :=
  { h with left := { h.left with }, right := { h.right with } }

/-- Between attempts nothing that was gathered is left. -/
theorem begin : Akin src src' kept kept' gone a.begin b.begin where
  left := .begin h.left.shows h.left.eof_imp
  right := .begin h.right.shows h.right.eof_imp
  rest_eq := h.rest_eq
  left_index := h.left_index
  right_index := h.right_index
  grammar_eq := h.grammar_eq
  gathered_eq := Context.gathered_begin (Context.modes_of_gathered h.gathered_eq) _ _
  hitEof_eq := h.hitEof_eq
  left_common := h.left_common
  right_common := h.right_common
  left_accepting := h.left_accepting
  right_accepting := h.right_accepting

end Akin

/-- What two runs come to that go on from akin lexers. -/
structure Concur (src src' : List Char) (kept kept' : Nat) (a : ActiveLexer σ RuleEngine)
    (b : ActiveLexer τ RuleEngine) (c : Except LexError Token × ActiveLexer σ RuleEngine)
    (c' : Except LexError Token × ActiveLexer τ RuleEngine) : Prop where
  answer : SameAnswer kept kept' c.1 c'.1
  akin : ∃ gone, Akin src src' kept kept' gone c.2 c'.2
  echo : Listeners.Echo a.listeners c.2.listeners b.listeners c'.2.listeners

omit [LawfulView σ] [LawfulView τ] in
/-- The end token stands at the index. -/
theorem emitEof_shifted {i j : Nat} (hf : a.factory = TokenFactory.common)
    (hf' : b.factory = TokenFactory.common)
    (hi : CharStream.index b.input + i = CharStream.index a.input + j) :
    SameAnswer i j a.emitEof.1 b.emitEof.1 := by
  rw [emitEof, emitEof, hf, hf']
  exact ⟨rfl, rfl, by simp [TokenFactory.common], hi, hi⟩

/-- By induction on one run: the other has a run of the same firings, and comes to the same. -/
theorem Runs.akin {firings : List (ActiveLexer σ RuleEngine)}
    {c : Except LexError Token × ActiveLexer σ RuleEngine} (hr : Runs start a firings c)
    (h : Akin src src' kept kept' gone a b) (hs : start.index = kept + k)
    (hs' : start'.index = kept' + k) :
    ∃ firings' c', Runs start' b firings' c' ∧ firings'.length = firings.length ∧
      Concur src src' kept kept' a b c c' := by
  induction hr generalizing b gone k start' with
  | failed hfire =>
    rcases hfire' : b.fire start' with ⟨v', m'⟩
    obtain ⟨rfl, hakin, hecho⟩ := h.fire hs hs' hfire hfire'
    exact ⟨[b], _, .failed hfire', rfl, rfl, hakin, hecho⟩
  | injected hfire => exact (h.left.fired hfire).not_injected.elim
  | matched hfire =>
    rcases hfire' : b.fire start' with ⟨v', m'⟩
    obtain ⟨rfl, ⟨gone, hakin⟩, hecho⟩ := h.fire hs hs' hfire hfire'
    exact ⟨[b], _, .matched hfire', rfl, hakin.build hs hs' _, ⟨gone, hakin.record _ _⟩, hecho⟩
  | more hfire hruns ih =>
    rcases hfire' : b.fire start' with ⟨v', m'⟩
    obtain ⟨rfl, ⟨gone, hakin⟩, hecho⟩ := h.fire hs hs' hfire hfire'
    obtain ⟨firings', c', hruns', hlen, hc⟩ := ih hakin hs hs'
    exact ⟨b :: firings', c', .more hfire' hruns', congrArg (· + 1) hlen, hc.answer, hc.akin,
      hecho.trans hc.echo⟩
  | ended hfire hflag =>
    rcases hfire' : b.fire start' with ⟨v', m'⟩
    obtain ⟨rfl, ⟨gone, hakin⟩, hecho⟩ := h.fire hs hs' hfire hfire'
    have hanswer := emitEof_shifted (i := kept) (j := kept') hakin.left_common hakin.right_common
      (by rw [hakin.left_index, hakin.right_index]; omega)
    exact ⟨[b], _, .ended hfire' (hakin.hitEof_eq.trans hflag), rfl, hanswer,
      ⟨gone, hakin.record _ _⟩, hecho⟩
  | onward hfire hflag hruns ih =>
    rcases hfire' : b.fire start' with ⟨v', m'⟩
    obtain ⟨rfl, ⟨gone, hakin⟩, hecho⟩ := h.fire hs hs' hfire hfire'
    have hhere : m'.here.index = kept' + gone := hakin.right_index
    obtain ⟨firings', c', hruns', hlen, hc⟩ := ih hakin.begin hakin.left_index hhere
    exact ⟨b :: firings', c', .onward hfire' (hakin.hitEof_eq.trans hflag) hruns',
      congrArg (· + 1) hlen, hc.answer, hc.akin, hecho.trans hc.echo⟩

end ActiveLexer

namespace ActiveLexer

variable {σ τ : Type} [CharStream σ] [RoamingView σ] [CharStream τ] [RoamingView τ]

/-- Between calls: two lexers in the same modes with the same text left to read, where one stands at
`i` when the other stands at `j`. -/
structure Abreast (src src' : List Char) (i j : Nat) (a : ActiveLexer σ RuleEngine)
    (b : ActiveLexer τ RuleEngine) : Prop where
  left : a.Idle src
  right : b.Idle src'
  rest_eq : src'.drop (CharStream.index b.input) = src.drop (CharStream.index a.input)
  index_eq : CharStream.index b.input + i = CharStream.index a.input + j
  grammar_eq : b.engine.grammar = a.engine.grammar
  modes_eq : b.context.modes = a.context.modes
  hitEof_eq : b.hitEof = a.hitEof
  left_common : a.factory = TokenFactory.common
  right_common : b.factory = TokenFactory.common
  left_accepting : a.listeners.Accepting
  right_accepting : b.listeners.Accepting

variable {src src' : List Char} {i j : Nat} {a : ActiveLexer σ RuleEngine}
  {b : ActiveLexer τ RuleEngine}

theorem Abreast.begun (h : Abreast src src' i j a b) :
    Akin src src' (CharStream.index a.input) (CharStream.index b.input) 0 a.pinned.begin
      b.pinned.begin where
  left := .begin h.left.pinned h.left.eof_pinned
  right := .begin h.right.pinned h.right.eof_pinned
  rest_eq := h.rest_eq
  left_index := h.left.index_pinned
  right_index := h.right.index_pinned
  grammar_eq := h.grammar_eq
  gathered_eq := Context.gathered_begin h.modes_eq _ _
  hitEof_eq := h.hitEof_eq
  left_common := h.left_common
  right_common := h.right_common
  left_accepting := h.left_accepting
  right_accepting := h.right_accepting

/-- What the two calls come to. -/
structure Together (i j : Nat) (a : ActiveLexer σ RuleEngine) (b : ActiveLexer τ RuleEngine)
    (c : Except LexError Token × ActiveLexer σ RuleEngine)
    (c' : Except LexError Token × ActiveLexer τ RuleEngine) : Prop where
  answer : SameAnswer i j c.1 c'.1
  went : ∃ gone, CharStream.index c.2.input = CharStream.index a.input + gone ∧
    CharStream.index c'.2.input = CharStream.index b.input + gone
  modes_eq : c'.2.context.modes = c.2.context.modes
  hitEof_eq : c'.2.hitEof = c.2.hitEof
  echo : Listeners.Echo a.listeners c.2.listeners b.listeners c'.2.listeners

theorem Abreast.length_eq (h : Abreast src src' i j a b) :
    src'.length - CharStream.index b.input = src.length - CharStream.index a.input := by
  have hl := congrArg List.length h.rest_eq
  rwa [List.length_drop, List.length_drop] at hl

theorem Abreast.search_ended (h : Abreast src src' i j a b) (hflag : a.hitEof = true) :
    Together i j a b a.pinned.search b.pinned.search := by
  have hi := h.left.index_pinned
  have hi' := h.right.index_pinned
  have ha : a.pinned.search = a.pinned.emitEof := if_pos hflag
  have hb : b.pinned.search = b.pinned.emitEof := if_pos (h.hitEof_eq.trans hflag)
  rw [ha, hb]
  refine ⟨?_, ⟨0, hi, hi'⟩, h.modes_eq, h.hitEof_eq, .nothing rfl rfl⟩
  exact emitEof_shifted h.left_common h.right_common (by rw [hi, hi']; exact h.index_eq)

theorem Abreast.search_begun (h : Abreast src src' i j a b) (hflag : a.hitEof = false) :
    Together i j a b a.pinned.search b.pinned.search := by
  obtain ⟨firings, hsearch, hlen⟩ := h.left.exists_searches
  generalize a.pinned.search = c at hsearch ⊢
  cases hsearch with
  | ended ht => exact absurd (ht.symm.trans hflag) nofun
  | begun _ hruns =>
    have hhere : a.pinned.here.index = CharStream.index a.input + 0 := h.left.index_pinned
    have hhere' : b.pinned.here.index = CharStream.index b.input + 0 := h.right.index_pinned
    obtain ⟨firings', c', hruns', hlen', hc⟩ := hruns.akin h.begun hhere hhere'
    have hsearch' : Searches b.pinned firings' c' := .begun (h.hitEof_eq.trans hflag) hruns'
    have hle : firings'.length ≤ b.pinned.patience := by
      have hl := h.length_eq
      rw [h.right.patience_pinned]
      omega
    rw [hsearch'.search_eq hle]
    obtain ⟨gone, hakin⟩ := hc.akin
    exact ⟨hc.answer.rebase h.index_eq, ⟨gone, hakin.left_index, hakin.right_index⟩,
      Context.modes_of_gathered hakin.gathered_eq, hakin.hitEof_eq, hc.echo⟩

/-- A call on either side answers the same, and leaves the two abreast. -/
theorem Abreast.nextToken (h : Abreast src src' i j a b) :
    SameAnswer i j a.nextToken.1 b.nextToken.1 ∧
      Abreast src src' i j a.nextToken.2 b.nextToken.2 ∧
      Listeners.Echo a.listeners a.nextToken.2.listeners b.listeners b.nextToken.2.listeners := by
  have ht : Together i j a b a.pinned.search b.pinned.search := by
    cases hflag : a.hitEof with
    | true => exact h.search_ended hflag
    | false => exact h.search_begun hflag
  obtain ⟨gone, hi, hi'⟩ := ht.went
  rw [← h.left.index_nextToken] at hi
  rw [← h.right.index_nextToken] at hi'
  obtain ⟨n, hw⟩ := h.left.nextToken.went
  obtain ⟨n', hw'⟩ := h.right.nextToken.went
  have hindex := h.index_eq
  refine ⟨ht.answer, ?_, ht.echo⟩
  exact {
    left := h.left.nextToken.idle
    right := h.right.nextToken.idle
    rest_eq := by rw [hi, hi', ← List.drop_drop, ← List.drop_drop, h.rest_eq]
    index_eq := by omega
    grammar_eq := by rw [hw.grammar_eq, hw'.grammar_eq, h.grammar_eq]
    modes_eq := ht.modes_eq
    hitEof_eq := ht.hitEof_eq
    left_common := hw.factory_eq.trans h.left_common
    right_common := hw'.factory_eq.trans h.right_common
    left_accepting := by
      rw [Listeners.Accepting, hw.registered_eq]
      exact h.left_accepting
    right_accepting := by
      rw [Listeners.Accepting, hw'.registered_eq]
      exact h.right_accepting }

end ActiveLexer

namespace Lexer

variable {σ τ : Type} [CharStream σ] [RoamingView σ] [CharStream τ] [RoamingView τ]

/-- What a caller compares of two calls: the answers, and what all listeners have heard since they
were `ls` and `ks`. -/
structure Alike (i j : Nat) (ls ks : Listeners) (c : Except LexError Token × Lexer σ RuleEngine)
    (c' : Except LexError Token × Lexer τ RuleEngine) : Prop where
  answer : SameAnswer i j c.1 c'.1
  echo : Listeners.Echo ls c.2.listeners ks c'.2.listeners

variable {src src' : List Char} {i j : Nat} {a : ActiveLexer σ RuleEngine}
  {b : ActiveLexer τ RuleEngine} {ls ks : Listeners}

theorem calls_abreast (h : a.Abreast src src' i j b)
    (hecho : Listeners.Echo ls a.listeners ks b.listeners) (n : Nat) :
    List.Forall₂ (Alike i j ls ks) (a.toLexer.calls n) (b.toLexer.calls n) := by
  induction n generalizing a b with
  | zero => exact .nil
  | succ n ih =>
    obtain ⟨hanswer, hnext, hheard⟩ := h.nextToken
    have hecho' := hecho.trans hheard
    exact .cons ⟨hanswer, hecho'⟩ (ih hnext hecho')

/-- Lexing is local. Take two lexers for one grammar, each left by some session at a place in its
text, whatever either has read and been asked before: if they are in the same modes and have the
same text left, the end not yet seen, then all calls to come answer alike. They return the same
kinds, channels and texts, at indices as far apart as the two lexers were, or the same errors, and
the listeners hear the same messages. -/
theorem calls_local {g : Grammar} {allowed allowed' : Request → Prop} {fits : σ → Prop}
    {fits' : τ → Prop} (ha : Reachable g allowed fits TokenFactory.common src a.toLexer)
    (hb : Reachable g allowed' fits' TokenFactory.common src' b.toLexer)
    (hrest : src'.drop (CharStream.index b.input) = src.drop (CharStream.index a.input))
    (hmodes : b.context.modes = a.context.modes) (heof : a.hitEof = false)
    (heof' : b.hitEof = false) (haccept : a.listeners.Accepting)
    (haccept' : b.listeners.Accepting) (n : Nat) :
    List.Forall₂
      (Alike (CharStream.index a.input) (CharStream.index b.input) a.listeners b.listeners)
      (a.toLexer.calls n) (b.toLexer.calls n) := by
  obtain ⟨hidle, hgrammar, hcommon⟩ := ha.idle.active
  obtain ⟨hidle', hgrammar', hcommon'⟩ := hb.idle.active
  have h : a.Abreast src src' (CharStream.index a.input) (CharStream.index b.input) b := {
    left := hidle
    right := hidle'
    rest_eq := hrest
    index_eq := Nat.add_comm _ _
    grammar_eq := hgrammar'.trans hgrammar.symm
    modes_eq := hmodes
    hitEof_eq := heof'.trans heof.symm
    left_common := hcommon
    right_common := hcommon'
    left_accepting := haccept
    right_accepting := haccept' }
  exact calls_abreast h (.nothing rfl rfl) n

/-- The lexer at the start of a text. -/
def hollowOn (source : String) : ActiveLexer TextStream RuleEngine :=
  { Lexer.detached (.ofGrammar hollow) TokenFactory.common with
    sourceName := "inline"
    input := TextStream.ofString source "inline" }

/-- The lexer after a token, with a channel and a text of its caller's. -/
def hollowLater : ActiveLexer TextStream RuleEngine :=
  let l := (hollowOn "a!bc").nextToken.2
  { l with context := (l.context.setChannel ⟨5⟩).setText "old" }

theorem calls_local_hollow :
    Reachable hollow (fun _ => True) (fun _ => True) TokenFactory.common "!bc".toList
        (hollowOn "!bc").toLexer ∧
      Reachable hollow (fun _ => True) (fun _ => True) TokenFactory.common "a!bc".toList
        hollowLater.toLexer ∧
      CharStream.index hollowLater.input = 1 ∧
      List.Forall₂ (Alike 0 1 (hollowOn "!bc").listeners hollowLater.listeners)
        ((hollowOn "!bc").toLexer.calls 4) (hollowLater.toLexer.calls 4) := by
  have ha : Reachable hollow (fun _ => True) (fun _ => True) TokenFactory.common "!bc".toList
      (hollowOn "!bc").toLexer := .ofInput (TextStream.rests_ofString "!bc" "inline") trivial
  have hb : Reachable hollow (fun _ => True) (fun _ => True) TokenFactory.common "a!bc".toList
      hollowLater.toLexer :=
    .request (r := .act (.text "old")) (.request (r := .act (.channel ⟨5⟩)) (.request (r := .next)
      (.ofInput (TextStream.rests_ofString "a!bc" "inline") trivial) trivial) trivial) trivial
  have hindex : CharStream.index hollowLater.input = 1 := by decide
  have hmodes : hollowLater.context.modes = (hollowOn "!bc").context.modes := by decide
  have heof : hollowLater.hitEof = false := by decide
  have haccept : (hollowOn "!bc").listeners.Accepting :=
    List.forall_mem_singleton.mpr fun _ _ => rfl
  have haccept' : hollowLater.listeners.Accepting :=
    List.forall_mem_singleton.mpr fun _ _ => rfl
  have h := calls_local ha hb (by rw [hindex]; rfl) hmodes rfl heof haccept haccept' 4
  rw [hindex] at h
  exact ⟨ha, hb, hindex, h⟩

end Lexer

end ModalLex

import ModalLex.Proofs.Tokenization.Places
import ModalLex.Proofs.Tokenization.Safety

/-!
# What a token is made of

An attempt that ends in a token is a chain of firings. All but the last of its rules ask for more,
and the last one decides on the kind; the last channel and the last text among the actions of the
whole chain count. Main statement: every token but the end token is made so, by a chain that begins
where an attempt of the call did. Of the attempts before it nothing counts but the modes they led
to.
-/
namespace ModalLex

open TextView

/-- A chain of firings on a text: each rule wins in the mode that those before it have led to, at
the index that they have reached, and is listed with the number of characters it took. -/
inductive Chain (g : Grammar) (src : List Char) : ModeId × List ModeId → Nat →
    List (Rule × Nat) → ModeId × List ModeId → Nat → Prop
  | nil (modes : ModeId × List ModeId) (index : Nat) : Chain g src modes index [] modes index
  | cons {modes modes' modes'' : ModeId × List ModeId} {index stop n : Nat} {r : Rule}
      {rest : List (Rule × Nat)}
      (hw : winner? (g.rulesOf modes.1) (src.drop index) = some (r, n))
      (hm : Action.modesAfter? modes.1 modes.2 r.actions = some modes')
      (h : Chain g src modes' (index + n) rest modes'' stop) :
      Chain g src modes index ((r, n) :: rest) modes'' stop

namespace Chain

variable {g : Grammar} {src : List Char} {modes modes' modes'' : ModeId × List ModeId}
  {index stop stop' n : Nat} {firings before before' : List (Rule × Nat)} {r : Rule}
  {last last' : Rule × Nat}

theorem snoc (h : Chain g src modes index firings modes' stop)
    (hw : winner? (g.rulesOf modes'.1) (src.drop stop) = some (r, n))
    (hm : Action.modesAfter? modes'.1 modes'.2 r.actions = some modes'') :
    Chain g src modes index (firings ++ [(r, n)]) modes'' (stop + n) := by
  induction h with
  | nil => exact .cons hw hm (.nil _ _)
  | cons hw' hm' _ ih => exact .cons hw' hm' (ih hw hm)

/-- The firings of a chain follow one another without a gap. -/
theorem stop_eq (h : Chain g src modes index firings modes' stop) :
    stop = index + (firings.map Prod.snd).sum := by
  induction h with
  | nil => rfl
  | cons _ _ _ ih => rw [ih, List.map_cons, List.sum_cons, Nat.add_assoc]

theorem stop_le (h : Chain g src modes index firings modes' stop) (hi : index ≤ src.length) :
    stop ≤ src.length := by
  induction h with
  | nil => exact hi
  | cons hw _ _ ih => exact ih (ActiveLexer.winner_bounds hw).2

theorem start_lt (h : Chain g src modes index (before ++ [last]) modes' stop) : index < stop := by
  generalize hf : before ++ [last] = firings at h
  cases h with
  | nil => simp at hf
  | cons hw _ h =>
    have hpos := (ActiveLexer.winner_bounds hw).1
    have hstop := h.stop_eq
    omega

/-- Two chains that begin alike begin with the same firing, and go on alike after it. -/
theorem head {f f' : Rule × Nat} {rest rest' : List (Rule × Nat)}
    (h : Chain g src modes index (f :: rest) modes' stop)
    (h' : Chain g src modes index (f' :: rest') modes'' stop') :
    f' = f ∧ ∃ next, Chain g src next (index + f.2) rest modes' stop ∧
      Chain g src next (index + f.2) rest' modes'' stop' := by
  cases h with
  | cons hw hm h =>
    cases h' with
    | cons hw' hm' h' =>
      obtain ⟨rfl, rfl⟩ := Prod.mk.inj (Option.some.inj (hw.symm.trans hw'))
      obtain rfl := Option.some.inj (hm.symm.trans hm')
      exact ⟨rfl, _, h, h'⟩

/-- Where a chain begins, in which modes, decides it up to the first rule that asks for no more. -/
theorem unique (h : Chain g src modes index (before ++ [last]) modes' stop)
    (h' : Chain g src modes index (before' ++ [last']) modes'' stop')
    (hmore : ∀ f ∈ before, Action.last? Action.decision? f.1.actions = some .more)
    (hlast : Action.last? Action.decision? last.1.actions ≠ some .more)
    (hmore' : ∀ f ∈ before', Action.last? Action.decision? f.1.actions = some .more)
    (hlast' : Action.last? Action.decision? last'.1.actions ≠ some .more) :
    before' = before ∧ last' = last := by
  induction before generalizing before' modes index with
  | nil =>
    cases before' with
    | nil => exact ⟨rfl, (head h h').1⟩
    | cons f before' =>
      obtain ⟨rfl, -⟩ := head h h'
      exact absurd (hmore' _ List.mem_cons_self) hlast
  | cons f before ih =>
    cases before' with
    | nil =>
      obtain ⟨rfl, -⟩ := head h h'
      exact absurd (hmore _ List.mem_cons_self) hlast'
    | cons f' before' =>
      obtain ⟨rfl, next, hrest, hrest'⟩ := head h h'
      obtain ⟨rfl, hlast⟩ := ih hrest hrest' (fun f hf => hmore f (List.mem_cons_of_mem _ hf))
        (fun f hf => hmore' f (List.mem_cons_of_mem _ hf))
      exact ⟨rfl, hlast⟩

end Chain

namespace Rule

theorem decision_more {r : Rule} (h : r.decision = .more) :
    Action.last? Action.decision? r.actions = some .more := by
  rw [decision] at h
  cases hd : Action.last? Action.decision? r.actions with
  | some d =>
    rw [hd] at h
    exact congrArg some h
  | none =>
    rw [hd] at h
    cases hk : r.kind <;> (rw [hk] at h; contradiction)

theorem decision_token {r : Rule} {kind : TokenKind} (h : r.decision = .token kind) :
    Action.last? Action.decision? r.actions = some (.token kind) ∨
      Action.last? Action.decision? r.actions = none ∧ r.kind = some kind := by
  rw [decision] at h
  cases hd : Action.last? Action.decision? r.actions with
  | some d =>
    rw [hd] at h
    exact .inl (congrArg some h)
  | none =>
    rw [hd] at h
    cases hk : r.kind with
    | none =>
      rw [hk] at h
      contradiction
    | some k =>
      rw [hk] at h
      exact .inr ⟨rfl, congrArg some (Decision.token.inj h)⟩

end Rule

/-- The actions of the rules of a chain, in the order in which they run. -/
def chainActions (firings : List (Rule × Nat)) : List Action := firings.flatMap fun f => f.1.actions

theorem chainActions_snoc (firings : List (Rule × Nat)) (f : Rule × Nat) :
    chainActions (firings ++ [f]) = chainActions firings ++ f.1.actions := by
  rw [chainActions, List.flatMap_append, List.flatMap_singleton]
  rfl

/-- The token of an attempt that begins at `start` in the modes `modes`: the rules of `before` ask
for more, `last` decides on the kind, and the modes are `modes'` in the end. -/
structure Token.MadeOf (g : Grammar) (src : List Char) (sourceName : String)
    (modes : ModeId × List ModeId) (start : TokenStart) (before : List (Rule × Nat))
    (last : Rule × Nat) (modes' : ModeId × List ModeId) (token : Token) : Prop where
  chain : Chain g src modes start.index (before ++ [last]) modes' token.span.stop
  more : ∀ f ∈ before, Action.last? Action.decision? f.1.actions = some .more
  kind : Action.last? Action.decision? last.1.actions = some (.token token.kind) ∨
    Action.last? Action.decision? last.1.actions = none ∧ last.1.kind = some token.kind
  channel_eq : token.channel =
    (Action.last? Action.channel? (chainActions (before ++ [last]))).getD .default
  text_eq : token.text = (Action.last? Action.text? (chainActions (before ++ [last]))).getD
    (String.ofList ((src.drop start.index).take (token.span.stop - start.index)))
  span_eq : token.span = ⟨start.index, token.span.stop, start.line, start.column⟩
  stop_eq : token.span.stop = start.index + ((before ++ [last]).map Prod.snd).sum
  start_lt : start.index < token.span.stop
  stop_le : token.span.stop ≤ src.length
  sourceName_eq : token.sourceName = sourceName
  /-- No other chain from there ends in a rule that asks for no more. -/
  only : ∀ before' last' modes'' stop',
    Chain g src modes start.index (before' ++ [last']) modes'' stop' →
    (∀ f ∈ before', Action.last? Action.decision? f.1.actions = some .more) →
    Action.last? Action.decision? last'.1.actions ≠ some .more → before' = before ∧ last' = last

namespace ActiveLexer

section

variable {σ : Type} [CharStream σ]

/-- The rules that have fired, since an attempt began at `start` in the modes `modes`, have led to
`l`, and what is gathered there is what their actions say. -/
structure Gathered (g : Grammar) (src : List Char) (modes : ModeId × List ModeId)
    (start : TokenStart) (firings : List (Rule × Nat)) (l : ActiveLexer σ RuleEngine) : Prop where
  chain : Chain g src modes start.index firings l.context.modes (CharStream.index l.input)
  channel_eq : l.context.channel =
    (Action.last? Action.channel? (chainActions firings)).getD .default
  text_eq : l.context.text = Action.last? Action.text? (chainActions firings)
  grammar_eq : l.engine.grammar = g

/-- The attempt is under way: the rules that have fired, from the lexers of `current`, all asked for
more. -/
structure Chained (g : Grammar) (src : List Char) (modes : ModeId × List ModeId)
    (start : TokenStart) (current : List (ActiveLexer σ RuleEngine)) (firings : List (Rule × Nat))
    (l : ActiveLexer σ RuleEngine) : Prop extends Gathered g src modes start firings l where
  picked_eq : picked current = firings.map Prod.fst
  more : ∀ f ∈ firings, Action.last? Action.decision? f.1.actions = some .more

/-- In the call `a` an attempt begins at `start`, in the modes that the rules which fired before
it have led to. -/
structure Begins (src : List Char) (a : ActiveLexer σ RuleEngine)
    (earlier : List (ActiveLexer σ RuleEngine)) (start : TokenStart)
    (modes : ModeId × List ModeId) : Prop where
  replay_eq : Action.replay a.context.modes (picked earlier) = some modes
  index_le : CharStream.index a.input ≤ start.index
  position_eq : start.position = a.engine.position.advance
    ((src.drop (CharStream.index a.input)).take (start.index - CharStream.index a.input))

/-- The call `a` has come to `l`, after firings from the lexers of `earlier`. -/
structure Comes (src : List Char) (a : ActiveLexer σ RuleEngine)
    (earlier : List (ActiveLexer σ RuleEngine)) (l : ActiveLexer σ RuleEngine) : Prop where
  replay_eq : Action.replay a.context.modes (picked earlier) = some l.context.modes
  went : ∃ n, Went src a n l

/-- The call `a` ends in a token of a kind. Its last attempt began at `start`, fired from the lexers
of `current`, which all asked for more, and ends with a firing from `l` that leaves `m`. -/
structure Concludes [LawfulView σ] (g : Grammar) (src : List Char) (kept : Nat)
    (a : ActiveLexer σ RuleEngine) (earlier current : List (ActiveLexer σ RuleEngine))
    (start : TokenStart) (modes : ModeId × List ModeId) (before : List (Rule × Nat))
    (l m : ActiveLexer σ RuleEngine) (kind : TokenKind) : Prop where
  begins : Begins src a earlier start modes
  chained : Chained g src modes start current before l
  comes : Comes src a (earlier ++ current) l
  working : Working src kept l
  fire_eq : l.fire start = (.matched kind, m)
  kind_ne : kind ≠ .eof

/-- Of the lexers that the call `a` is fired from, the last ones are those of the attempt that made
the token. -/
def Makes (g : Grammar) (src : List Char) (a : ActiveLexer σ RuleEngine)
    (firings : List (ActiveLexer σ RuleEngine)) (modes' : ModeId × List ModeId)
    (token : Token) : Prop :=
  ∃ earlier current start modes before last, firings = earlier ++ current ∧
    picked current = (before ++ [last]).map Prod.fst ∧ Begins src a earlier start modes ∧
    token.MadeOf g src a.sourceName modes start before last modes'

variable {g : Grammar} {src : List Char} {modes : ModeId × List ModeId} {start : TokenStart}
  {earlier current : List (ActiveLexer σ RuleEngine)} {before : List (Rule × Nat)}
  {a l m : ActiveLexer σ RuleEngine} {token : Token}

theorem Comes.refl (a : ActiveLexer σ RuleEngine) : Comes src a [] a :=
  ⟨rfl, 0, .refl a⟩

/-- An attempt begins where the call has come to. -/
theorem Comes.begins (h : Comes src a earlier l) :
    Begins src a earlier l.here l.context.modes := by
  obtain ⟨hreplay, n, hwent⟩ := h
  have hi : l.here.index = CharStream.index a.input + n := hwent.index_eq
  refine ⟨hreplay, by omega, ?_⟩
  rw [hi, Nat.add_sub_cancel_left]
  exact hwent.position_eq

theorem Comes.begin (h : Comes src a earlier l) : Comes src a earlier l.begin := by
  obtain ⟨hreplay, n, hwent⟩ := h
  exact ⟨hreplay, n, { hwent with }⟩

theorem chained_begin (hg : l.engine.grammar = g) :
    Chained g src l.context.modes l.here [] [] l.begin where
  chain := .nil _ _
  channel_eq := rfl
  text_eq := rfl
  grammar_eq := hg
  picked_eq := rfl
  more := List.forall_mem_nil _

variable [LawfulView σ] {kept n : Nat} {v : Verdict} {r : Rule} {mode : ModeId}
  {stack : List ModeId}

/-- A firing that does not fail leads on in the call. -/
theorem Comes.fired (hc : Comes src a earlier l) (h : Working src kept l)
    (hf : Fired src kept start l v m) (hv : ∀ e, v ≠ .failed e) :
    Comes src a (earlier ++ [l]) m := by
  obtain ⟨hreplay, n, hwent⟩ := hc
  obtain ⟨k, htook⟩ := hf.took
  refine ⟨?_, n + k, hwent.trans htook.toWent⟩
  rw [picked, List.filterMap_append, Action.replay_append]
  change (Action.replay _ (picked earlier)).bind (Action.replay · (picked [l])) = _
  rw [hreplay, picked_singleton]
  exact h.replays hf hv

/-- Another rule wins. -/
theorem Gathered.won (h : Gathered g src modes start before l)
    (hw : winner? (l.engine.grammar.rulesOf l.context.mode)
      (src.drop (CharStream.index l.input)) = some (r, n))
    (hm : Action.modesAfter? l.context.mode l.context.modeStack.modes r.actions =
      some (mode, stack))
    (ht : Took src kept l n m)
    (hc : m.context =
      { Action.settled l.context r.actions mode stack with pending := r.decision.pending }) :
    Gathered g src modes start (before ++ [(r, n)]) m where
  chain := by
    rw [h.grammar_eq] at hw
    have hmodes : m.context.modes = (mode, stack) := by rw [hc]; rfl
    rw [ht.index_eq, hmodes]
    exact h.chain.snoc hw hm
  channel_eq := by
    rw [chainActions_snoc, Action.last?_append, Option.getD_or, ← h.channel_eq, hc]
    rfl
  text_eq := by
    rw [chainActions_snoc, Action.last?_append, ← h.text_eq, hc]
    rfl
  grammar_eq := ht.grammar_eq.trans h.grammar_eq

theorem Chained.picked_won (h : Chained g src modes start current before l)
    (hl : Working src kept l)
    (hw : winner? (l.engine.grammar.rulesOf l.context.mode)
      (src.drop (CharStream.index l.input)) = some (r, n)) :
    picked (current ++ [l]) = (before ++ [(r, n)]).map Prod.fst := by
  have hone : picked [l] = [r] := by
    rw [picked_singleton, hl.pick_eq, hw]
    rfl
  rw [picked, List.filterMap_append, List.map_append]
  exact congrArg₂ (· ++ ·) h.picked_eq hone

/-- A rule that asks for more continues the chain. -/
theorem Chained.more_won (h : Chained g src modes start current before l)
    (hl : Working src kept l) (hf : Fired src kept start l .more m) :
    ∃ f, Chained g src modes start (current ++ [l]) (before ++ [f]) m := by
  generalize hv : Verdict.more = v at hf
  cases hf with
  | @won _ r n mode stack hw hm ht hc =>
    have hd : r.decision = .more := by
      cases hd : r.decision with
      | more => rfl
      | token | skip =>
        rw [hd] at hv
        contradiction
    refine ⟨(r, n), { h.toGathered.won hw hm ht hc with
      picked_eq := h.picked_won hl hw, more := ?_ }⟩
    rw [List.forall_mem_append]
    exact ⟨h.more, List.forall_mem_singleton.mpr (Rule.decision_more hd)⟩
  | ended | undeclared | underflow | refused | unmatched => contradiction

/-- A rule that decides on a kind ends the chain. -/
theorem Chained.token_won (h : Chained g src modes start current before l)
    (hl : Working src kept l) {kind : TokenKind} (hf : Fired src kept start l (.matched kind) m)
    (hkind : kind ≠ .eof) :
    ∃ last, Gathered g src modes start (before ++ [last]) m ∧
      picked (current ++ [l]) = (before ++ [last]).map Prod.fst ∧
      last.1.decision = .token kind := by
  generalize hv : Verdict.matched kind = v at hf
  cases hf with
  | ended => exact absurd (Verdict.matched.inj hv) hkind
  | @won _ r n mode stack hw hm ht hc =>
    refine ⟨(r, n), h.toGathered.won hw hm ht hc, h.picked_won hl hw, ?_⟩
    cases hd : r.decision with
    | token k =>
      rw [hd] at hv
      rw [Verdict.matched.inj hv]
    | more | skip =>
      rw [hd] at hv
      contradiction
  | undeclared | underflow | refused | unmatched => contradiction

/-- The token that the common factory builds of what was gathered. -/
theorem Gathered.madeOf {last : Rule × Nat} {kind : TokenKind}
    (h : Gathered g src modes start (before ++ [last]) m)
    (hmore : ∀ f ∈ before, Action.last? Action.decision? f.1.actions = some .more)
    (hd : last.1.decision = .token kind) (hshows : Shows src kept m.input)
    (hk : kept ≤ start.index) (hfactory : m.factory = TokenFactory.common) :
    (m.build kind start).MadeOf g src m.sourceName modes start before last m.context.modes := by
  have hreach := LawfulView.index_le hshows
  have hle := Nat.le_trans hreach (LawfulView.reach_le hshows)
  have hlt := h.chain.start_lt
  have hkind := Rule.decision_token hd
  have hlast : Action.last? Action.decision? last.1.actions ≠ some .more := by
    rcases hkind with hk | hk
    · rw [hk]
      exact fun he => nomatch Option.some.inj he
    · rw [hk.1]
      exact nofun
  have htext : (m.build kind start).text =
      m.context.text.getD (CharStream.text m.input start.index (CharStream.index m.input)) := by
    rw [build, hfactory]
    simp only [TokenFactory.common]
    cases m.context.text with
    | some text => rfl
    | none => exact if_pos hlt
  have hslice := LawfulView.slice hshows hk hreach
  have hspan : (m.build kind start).span =
      ⟨start.index, CharStream.index m.input, start.line, start.column⟩ := by
    rw [build, hfactory]
    rfl
  have hstop : (m.build kind start).span.stop = CharStream.index m.input := by rw [hspan]
  constructor
  case chain =>
    rw [hstop]
    exact h.chain
  case more => exact hmore
  case kind =>
    rw [build, hfactory]
    exact hkind
  case channel_eq =>
    rw [build, hfactory]
    exact h.channel_eq
  case text_eq => rw [htext, hslice, h.text_eq, hstop]
  case span_eq =>
    rw [hstop]
    exact hspan
  case stop_eq =>
    rw [hstop]
    exact h.chain.stop_eq
  case start_lt =>
    rw [hstop]
    exact hlt
  case stop_le =>
    rw [hstop]
    exact hle
  case sourceName_eq =>
    rw [build, hfactory]
    rfl
  case only =>
    intro before' last' modes'' stop' hchain hmore' hlast'
    exact h.chain.unique hchain hmore hlast hmore' hlast'

/-- A run that ends in a token other than the end token builds it of its last attempt. -/
theorem Runs.concludes {firings : List (ActiveLexer σ RuleEngine)}
    {c : Except LexError Token × ActiveLexer σ RuleEngine} (hr : Runs start l firings c)
    (h : Working src kept l) (hfactory : a.factory = TokenFactory.common)
    (hbegins : Begins src a earlier start modes)
    (hchained : Chained g src modes start current before l)
    (hcomes : Comes src a (earlier ++ current) l) (hc : c.1 = .ok token)
    (he : token.isEof = false) :
    ∃ earlier' current' start' modes' before' l' m kind,
      earlier ++ current ++ firings = earlier' ++ (current' ++ [l']) ∧
      Concludes g src kept a earlier' current' start' modes' before' l' m kind ∧
      c = m.record (m.build kind start') := by
  induction hr generalizing earlier current before modes with
  | failed => contradiction
  | injected hfire => exact absurd (h.fired hfire) Fired.not_injected
  | @matched start l m kind hfire =>
    obtain ⟨n, hwent⟩ := (hcomes.fired h (h.fired hfire) (by simp)).went
    obtain rfl : m.build kind start = token := Except.ok.inj hc
    have hkind : kind ≠ .eof := by
      rw [Token.isEof, build_kind (hwent.factory_eq.trans hfactory)] at he
      simpa using he
    exact ⟨earlier, current, start, modes, before, l, m, kind, List.append_assoc _ _ _,
      ⟨hbegins, hchained, hcomes, h, hfire, hkind⟩, rfl⟩
  | more hfire hruns ih =>
    have hf := h.fired hfire
    obtain ⟨f, hnext⟩ := hchained.more_won h hf
    have hcomes' := hcomes.fired h hf (by simp)
    rw [List.append_assoc] at hcomes'
    have hconcludes := ih (hf.working h) hbegins hnext hcomes' hc
    simpa using hconcludes
  | @ended start l m hfire hend =>
    have hf := h.fired hfire
    obtain ⟨n, hwent⟩ := (hcomes.fired h hf (by simp)).went
    have heof := emitEof_isEof (hwent.factory_eq.trans hfactory) hc
    exact absurd (he.symm.trans heof) Bool.false_ne_true
  | @onward start l m firings c hfire hflag hruns ih =>
    -- The attempt was dropped; what counts of it from now on is where it has led.
    have hf := h.fired hfire
    have hm := hf.working h
    have hnext := hcomes.fired h hf (by simp)
    have hgrammar : m.engine.grammar = g := by
      obtain ⟨n, htook⟩ := hf.took
      exact htook.grammar_eq.trans hchained.grammar_eq
    have hconcludes := ih (.begin hm.shows hm.eof_imp) hnext.begins (chained_begin hgrammar)
      (by rw [List.append_nil]; exact hnext.begin) hc
    simpa using hconcludes

/-- The firing that ends an attempt in a token completes the chain that the token is made of. -/
theorem Concludes.madeOf {kind : TokenKind}
    (h : Concludes g src kept a earlier current start modes before l m kind)
    (hk : kept ≤ CharStream.index a.input) (hfactory : a.factory = TokenFactory.common) :
    ∃ last, Gathered g src modes start (before ++ [last]) m ∧
      picked (current ++ [l]) = (before ++ [last]).map Prod.fst ∧
      (m.build kind start).MadeOf g src a.sourceName modes start before last m.context.modes := by
  have hf := h.working.fired h.fire_eq
  obtain ⟨n, hwent⟩ := (h.comes.fired h.working hf (by simp)).went
  obtain ⟨last, hgathered, hpicked, hd⟩ := h.chained.token_won h.working hf h.kind_ne
  have hmade := hgathered.madeOf h.chained.more hd (hf.working h.working).shows
    (Nat.le_trans hk h.begins.index_le) (hwent.factory_eq.trans hfactory)
  rw [hwent.sourceName_eq] at hmade
  exact ⟨last, hgathered, hpicked, hmade⟩

end

variable {σ : Type} [CharStream σ] [RoamingView σ] {g : Grammar} {src : List Char}
  {a : ActiveLexer σ RuleEngine} {token : Token}

/-- A call that answers with a token other than the end token builds it of its last attempt. -/
theorem Idle.concludes (h : a.Idle src) (hg : a.engine.grammar = g)
    (hfactory : a.factory = TokenFactory.common) (hn : a.nextToken.1 = .ok token)
    (he : token.isEof = false) :
    ∃ earlier current start modes before l m kind,
      Searches a.pinned (earlier ++ (current ++ [l])) a.pinned.search ∧
      Concludes g src (CharStream.index a.input) a.pinned earlier current start modes before l m
        kind ∧
      a.pinned.search = m.record (m.build kind start) := by
  obtain ⟨firings, hs, -⟩ := h.exists_searches
  change a.pinned.search.1 = .ok token at hn
  generalize a.pinned.search = c at hs hn
  cases hs with
  | ended =>
    have heof := emitEof_isEof (l := a.pinned) hfactory hn
    exact absurd (he.symm.trans heof) Bool.false_ne_true
  | begun hflag hruns =>
    have hcomes : Comes src a.pinned [] a.pinned := .refl _
    have hcommon : a.pinned.factory = TokenFactory.common := hfactory
    obtain ⟨earlier, current, start, modes, before, l, m, kind, hsplit, hconcludes, hc⟩ :=
      hruns.concludes (.begin h.pinned h.eof_pinned) hcommon hcomes.begins (chained_begin hg)
        hcomes.begin hn he
    have hsearches := Searches.begun hflag hruns
    rw [List.append_nil, List.nil_append] at hsplit
    rw [hsplit] at hsearches
    exact ⟨earlier, current, start, modes, before, l, m, kind, hsearches, hconcludes, hc⟩

/-- A call that answers with a token other than the end token makes it of a chain. -/
theorem Idle.makes (h : a.Idle src) (hg : a.engine.grammar = g)
    (hfactory : a.factory = TokenFactory.common) (hn : a.nextToken.1 = .ok token)
    (he : token.isEof = false) :
    ∃ firings, Searches a.pinned firings a.pinned.search ∧
      Makes g src a.pinned firings a.nextToken.2.context.modes token := by
  obtain ⟨earlier, current, start, modes, before, l, m, kind, hs, hconcludes, hc⟩ :=
    h.concludes hg hfactory hn he
  obtain ⟨last, -, hpicked, hmade⟩ :=
    hconcludes.madeOf (Nat.le_of_eq h.index_pinned.symm) hfactory
  refine ⟨_, hs, earlier, current ++ [l], start, modes, before, last, rfl, hpicked,
    hconcludes.begins, ?_⟩
  change a.pinned.search.1 = .ok token at hn
  change token.MadeOf g src a.pinned.sourceName modes start before last
    a.pinned.search.2.context.modes
  rw [hc] at hn ⊢
  rw [← Except.ok.inj hn]
  exact hmade

end ActiveLexer

namespace Lexer

variable {σ : Type} [CharStream σ] [RoamingView σ] {g : Grammar} {src : List Char}
  {l : Lexer σ RuleEngine} {token : Token}

/-- A call of `l` makes the token of its last firings, those from the lexers of `current`. The first
of them begins at `start`, at the position that the characters before it give, in the modes that the
rules which fired earlier in the call have led to. -/
def Makes (g : Grammar) (src : List Char) (l : Lexer σ RuleEngine) (token : Token) : Prop :=
  ∃ earlier current start modes before last,
    Asks l (earlier ++ current) l.nextToken ∧
    ActiveLexer.picked current = (before ++ [last]).map Prod.fst ∧
    Action.replay l.context.modes (ActiveLexer.picked earlier) = some modes ∧
    l.charIndex ≤ start.index ∧
    start.position =
      l.position.advance ((src.drop l.charIndex).take (start.index - l.charIndex)) ∧
    token.MadeOf g src l.sourceName modes start before last l.nextToken.2.context.modes

/-- Whatever was asked of a lexer with the common factory, a token that it answers with, the end
token apart, is made of the last firings of the call. -/
theorem token_made {allowed : Request → Prop} {fits : σ → Prop}
    (hreach : Reachable g allowed fits TokenFactory.common src l)
    (hn : l.nextToken.1 = .ok token) (he : token.isEof = false) : Makes g src l token := by
  cases hreach.idle with
  | detached => contradiction
  | @attached _ a ha hg hf =>
    obtain ⟨firings, hs, hmakes⟩ := ha.makes hg hf hn he
    obtain ⟨earlier, current, start, modes, before, last, rfl, hpicked, hbegins, hmade⟩ := hmakes
    have hindex := ha.index_pinned
    have hle := hbegins.index_le
    have hposition := hbegins.position_eq
    rw [hindex] at hle hposition
    exact ⟨earlier, current, start, modes, before, last, .searched hs, hpicked, hbegins.replay_eq,
      hle, hposition, hmade⟩

/-- The lexer before a quotation, after the word in front of it. -/
def beforeQuotation : Lexer WindowStream RuleEngine :=
  Request.perform (.ofInput (WindowStream.ofString "x\"ab\"" "inline")
    (.ofGrammar Tokenization.quoting) TokenFactory.common) .next

/-- The token of the quotation is made of three firings, in two modes. -/
theorem token_made_quotation :
    Reachable Tokenization.quoting (fun _ => True) (fun _ => True) TokenFactory.common
        "x\"ab\"".toList beforeQuotation ∧
      beforeQuotation.nextToken.1 =
        .ok ⟨⟨2⟩, .default, "\"ab\"", ⟨1, 5, 1, 1⟩, "inline"⟩ ∧
      Makes Tokenization.quoting "x\"ab\"".toList beforeQuotation
        ⟨⟨2⟩, .default, "\"ab\"", ⟨1, 5, 1, 1⟩, "inline"⟩ := by
  have hrests : Rests "x\"ab\"".toList (WindowStream.ofString "x\"ab\"" "inline") :=
    WindowStream.represents_ofString "x\"ab\"" "inline"
  have hreach : Reachable Tokenization.quoting (fun _ => True) (fun _ => True) TokenFactory.common
      "x\"ab\"".toList beforeQuotation :=
    .request (.ofInput hrests trivial) trivial
  have hn : beforeQuotation.nextToken.1 =
      .ok ⟨⟨2⟩, .default, "\"ab\"", ⟨1, 5, 1, 1⟩, "inline"⟩ := by cbv
  exact ⟨hreach, hn, token_made hreach hn rfl⟩

end Lexer

end ModalLex

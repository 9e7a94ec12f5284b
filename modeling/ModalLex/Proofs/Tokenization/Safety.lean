import Mathlib
import ModalLex.Proofs.Lexer.Drains
import ModalLex.Proofs.Tokenization.Run

/-!
# What can go wrong

A compiled grammar names only modes that it declares, and none of its rules leaves open what
becomes of a match. So a tokenization has one way to fail: a pop that finds no mode suspended. Which
rules fire decides it, by the mode actions that they make in order.
-/
namespace ModalLex

open TextView

namespace Action

/-- The modes after the actions of these rules, made in order; nothing if a pop finds none
suspended. -/
def replay (modes : ModeId × List ModeId) (rules : List Rule) : Option (ModeId × List ModeId) :=
  modesAfter? modes.1 modes.2 (rules.flatMap Rule.actions)

@[simp]
theorem replay_append (modes : ModeId × List ModeId) (as bs : List Rule) :
    replay modes (as ++ bs) = (replay modes as).bind (replay · bs) := by
  rw [replay, List.flatMap_append, modesAfter?_append]
  rfl

@[simp]
theorem replay_singleton (modes : ModeId × List ModeId) (r : Rule) :
    replay modes [r] = modesAfter? modes.1 modes.2 r.actions := by
  rw [replay, List.flatMap_singleton]

end Action

namespace ActiveLexer

section

variable {σ : Type}

/-- The modes that are left where all went well. -/
def leftModes {α : Type} (c : Except LexError α × ActiveLexer σ RuleEngine) :
    Option (ModeId × List ModeId) :=
  c.1.toOption.map fun _ => c.2.context.modes

theorem leftModes_map {α β : Type} (c : Except LexError α × ActiveLexer σ RuleEngine)
    (f : α → β) : leftModes c = leftModes (c.1.map f, c.2) := by
  rcases c with ⟨_ | _, _⟩ <;> rfl

variable [CharStream σ]

/-- The rules that fire from these lexers. -/
def picked (firings : List (ActiveLexer σ RuleEngine)) : List Rule := firings.filterMap pick

@[simp]
theorem picked_nil : picked ([] : List (ActiveLexer σ RuleEngine)) = [] := rfl

@[simp]
theorem picked_cons (l : ActiveLexer σ RuleEngine) (firings : List (ActiveLexer σ RuleEngine)) :
    picked (l :: firings) = l.pick.toList ++ picked firings := by
  rw [picked, picked, List.filterMap_cons]
  cases l.pick <;> rfl

theorem picked_singleton (l : ActiveLexer σ RuleEngine) : picked [l] = l.pick.toList := by
  simp

variable [LawfulView σ] {g : Grammar} {src : List Char} {kept : Nat}
  {start : TokenStart} {l m : ActiveLexer σ RuleEngine} {v : Verdict}
  {firings : List (ActiveLexer σ RuleEngine)}
  {c : Except LexError Token × ActiveLexer σ RuleEngine}

/-- A firing fails where the rule that is picked pops a mode that was never pushed. -/
theorem Steady.replays_failed (h : Working src kept l) (hs : Steady g l) {e : LexError}
    (hf : Fired src kept start l (.failed e) m) :
    Action.replay l.context.modes l.pick.toList = none := by
  generalize hv : Verdict.failed e = v at hf
  rw [h.pick_eq]
  cases hf with
  | ended | unmatched => contradiction
  | undeclared _ hmode =>
    rw [hs.grammar_eq, Grammar.mode?, List.getElem?_eq_none_iff] at hmode
    exact absurd hs.declared.mode_lt (Nat.not_lt.mpr hmode)
  | underflow hw hm =>
    rw [hw]
    exact (Action.replay_singleton _ _).trans hm
  | @won _ r => cases hd : r.decision <;> (rw [hd] at hv; contradiction)
  | refused _ _ _ hd => exact absurd (hs.accepting.dispatch_ok hd) (by simp)

/-- Otherwise it makes the actions of the rule that is picked, if one is. -/
theorem Working.replays (h : Working src kept l) (hf : Fired src kept start l v m)
    (hv : ∀ e, v ≠ .failed e) :
    Action.replay l.context.modes l.pick.toList = some m.context.modes := by
  rw [h.pick_eq]
  cases hf with
  | ended hend _ hcontext =>
    rw [hend, List.drop_length, winner?_nil, hcontext]
    rfl
  | undeclared | underflow | refused => exact absurd rfl (hv _)
  | won hw hm _ hcontext =>
    rw [hw, hcontext]
    exact (Action.replay_singleton _ _).trans hm
  | unmatched hw _ _ _ _ hcontext =>
    rw [hw, hcontext]
    rfl

/-- A run is the replay of what it fires. -/
theorem Runs.replays (hg : g.Sound) (hr : Runs start l firings c) (h : Working src kept l)
    (hs : Steady g l) : Action.replay l.context.modes (picked firings) = leftModes c := by
  induction hr with
  | failed hfire =>
    rw [picked_singleton]
    exact hs.replays_failed h (h.fired hfire)
  | injected hfire | matched hfire | ended hfire =>
    have hone := h.replays (h.fired hfire) nofun
    rw [picked_singleton]
    exact hone
  | more hfire hruns ih =>
    have hf := h.fired hfire
    rw [picked_cons, Action.replay_append, h.replays hf nofun]
    exact ih (hf.working h) (hs.fired hg hf)
  | onward hfire he hruns ih =>
    have hf := h.fired hfire
    have hm := hf.working h
    rw [picked_cons, Action.replay_append, h.replays hf nofun]
    exact ih (.begin hm.shows hm.eof_imp) (hs.fired hg hf).begin

/-- What a search, a call or a sequence of calls in declared modes comes to. -/
structure Safe {α : Type} (g : Grammar) (src : List Char) (l : ActiveLexer σ RuleEngine)
    (firings : List (ActiveLexer σ RuleEngine))
    (c : Except LexError α × ActiveLexer σ RuleEngine) : Prop where
  firings_steady : ∀ f ∈ firings, ∃ kept, Working src kept f ∧ Steady g f
  steady : Steady g c.2
  answer : (∃ a, c.1 = .ok a) ∨ c.1 = .error .emptyModeStack
  replay_eq : Action.replay l.context.modes (picked firings) = leftModes c

theorem Safe.mem_rules {α : Type} {c : Except LexError α × ActiveLexer σ RuleEngine}
    (h : Safe g src l firings c) {f : ActiveLexer σ RuleEngine} (hf : f ∈ firings) {r : Rule}
    (hr : f.pick = some r) : r ∈ g.rules := by
  obtain ⟨kept, hw, hs⟩ := h.firings_steady f hf
  rw [hw.pick_eq, hs.grammar_eq] at hr
  obtain ⟨⟨r, n⟩, hw, rfl⟩ := Option.map_eq_some_iff.mp hr
  exact mem_rules_of_winner hw

/-- All modes are declared wherever a rule fires, also while its actions run. -/
theorem Safe.declared {α : Type} {c : Except LexError α × ActiveLexer σ RuleEngine}
    (hg : g.Sound) (h : Safe g src l firings c) {f : ActiveLexer σ RuleEngine} (hf : f ∈ firings) :
    f.context.Declared g ∧ ∀ r, f.pick = some r →
      ∀ k, (Action.applyAll f.context (r.actions.take k)).2.Declared g := by
  obtain ⟨kept, hw, hs⟩ := h.firings_steady f hf
  exact ⟨hs.declared, fun r hr k =>
    hs.declared.applyAll hg (h.mem_rules hf hr) (List.take_subset k _)⟩

theorem Safe.failed_iff {α : Type} {c : Except LexError α × ActiveLexer σ RuleEngine}
    (h : Safe g src l firings c) :
    c.1 = .error .emptyModeStack ↔ Action.replay l.context.modes (picked firings) = none := by
  rw [h.replay_eq, leftModes]
  rcases h.answer with ⟨a, ha⟩ | he
  · simp [ha, Except.toOption]
  · simp [he, Except.toOption]

/-- Without a pop in the grammar there is none that could fail. -/
theorem Safe.not_failed {α : Type} {c : Except LexError α × ActiveLexer σ RuleEngine}
    (h : Safe g src l firings c) (hnopop : ∀ r ∈ g.rules, Action.popMode ∉ r.actions) :
    c.1 ≠ .error .emptyModeStack := by
  intro he
  have hnone := h.failed_iff.mp he
  have hactions : Action.popMode ∉ (picked firings).flatMap Rule.actions := by
    intro hp
    obtain ⟨r, hr, ha⟩ := List.mem_flatMap.mp hp
    obtain ⟨f, hf, hpick⟩ := List.mem_filterMap.mp hr
    exact hnopop r (h.mem_rules hf hpick) ha
  have hsome := Action.modesAfter?_isSome hactions l.context.modes.1 l.context.modes.2
  rw [Action.replay] at hnone
  rw [hnone] at hsome
  contradiction

theorem Searches.safe (hg : g.Sound) (hsearch : Searches l firings c)
    (hshows : Shows src kept l.input)
    (he : l.hitEof = true → CharStream.index l.input = src.length) (hs : Steady g l) :
    Safe g src l firings c := by
  have hp := hsearch.progressed hg hshows he hs
  cases hsearch with
  | ended => exact ⟨fun f hf => absurd hf List.not_mem_nil, hp.steady, hp.answer, rfl⟩
  | begun hflag hruns =>
    have hw : Working src kept l.begin := .begin hshows he
    have hreplay := hruns.replays hg hw hs.begin
    exact ⟨fun f hf => ⟨kept, (hruns.steady hg hw hs.begin).1 f hf⟩, hp.steady, hp.answer,
      hreplay⟩

end

section

variable {σ : Type} [CharStream σ] [RoamingView σ] {g : Grammar} {src : List Char}
  {a : ActiveLexer σ RuleEngine} {firings : List (ActiveLexer σ RuleEngine)}

theorem Idle.safe (hg : g.Sound) (h : a.Idle src) (hs : Steady g a)
    (hsearch : Searches a.pinned firings a.pinned.search) : Safe g src a firings a.nextToken := by
  have hsafe := hsearch.safe hg h.pinned h.eof_pinned { hs with }
  exact { hsafe with steady := { hsafe.steady with } }

/-- A sequence of calls is the replay of what its calls fire. -/
theorem Drains.safe (hg : g.Sound) {c : Except LexError (List Token) × ActiveLexer σ RuleEngine}
    (hd : Drains a firings c) (h : a.Idle src) (hs : Steady g a) : Safe g src a firings c := by
  induction hd with
  | failed hsearch hnext =>
    have hsafe := h.safe hg hs hsearch
    rw [hnext] at hsafe
    have he := Except.error.inj (hsafe.answer.resolve_left nofun)
    exact { hsafe with answer := .inr (congrArg _ he) }
  | ended hsearch hnext heof =>
    have hsafe := h.safe hg hs hsearch
    rw [hnext] at hsafe
    exact { hsafe with answer := .inl ⟨_, rfl⟩ }
  | token hsearch hnext heof hdrains ih =>
    have hsafe := h.safe hg hs hsearch
    have hidle := h.nextToken.idle
    rw [hnext] at hsafe hidle
    have hrest := ih hidle hsafe.steady
    refine ⟨List.forall_mem_append.mpr ⟨hsafe.firings_steady, hrest.firings_steady⟩, hrest.steady,
      ?_, ?_⟩
    · rcases hrest.answer with ⟨tokens, ht⟩ | he
      · exact .inl ⟨_, by rw [ht]; rfl⟩
      · exact .inr (by rw [he]; rfl)
    · rw [picked, List.filterMap_append, Action.replay_append]
      refine (congrArg (Option.bind · _) hsafe.replay_eq).trans (hrest.replay_eq.trans ?_)
      exact leftModes_map _ _

end

end ActiveLexer

namespace Tokenization

open ActiveLexer

variable {g : Grammar}

theorem idle_active (g : Grammar) (source name : String) :
    (active g source name).Idle source.toList :=
  ⟨TextStream.rests_ofString source name, nofun⟩

theorem steady_active (hg : g.Sound) (source name : String) :
    (active g source name).Steady g where
  grammar_eq := rfl
  declared := ⟨hg.start_declared, fun _ hm => absurd hm List.not_mem_nil⟩
  accepting := List.forall_mem_singleton.mpr fun _ _ => rfl

/-- A tokenization is a drained sequence. -/
theorem exists_drains (hg : g.Sound) (source name : String) :
    ∃ firings c, (active g source name).Drains firings c ∧
      (lexer g source name).allTokens = (c.1, c.2.toLexer) := by
  obtain ⟨firings, c, hdrains, hdrain⟩ := ActiveLexer.exists_drains hg
    (idle_active g source name) (steady_active hg source name) rfl
  refine ⟨firings, c, hdrains, ?_⟩
  have hpatience : (lexer g source name).patience = source.toList.length + 1 + 1 := by
    rw [← LawfulView.extent_eq (stands_active g source name).shows]
    exact congrArg (· + 2) (Nat.zero_add _)
  have hbudget : left source.toList (active g source name) < (lexer g source name).patience := by
    rw [hpatience]
    exact Nat.lt_succ_of_le (left_le _ _)
  have htokens : (lexer g source name).tokens = ⟨(active g source name).toLexer, false⟩ := rfl
  rw [Lexer.allTokens, htokens, hdrain _ hbudget]

theorem tokenize_of_allTokens {source name : String} {x : Except LexError (List Token)}
    {l : Lexer TextStream RuleEngine} (h : (lexer g source name).allTokens = (x, l)) :
    tokenize g source name = x.map fun tokens => ⟨tokens, l.listeners.log.received inbox⟩ := by
  rw [tokenize, lexText, h]
  cases x <;> rfl

/-- A tokenization fails in one way only. For every compiled grammar and every text: all modes that
it is in or returns to are declared, also while the actions of a rule run; it answers with tokens,
or that a pop found no mode suspended; it answers that exactly where the actions of the rules that
fired, made in order from the first mode on, come to such a pop; and so never without a pop in the
grammar. -/
theorem tokenize_safe {spec : GrammarSpec} (hspec : spec.compile = .ok g) (source name : String) :
    ∃ firings c, (active g source name).Drains firings c ∧
      (lexer g source name).allTokens = (c.1, c.2.toLexer) ∧
      (∀ f ∈ firings, f.context.Declared g ∧ ∀ r, f.pick = some r →
        ∀ k, (Action.applyAll f.context (r.actions.take k)).2.Declared g) ∧
      c.2.context.Declared g ∧
      ((∃ r, tokenize g source name = .ok r) ∨
        tokenize g source name = .error .emptyModeStack) ∧
      (tokenize g source name = .error .emptyModeStack ↔
        Action.replay (.default, []) (picked firings) = none) ∧
      ((∀ r ∈ g.rules, Action.popMode ∉ r.actions) → ∃ r, tokenize g source name = .ok r) := by
  have hg := GrammarSpec.compile_sound hspec
  obtain ⟨firings, c, hdrains, hall⟩ := exists_drains hg source name
  have hsafe := hdrains.safe hg (idle_active g source name) (steady_active hg source name)
  have hanswer : (∃ r, tokenize g source name = .ok r) ∨
      tokenize g source name = .error .emptyModeStack := by
    rw [tokenize_of_allTokens hall]
    rcases hsafe.answer with ⟨tokens, ht⟩ | he
    · exact .inl ⟨_, by rw [ht]; rfl⟩
    · exact .inr (by rw [he]; rfl)
  have hfailed : tokenize g source name = .error .emptyModeStack ↔
      c.1 = .error .emptyModeStack := by
    rw [tokenize_of_allTokens hall]
    cases c.1 <;> simp [Except.map]
  exact ⟨firings, c, hdrains, hall, fun f hf => hsafe.declared hg hf, hsafe.steady.declared,
    hanswer, hfailed.trans hsafe.failed_iff,
    fun hnopop => hanswer.resolve_right fun he => hsafe.not_failed hnopop (hfailed.mp he)⟩

/-- Brackets, each pair a mode of its own, where a closing one may come without an opening one. -/
def nestingSpec : GrammarSpec where
  name := "Nesting"
  modes := [
    ⟨"MAIN", [
      (RuleSpec.token "OPEN" ⟨1⟩ (.literal "(")).withAction (.pushMode "MAIN"),
      (RuleSpec.token "CLOSE" ⟨2⟩ (.literal ")")).withAction .popMode]⟩]

def nesting : Grammar where
  name := "Nesting"
  modes := [
    ⟨"MAIN", [
      ⟨"OPEN", some ⟨1⟩, .literal ['('], [.pushMode ⟨0⟩]⟩,
      ⟨"CLOSE", some ⟨2⟩, .literal [')'], [.popMode]⟩]⟩]

theorem compile_nesting : nestingSpec.compile = .ok nesting := by rfl

theorem tokenize_safe_nesting :
    nestingSpec.compile = .ok nesting ∧
      tokenize nesting "())" "inline" = .error .emptyModeStack ∧
      ∃ firings c, (active nesting "())" "inline").Drains firings c ∧
        Action.replay (.default, []) (picked firings) = none := by
  have hfailed : tokenize nesting "())" "inline" = .error .emptyModeStack := by cbv
  obtain ⟨firings, c, hdrains, -, -, -, -, hfails, -⟩ :=
    tokenize_safe compile_nesting "())" "inline"
  exact ⟨compile_nesting, hfailed, firings, c, hdrains, hfails.mp hfailed⟩

end Tokenization

end ModalLex

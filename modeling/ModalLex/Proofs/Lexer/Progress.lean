import ModalLex.Proofs.Lexer.Recording
import ModalLex.Proofs.Lexer.Session

/-!
# Calls come to an end

Under a compiled grammar, in declared modes and with listeners that accept every diagnostic, each
firing either takes a character or sees the end of the input. So every call ends, a call made where
characters are left moves on, and from the start of an input on no more matches are asked of the
engine than the input has characters, and one.
-/
namespace ModalLex

open TextView

/-- The current mode and the suspended ones are declared. -/
structure Context.Declared (g : Grammar) (c : Context) : Prop where
  mode_lt : c.mode.index < g.modes.length
  stack_lt : ∀ m ∈ c.modeStack.modes, m.index < g.modes.length

/-- Also a run of some of a rule's actions that fails half-way leads to declared modes. -/
theorem Context.Declared.applyAll {g : Grammar} {c : Context} (hg : g.Sound) (h : c.Declared g)
    {r : Rule} (hr : r ∈ g.rules) {actions : List Action} (ha : actions ⊆ r.actions) :
    (Action.applyAll c actions).2.Declared g := by
  obtain ⟨hmode, hstack⟩ := Action.applyAll_all (p := fun m => m.index < g.modes.length) h.mode_lt
    h.stack_lt fun a hmem => hg.target_declared r hr a (ha hmem)
  exact ⟨hmode, hstack⟩

/-- No listener ever refuses a diagnostic. -/
def Listeners.Accepting (ls : Listeners) : Prop :=
  ∀ l ∈ ls.registered, ∀ log d, l.refuses log d = none

theorem Listeners.Accepting.dispatch_ok {ls ls' : Listeners} {d : Diagnostic}
    {r : Except LexError Unit} (h : ls.Accepting) (hd : ls.dispatch d = (r, ls')) : r = .ok () := by
  have hall : ∀ (registered : List Listener) (log : Log),
      (∀ l ∈ registered, ∀ log d, l.refuses log d = none) →
        (deliverAll d registered log).1 = .ok () := by
    intro registered
    induction registered with
    | nil => exact fun _ _ => rfl
    | cons l rest ih =>
      intro log hl
      rw [deliverAll, hl l List.mem_cons_self]
      exact ih _ fun k hk => hl k (List.mem_cons_of_mem _ hk)
  obtain ⟨hr, -⟩ := Prod.mk.inj hd
  rw [← hr]
  exact hall ls.registered ls.log h

namespace ActiveLexer

section

variable {σ : Type} [CharStream σ]

/-- The matches that may still be asked for: one for each character left and one for the end,
until the end is seen. -/
def left (src : List Char) (l : ActiveLexer σ RuleEngine) : Nat :=
  if l.hitEof then 0 else src.length - CharStream.index l.input + 1

theorem left_le (src : List Char) (l : ActiveLexer σ RuleEngine) :
    left src l ≤ src.length - CharStream.index l.input + 1 := by
  unfold left
  split <;> omega

theorem hitEof_of_left (src : List Char) {l : ActiveLexer σ RuleEngine} (h : left src l = 0) :
    l.hitEof = true := by
  unfold left at h
  split at h
  · assumption
  · contradiction

/-- A lexer for `g`, in declared modes and with listeners that accept every diagnostic. -/
structure Steady (g : Grammar) (l : ActiveLexer σ RuleEngine) : Prop where
  grammar_eq : l.engine.grammar = g
  declared : l.context.Declared g
  accepting : l.listeners.Accepting

theorem Steady.begin {g : Grammar} {l : ActiveLexer σ RuleEngine} (hs : Steady g l) :
    Steady g l.begin where
  grammar_eq := hs.grammar_eq
  declared := ⟨hs.declared.mode_lt, hs.declared.stack_lt⟩
  accepting := hs.accepting

variable [LawfulView σ] {g : Grammar} {src : List Char} {kept : Nat}
  {start : TokenStart} {l m : ActiveLexer σ RuleEngine} {v : Verdict}
  {firings : List (ActiveLexer σ RuleEngine)}
  {c : Except LexError Token × ActiveLexer σ RuleEngine}

theorem mem_rules_of_winner {mode : ModeId} {rest : List Char} {r : Rule} {n : Nat}
    (hw : winner? (g.rulesOf mode) rest = some (r, n)) : r ∈ g.rules :=
  g.rulesOf_subset mode (winner?_spec hw).1

theorem Steady.fired (hg : g.Sound) (hs : Steady g l) (h : Fired src kept start l v m) :
    Steady g m := by
  obtain ⟨n, ht⟩ := h.took
  have hd := hs.declared
  refine ⟨ht.grammar_eq.trans hs.grammar_eq, ?_, ?_⟩
  · have hgrammar := hs.grammar_eq
    cases h with
    | ended _ _ hcontext | undeclared _ _ _ hcontext | refused _ _ _ _ _ hcontext
    | unmatched _ _ _ _ _ hcontext =>
      rw [hcontext]
      exact ⟨hd.mode_lt, hd.stack_lt⟩
    | underflow hw _ _ hcontext =>
      rw [hgrammar] at hw
      have hpending : { l.context with pending := .invalid }.Declared g := ⟨hd.mode_lt, hd.stack_lt⟩
      rw [hcontext]
      exact hpending.applyAll hg (mem_rules_of_winner hw) (List.Subset.refl _)
    | won hw hm _ hcontext =>
      rw [hgrammar] at hw
      obtain ⟨hmode, hstack⟩ := Action.modesAfter?_all hm hd.mode_lt hd.stack_lt
        (hg.target_declared _ (mem_rules_of_winner hw))
      rw [hcontext]
      exact ⟨hmode, hstack⟩
  · rw [Listeners.Accepting, ht.registered_eq]
    exact hs.accepting

theorem Runs.steady (hg : g.Sound) (hr : Runs start l firings c) (h : Working src kept l)
    (hs : Steady g l) : (∀ f ∈ firings, Working src kept f ∧ Steady g f) ∧ Steady g c.2 := by
  obtain ⟨hall, -, hc⟩ := hr.keeps (P := Steady g) Steady.begin
    (fun _ h => { h with }) (fun _ h hf => h.fired hg hf) h hs
  exact ⟨hall, hc⟩

/-- A firing takes a character or more, or sees the end. It fails only where a pop finds no mode
suspended. -/
theorem Steady.advance (hs : Steady g l) (hf : Fired src kept start l v m) :
    (CharStream.index l.input < CharStream.index m.input ∧
        CharStream.index m.input ≤ src.length ∧ ∀ e, v = .failed e → e = .emptyModeStack) ∨
      (CharStream.index l.input = src.length ∧ v = .matched .eof ∧ m.hitEof = true) := by
  have hle {k : Nat} (ht : Took src kept l k m) : CharStream.index m.input ≤ src.length :=
    Nat.le_trans (LawfulView.index_le ht.shows) (LawfulView.reach_le ht.shows)
  cases hf with
  | ended hend _ _ hflag => exact .inr ⟨hend, rfl, hflag⟩
  | undeclared _ hmode =>
    rw [hs.grammar_eq, Grammar.mode?, List.getElem?_eq_none_iff] at hmode
    exact absurd hs.declared.mode_lt (Nat.not_lt.mpr hmode)
  | underflow hw _ ht =>
    have hpos := (winner_bounds hw).1
    have hi := ht.index_eq
    exact .inl ⟨by omega, hle ht, fun e he => (Verdict.failed.inj he).symm⟩
  | @won _ r _ _ _ hw _ ht =>
    have hpos := (winner_bounds hw).1
    have hi := ht.index_eq
    refine .inl ⟨by omega, hle ht, fun e he => ?_⟩
    cases hd : r.decision <;> (rw [hd] at he; contradiction)
  | refused _ _ _ hd => exact absurd (hs.accepting.dispatch_ok hd) (by simp)
  | unmatched _ _ _ _ ht =>
    have hi := ht.index_eq
    exact .inl ⟨by omega, hle ht, fun e he => nomatch he⟩

/-- A run in declared modes: how many firings it has, how far it goes, and how it ends. -/
structure Accounted (src : List Char) (l : ActiveLexer σ RuleEngine)
    (firings : List (ActiveLexer σ RuleEngine))
    (c : Except LexError Token × ActiveLexer σ RuleEngine) : Prop where
  length_le : firings.length + left src c.2 ≤ src.length - CharStream.index l.input + 1
  nonempty : firings ≠ []
  index_lt : CharStream.index l.input < src.length →
    CharStream.index l.input < CharStream.index c.2.input
  answer : (∃ token, c.1 = .ok token) ∨ c.1 = .error .emptyModeStack

theorem accounted_last (h : Working src kept l) (hs : Steady g l)
    (hfire : l.fire start = (v, m)) (hleft : left src c.2 = left src m)
    (hindex : CharStream.index c.2.input = CharStream.index m.input)
    (ha : (∃ token, c.1 = .ok token) ∨ ∃ e, v = .failed e ∧ c.1 = .error e) :
    Accounted src l [l] c := by
  have hle := left_le src m
  have hadvance := hs.advance (h.fired hfire)
  refine ⟨?_, List.cons_ne_nil _ _, fun hlt => ?_, ha.imp_right ?_⟩
  · rw [hleft, List.length_singleton]
    rcases hadvance with ⟨hlt, hm, -⟩ | ⟨-, -, hflag⟩
    · omega
    · rw [left, if_pos hflag]
      omega
  · rw [hindex]
    rcases hadvance with ⟨hlt', -⟩ | ⟨hend, -⟩
    · exact hlt'
    · omega
  · rintro ⟨e, rfl, he⟩
    rcases hadvance with ⟨-, -, hpop⟩ | ⟨-, hv, -⟩
    · rw [he, hpop e rfl]
    · contradiction

theorem Accounted.cons (ha : Accounted src m firings c) (h : Working src kept l)
    (hs : Steady g l) (hfire : l.fire start = (v, m)) (hv : v ≠ .matched .eof)
    (hle : CharStream.index m.input ≤ CharStream.index c.2.input) :
    Accounted src l (l :: firings) c := by
  have hlen := ha.length_le
  rcases hs.advance (h.fired hfire) with ⟨hlt, hm, -⟩ | ⟨-, he, -⟩
  · refine ⟨?_, List.cons_ne_nil _ _, fun _ => Nat.lt_of_lt_of_le hlt hle, ha.answer⟩
    rw [List.length_cons]
    omega
  · exact absurd he hv

/-- By induction on the run: every firing but the last leaves fewer characters to the rest. -/
theorem Runs.accounted (hg : g.Sound) (hr : Runs start l firings c) (h : Working src kept l)
    (hs : Steady g l) : Accounted src l firings c := by
  induction hr with
  | failed hfire => exact accounted_last h hs hfire rfl rfl (.inr ⟨_, rfl, rfl⟩)
  | injected hfire | matched hfire | ended hfire =>
    exact accounted_last h hs hfire rfl rfl (.inl ⟨_, rfl⟩)
  | more hfire hruns ih =>
    have hf := h.fired hfire
    have hm := hf.working h
    obtain ⟨-, n, ht⟩ := hruns.took hm
    exact (ih hm (hs.fired hg hf)).cons h hs hfire nofun (ht.index_eq ▸ Nat.le_add_right _ _)
  | @onward _ _ m _ _ hfire he hruns ih =>
    have hf := h.fired hfire
    have hm : Working src kept m.begin := .begin (hf.working h).shows (hf.working h).eof_imp
    obtain ⟨-, n, ht⟩ := hruns.took hm
    have ha : Accounted src m _ _ := { ih hm (hs.fired hg hf).begin with }
    exact ha.cons h hs hfire nofun (ht.index_eq ▸ Nat.le_add_right _ _)

/-- What a search or a call in declared modes comes to. -/
structure Progressed (g : Grammar) (src : List Char) (l : ActiveLexer σ RuleEngine)
    (firings : List (ActiveLexer σ RuleEngine))
    (c : Except LexError Token × ActiveLexer σ RuleEngine) : Prop where
  length_le : firings.length + left src c.2 ≤ left src l
  nonempty : l.hitEof = false → firings ≠ []
  index_lt : CharStream.index l.input < src.length →
    CharStream.index l.input < CharStream.index c.2.input
  answer : (∃ token, c.1 = .ok token) ∨ c.1 = .error .emptyModeStack
  steady : Steady g c.2

theorem Searches.progressed (hg : g.Sound) (h : Searches l firings c)
    (hshows : Shows src kept l.input)
    (he : l.hitEof = true → CharStream.index l.input = src.length) (hs : Steady g l) :
    Progressed g src l firings c := by
  cases h with
  | ended hflag =>
    exact ⟨Nat.le_of_eq (Nat.zero_add _), fun hf => absurd (hf.symm.trans hflag) Bool.false_ne_true,
      fun hlt => absurd (he hflag) (Nat.ne_of_lt hlt), .inl ⟨_, rfl⟩, { hs with }⟩
  | begun hflag hruns =>
    have hw : Working src kept l.begin := .begin hshows he
    have ha := hruns.accounted hg hw hs.begin
    refine ⟨?_, fun _ => ha.nonempty, ha.index_lt, ha.answer, (hruns.steady hg hw hs.begin).2⟩
    have hl : left src l = src.length - CharStream.index l.input + 1 :=
      if_neg (hflag ▸ Bool.false_ne_true)
    rw [hl]
    exact ha.length_le

end

section

variable {σ : Type} [CharStream σ] [RoamingView σ] {g : Grammar} {src : List Char}
  {a : ActiveLexer σ RuleEngine}

/-- A call between others has a run that its budget covers, and the run goes ahead. -/
theorem Idle.progressed (hg : g.Sound) (h : Idle src a) (hs : Steady g a) :
    ∃ firings, Searches a.pinned firings a.pinned.search ∧
      firings.length ≤ a.pinned.patience ∧ Progressed g src a firings a.nextToken := by
  obtain ⟨firings, hsearch, hlen⟩ := h.exists_searches
  have hi := h.index_pinned
  have hp := hsearch.progressed hg h.pinned h.eof_pinned { hs with }
  have hu := h.index_nextToken
  have hlength := hp.length_le
  have hindex := hp.index_lt
  refine ⟨firings, hsearch, by rw [h.patience_pinned]; omega, ?_, hp.nonempty, ?_, hp.answer,
    { hp.steady with }⟩
  · have hl : left src a.nextToken.2 = left src a.pinned.search.2 := by
      rw [left, left, hu]
      rfl
    have hl' : left src a.pinned = left src a := by
      rw [left, left, hi]
      rfl
    rwa [hl, ← hl']
  · rw [hu]
    rwa [hi] at hindex

end

end ActiveLexer

namespace Lexer

/-- The lexer after `n` calls for the next token, whatever they answer. -/
def after {σ ε : Type} [CharStream σ] [RecognitionEngine ε] : Nat → Lexer σ ε → Lexer σ ε
  | 0, l => l
  | n + 1, l => after n l.nextToken.2

variable {σ : Type} [CharStream σ] [RoamingView σ] {g : Grammar} {src : List Char}
  {a : ActiveLexer σ RuleEngine}

open ActiveLexer

/-- Any number of calls, recorded: every match is paid for by a character or by the end, and every
call pays until the end is seen. -/
theorem after_recorded (hg : g.Sound) (h : a.Idle src) (hs : a.Steady g) (n : Nat)
    (calls : List (ModeId × Nat)) :
    ∃ b calls', after n a.toLexer = b.toLexer ∧
      after n (a.recorded calls).toLexer = (b.recorded calls').toLexer ∧
      calls'.length + left src b ≤ calls.length + left src a ∧
      (b.hitEof = true ∨ n + left src b ≤ left src a) := by
  induction n generalizing a calls with
  | zero => exact ⟨a, calls, rfl, rfl, Nat.le_refl _, .inr (Nat.le_of_eq (Nat.zero_add _))⟩
  | succ n ih =>
    obtain ⟨firings, hsearch, hlen, hp⟩ := h.progressed hg hs
    obtain ⟨b, calls', hb, hrec, hlength, hend⟩ :=
      ih h.nextToken.idle hp.steady (recordOf firings calls)
    have hspent := hp.length_le
    rw [length_recordOf] at hlength
    refine ⟨b, calls', hb, ?_, by omega, ?_⟩
    · rw [after, nextToken_toLexer, hsearch.nextToken_recorded hlen]
      exact hrec
    · rcases hend with hend | hend
      · exact .inl hend
      · cases hflag : a.hitEof with
        | true =>
          left
          have hzero : left src a = 0 := if_pos hflag
          exact hitEof_of_left src (by omega)
        | false =>
          have hpos := List.length_pos_iff.mpr (hp.nonempty hflag)
          exact .inr (by omega)

/-- Calls come to an end. For every compiled grammar, and every lexer that a session has led to, in
declared modes and with listeners that accept every diagnostic: a call has a finite run; where
characters are left it moves on, and answers with a token or finds no mode suspended; and from the
start of an input on, calls see the end after as many as there are characters, and one, having
asked no more matches of the engine than that. -/
theorem session_progress {spec : GrammarSpec} (hspec : spec.compile = .ok g)
    {factory : TokenFactory σ} {l : Lexer σ RuleEngine}
    (hreach : Reachable g (fun _ => True) (fun _ => True) factory src l)
    (hdeclared : l.context.Declared g) (haccept : l.listeners.Accepting) :
    (∃ firings, Asks l firings l.nextToken) ∧
      (l.charIndex < src.length →
        l.charIndex < l.nextToken.2.charIndex ∧
          ((∃ token, l.nextToken.1 = .ok token) ∨ l.nextToken.1 = .error .emptyModeStack)) ∧
      ∀ a : ActiveLexer σ RuleEngine, l = a.toLexer → l.charIndex = 0 →
        (∃ n ≤ src.length + 1, (after n l).hitEof = true) ∧
          ∀ n, (after n (a.recorded []).toLexer).engine.calls.length ≤ src.length + 1 := by
  have hg := GrammarSpec.compile_sound hspec
  cases hreach.idle with
  | @detached s =>
    refine ⟨⟨[], .detached s⟩, fun hlt => absurd hlt (Nat.not_lt_zero _), fun a ha => ?_⟩
    exact absurd (congrArg Lexer.input ha) nofun
  | @attached _ a ha hgrammar =>
    have hs : a.Steady g := ⟨hgrammar, hdeclared, haccept⟩
    obtain ⟨firings, hsearch, -, hp⟩ := ha.progressed hg hs
    refine ⟨⟨firings, .searched hsearch⟩, fun hlt => ⟨hp.index_lt hlt, hp.answer⟩, ?_⟩
    intro a' heq hzero
    obtain rfl := toLexer_injective heq
    have hle := left_le src a
    change CharStream.index a.input = 0 at hzero
    refine ⟨⟨src.length + 1, Nat.le_refl _, ?_⟩, fun n => ?_⟩
    · obtain ⟨b, calls, hb, -, -, hend⟩ := after_recorded hg ha hs (src.length + 1) []
      rw [hb]
      exact hend.elim id fun hend => hitEof_of_left src (by omega)
    · obtain ⟨b, calls, -, hrec, hlength, -⟩ := after_recorded hg ha hs n []
      rw [hrec]
      change calls.length ≤ _
      rw [List.length_nil] at hlength
      omega

/-- Single letters, with rules beside them that take nothing, or spaces if there are any. -/
def hollowSpec : GrammarSpec where
  name := "Hollow"
  modes := [
    ⟨"MAIN", [
      .token "NOTHING" ⟨1⟩ (.seq []),
      (RuleSpec.fragment "SPACES" (.repeated " " false 0 none)).withAction .skip,
      .token "LETTER" ⟨2⟩ (.oneOf "a-z")]⟩]

def hollow : Grammar where
  name := "Hollow"
  modes := [
    ⟨"MAIN", [
      ⟨"NOTHING", some ⟨1⟩, .seq [], []⟩,
      ⟨"SPACES", none, .set ⟨[(' ', ' ')], false⟩ 0 none, [.skip]⟩,
      ⟨"LETTER", some ⟨2⟩, .set ⟨[('a', 'z')], false⟩ 1 (some 1), []⟩]⟩]

theorem compile_hollow : hollowSpec.compile = .ok hollow := by rfl

/-- The lexer at the start of `" a!"`, where the last character matches no rule. -/
def hollowStart : ActiveLexer TextStream RuleEngine :=
  { Lexer.detached (.ofGrammar hollow) TokenFactory.common with
    sourceName := "inline"
    input := TextStream.ofString " a!" "inline" }

theorem session_progress_hollow :
    hollowSpec.compile = .ok hollow ∧
      Reachable hollow (fun _ => True) (fun _ => True) TokenFactory.common " a!".toList
        hollowStart.toLexer ∧
      hollowStart.context.Declared hollow ∧ hollowStart.listeners.Accepting ∧
      hollowStart.toLexer.charIndex < hollowStart.toLexer.nextToken.2.charIndex ∧
      ∀ n, (after n (hollowStart.recorded []).toLexer).engine.calls.length ≤
        " a!".toList.length + 1 := by
  have hreach : Reachable hollow (fun _ => True) (fun _ => True) TokenFactory.common
      " a!".toList hollowStart.toLexer :=
    .ofInput (TextStream.rests_ofString " a!" "inline") trivial
  have hdeclared : hollowStart.context.Declared hollow := ⟨by decide, nofun⟩
  have haccept : hollowStart.listeners.Accepting :=
    List.forall_mem_singleton.mpr fun _ _ => rfl
  have h := session_progress compile_hollow hreach hdeclared haccept
  exact ⟨compile_hollow, hreach, hdeclared, haccept, (h.2.1 (by decide)).1,
    (h.2.2 hollowStart rfl rfl).2⟩

end Lexer

end ModalLex

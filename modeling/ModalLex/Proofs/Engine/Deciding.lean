import ModalLex.Proofs.Grammar.Effects
import ModalLex.Proofs.Stream.Lookahead

/-!
# What a call of the rule engine decides

With characters left a call fires a rule, finds that none matches, or refuses a mode that is not
declared; with none left it matches the end. Main statement: which of these it does, and what each
of them leaves of the stream, the position and the context, for every stream, pinned or not.
-/
namespace ModalLex

open TextView

/-- What stands before the first maximum of a list is smaller. -/
theorem argmax_split {α : Type} {f : α → Nat} {l : List α} {m : α} (h : l.argmax f = some m) :
    ∃ before after, l = before ++ m :: after ∧ ∀ a ∈ before, f a < f m := by
  induction l using List.reverseRecOn generalizing m with
  | nil => contradiction
  | append_singleton l a ih =>
    rw [List.argmax_concat] at h
    cases hl : l.argmax f with
    | none =>
      rw [hl] at h
      obtain rfl := Option.some.inj h
      obtain rfl := List.argmax_eq_none.mp hl
      exact ⟨[], [], rfl, List.forall_mem_nil _⟩
    | some c =>
      rw [hl] at h
      dsimp only at h
      split at h
      · -- The last element is larger than the maximum before it.
        rename_i hlt
        obtain rfl := Option.some.inj h
        refine ⟨l, [], rfl, fun b hb => ?_⟩
        exact Nat.lt_of_le_of_lt (List.le_of_mem_argmax hb hl) hlt
      · obtain rfl := Option.some.inj h
        obtain ⟨before, after, rfl, hbefore⟩ := ih hl
        exact ⟨before, after ++ [a], by simp, hbefore⟩

/-- No rule declared before the winner takes as many characters. -/
theorem winner?_first {rules : List Rule} {rest : List Char} {r : Rule} {n : Nat}
    (h : winner? rules rest = some (r, n)) :
    ∃ before after, rules = before ++ r :: after ∧
      ∀ q ∈ before, q.pattern.lengthOn rest ≠ some n := by
  have hpos := (winner?_spec h).2.2
  obtain ⟨firsts, lasts, hsplit, hless⟩ := argmax_split h
  obtain ⟨before, tail, rfl, hbefore, htail⟩ := List.filterMap_eq_append_iff.mp hsplit
  obtain ⟨skipped, q, after, rfl, hskipped, hq, -⟩ := List.filterMap_eq_cons_iff.mp htail
  obtain ⟨k, hk, heq⟩ := Option.map_eq_some_iff.mp hq
  obtain ⟨rfl, rfl⟩ := Prod.mk.inj heq
  refine ⟨before ++ skipped, after, by simp, ?_⟩
  intro p hp hlen
  have hcand : ((p.pattern.lengthOn rest).filter (0 < ·)).map (p, ·) = some (p, k) := by
    rw [hlen, Option.filter_some_pos (by simpa using hpos)]
    rfl
  rcases List.mem_append.mp hp with hp | hp
  · have hmem : (p, k) ∈ firsts := by
      rw [← hbefore]
      exact List.mem_filterMap.mpr ⟨p, hp, hcand⟩
    exact Nat.lt_irrefl k (hless _ hmem)
  · have hnone := hskipped p hp
    rw [hcand] at hnone
    contradiction

/-- No rule takes more characters than the winner. -/
theorem winner?_longest {rules : List Rule} {rest : List Char} {r q : Rule} {n k : Nat}
    (h : winner? rules rest = some (r, n)) (hq : q ∈ rules)
    (hk : q.pattern.lengthOn rest = some k) : k ≤ n := by
  rcases Nat.eq_zero_or_pos k with rfl | hpos
  · exact Nat.zero_le n
  · exact List.le_of_mem_argmax (f := Prod.snd) (mem_candidates.mpr ⟨hq, hk, hpos⟩) h

/-- Actions run in order. The first pop that finds no mode suspended ends them, and what those
before it did stays. -/
inductive Ran : Context → List Action → Except LexError Unit → Context → Prop
  | done (c : Context) : Ran c [] (.ok ()) c
  | step {c c' c'' : Context} {a : Action} {rest : List Action} {answer : Except LexError Unit}
      (ha : a.apply c = (.ok (), c')) (h : Ran c' rest answer c'') : Ran c (a :: rest) answer c''
  | underflow {c : Context} (rest : List Action) (h : c.modeStack.modes = []) :
      Ran c (.popMode :: rest) (.error .emptyModeStack) c

theorem ran_applyAll (c : Context) (actions : List Action) :
    Ran c actions (Action.applyAll c actions).1 (Action.applyAll c actions).2 := by
  induction actions generalizing c with
  | nil => exact .done c
  | cons a rest ih =>
    have step {c' : Context} (ha : a.apply c = (.ok (), c')) :
        Ran c (a :: rest) (Action.applyAll c (a :: rest)).1 (Action.applyAll c (a :: rest)).2 := by
      simp only [Action.applyAll, ha]
      exact .step ha (ih c')
    cases a with
    | popMode =>
      rcases hs : c.modeStack.modes with _ | ⟨top, below⟩
      · simp only [Action.applyAll, Action.apply_popMode_empty hs]
        exact .underflow rest hs
      · exact step (Action.apply_popMode hs)
    | _ => exact step rfl

namespace RuleEngine

variable {σ : Type} [CharStream σ]

/-- A call has left the stream, the position and the context as they were. -/
structure Stays (e : RuleEngine) (s : σ) (c : Context) (r : Recognition RuleEngine σ) : Prop where
  index_eq : CharStream.index r.input = CharStream.index s
  position_eq : r.engine.position = e.position
  context_eq : r.context = c

/-- A call has fired a rule: the first of those that take the most characters, and at least one. The
stream and the position have gone over these characters, and then its actions have run. -/
structure Fires (e : RuleEngine) (src : List Char) (s : σ) (rules : List Rule) (c : Context)
    (r : Recognition RuleEngine σ) (before : List Rule) (rule : Rule) (after : List Rule)
    (n : Nat) : Prop where
  rules_eq : rules = before ++ rule :: after
  length_eq : (rule.pattern.matchLength s 0).1 = some n
  length_pos : 0 < n
  longest : ∀ q ∈ rules, ∀ k, (q.pattern.matchLength s 0).1 = some k → k ≤ n
  first : ∀ q ∈ before, (q.pattern.matchLength s 0).1 ≠ some n
  index_eq : CharStream.index r.input = CharStream.index s + n
  index_le : CharStream.index s + n ≤ src.length
  position_eq : r.engine.position =
    e.position.advance ((src.drop (CharStream.index s)).take n)
  ran : ∃ answer, Ran c rule.actions answer r.context ∧
    r.outcome = answer.map fun _ => .matched (asks rule)

/-- What a call decides over a stream that stands in `src`. Of the four cases exactly one
applies. -/
structure Decides [RestingView σ] (e : RuleEngine) (src : List Char) (s : σ) (mode : ModeId)
    (c : Context) (r : Recognition RuleEngine σ) : Prop where
  ended : CharStream.index s = src.length →
    r.outcome = .ok (.matched (.valid .eof)) ∧ Stays e s c r
  undeclared : CharStream.index s < src.length → e.grammar.mode? mode = none →
    r.outcome = .error (.illegalState (.unknownMode mode)) ∧ Stays e s c r
  unmatched : ∀ m, CharStream.index s < src.length → e.grammar.mode? mode = some m →
    (∀ q ∈ m.rules, ∀ k, (q.pattern.matchLength s 0).1 = some k → k = 0) →
      r.outcome = .ok (.noViable (CharStream.index s) (CharStream.index s)) ∧ Stays e s c r
  fired : ∀ m, CharStream.index s < src.length → e.grammar.mode? mode = some m →
    (∃ q ∈ m.rules, ∃ k, (q.pattern.matchLength s 0).1 = some k ∧ 0 < k) →
      ∃ rule n before after, Fires e src s m.rules c r before rule after n
  /-- Nothing else of the engine changes, and the stream still stands in its text. -/
  engine_eq : r.engine = ⟨e.grammar, r.engine.position, CharStream.index s⟩
  rests : Rests src r.input

variable {src : List Char} {P : σ → Prop} {s : σ}

theorem matchLength_zero (hP : ReadsAhead src P) (h : P s) (p : Pattern) :
    (p.matchLength s 0).1 = p.lengthOn (src.drop (CharStream.index s)) := by
  obtain ⟨t, ht, -⟩ := Pattern.matchLength_ahead hP h 0 p
  exact congrArg Prod.fst ht

/-- A call notes where it began and moves the position, and changes nothing else of the engine. -/
theorem find_engine (e : RuleEngine) (index : Nat) (rest : List Char) (mode : ModeId)
    (c : Context) :
    (e.find index rest mode c).engine =
      ⟨e.grammar, (e.find index rest mode c).engine.position, index⟩ := by
  rw [find]
  split
  · rfl
  · split
    · rfl
    · split <;> rfl

/-- A winner is a rule that fires. -/
theorem fires_of_winner? {e : RuleEngine} {rules : List Rule} {c : Context}
    {r : Recognition RuleEngine σ} {rule : Rule} {n : Nat}
    (hlen : ∀ p : Pattern, (p.matchLength s 0).1 = p.lengthOn (src.drop (CharStream.index s)))
    (hw : winner? rules (src.drop (CharStream.index s)) = some (rule, n))
    (hi : CharStream.index r.input = CharStream.index s + n)
    (hposition : r.engine.position = e.position.advance ((src.drop (CharStream.index s)).take n))
    (hcontext : r.context = (Action.applyAll c rule.actions).2)
    (houtcome : r.outcome = (Action.applyAll c rule.actions).1.map fun _ => .matched (asks rule)) :
    ∃ before after, Fires e src s rules c r before rule after n := by
  obtain ⟨before, after, hrules, hfirst⟩ := winner?_first hw
  have hspec := winner?_spec hw
  have hle := winner?_le hw
  rw [List.length_drop] at hle
  refine ⟨before, after, ?_⟩
  constructor
  case rules_eq => exact hrules
  case length_eq =>
    rw [hlen]
    exact hspec.2.1
  case length_pos => exact hspec.2.2
  case longest =>
    intro q hq k hk
    rw [hlen] at hk
    exact winner?_longest hw hq hk
  case first =>
    intro q hq
    rw [hlen]
    exact hfirst q hq
  case index_eq => exact hi
  case index_le =>
    have hpos := hspec.2.2
    omega
  case position_eq => exact hposition
  case ran => exact ⟨_, hcontext ▸ ran_applyAll c rule.actions, houtcome⟩

theorem matchToken_decides [RestingView σ] (h : Rests src s) (e : RuleEngine) (mode : ModeId)
    (c : Context) : Decides e src s mode c (e.matchToken s mode c) := by
  have hP := RestingView.readsOn_rests (σ := σ) src
  have hlen := matchLength_zero hP.toReadsAhead h
  obtain ⟨t, hla, ht, hit⟩ := hP.look h 0
  obtain ⟨u, hmatch, hu, hiu⟩ := matchToken_ahead hP ht hla hit e mode c
  rw [hmatch]
  have hrest (hi : CharStream.index s < src.length) : src.drop (CharStream.index s) ≠ [] := by
    rw [List.drop_eq_getElem_cons hi]
    exact List.cons_ne_nil _ _
  constructor
  case ended =>
    intro hi
    have hd : src.drop (CharStream.index s) = [] := List.drop_eq_nil_of_le (Nat.le_of_eq hi.symm)
    rw [hd, find_nil] at hiu ⊢
    exact ⟨rfl, hiu, rfl, rfl⟩
  case undeclared =>
    intro hi hmode
    rw [find_unknown e _ c (hrest hi) hmode] at hiu ⊢
    exact ⟨rfl, hiu, rfl, rfl⟩
  case unmatched =>
    intro m hi hmode hnone
    cases hw : winner? m.rules (src.drop (CharStream.index s)) with
    | none =>
      rw [find_noViable e _ c (hrest hi) hmode hw] at hiu ⊢
      exact ⟨rfl, hiu, rfl, rfl⟩
    | some w =>
      obtain ⟨hq, hk, hpos⟩ := winner?_spec (r := w.1) (n := w.2) hw
      have hz := hnone _ hq _ ((hlen _).trans hk)
      omega
  case fired =>
    rintro m hi hmode ⟨q, hq, k, hk, hpos⟩
    cases hw : winner? m.rules (src.drop (CharStream.index s)) with
    | none =>
      have hz := length_of_winner?_none hw hq ((hlen _).symm.trans hk)
      omega
    | some w =>
      obtain ⟨rule, n⟩ := w
      rw [find_winner e _ c (hrest hi) hmode hw] at hiu ⊢
      exact ⟨rule, n, fires_of_winner? hlen hw hiu rfl rfl rfl⟩
  case engine_eq => exact find_engine e _ _ mode c
  case rests => exact hu

/-- A keyword and the words, in the order of their declaration. -/
def keywords : Grammar :=
  ⟨"Keywords", [⟨"MAIN",
    [⟨"IF", some ⟨1⟩, .literal ['i', 'f'], []⟩,
      ⟨"WORD", some ⟨2⟩, .set ⟨[('a', 'z')], false⟩ 1 none, [.channel .hidden]⟩]⟩]⟩

/-- A window that was looked at up to the second character, on a word that begins with a keyword. -/
theorem matchToken_decides_keywords :
    Rests "iffy".toList (WindowStream.asked "iffy" "inline" [.look 2]).stream ∧
      Decides (.ofGrammar keywords) "iffy".toList
        (WindowStream.asked "iffy" "inline" [.look 2]).stream .default .initial
        (matchToken (.ofGrammar keywords) (WindowStream.asked "iffy" "inline" [.look 2]).stream
          .default .initial) := by
  have h : Rests "iffy".toList (WindowStream.asked "iffy" "inline" [.look 2]).stream :=
    (WindowStream.represents_ofString "iffy" "inline").la 2
  exact ⟨h, matchToken_decides h _ _ _⟩

end RuleEngine

end ModalLex

import Mathlib.Data.List.MinMax
import ModalLex.Engine.Rules
import ModalLex.Proofs.Pattern.Length

/-!
# What the rule engine finds

Among the rules of a mode the first of those that take the most characters wins. What the
engine answers, what it does to the context and how far it steps are a function of the
characters left; over every stream that shows the text it steps exactly that far.
-/
namespace ModalLex

open TextView

/-- The rules that take a character or more from the front of `rest`, each with its length. -/
def candidates (rules : List Rule) (rest : List Char) : List (Rule × Nat) :=
  rules.filterMap fun r => ((r.pattern.lengthOn rest).filter (0 < ·)).map (r, ·)

/-- The first rule among those that take the most characters, with its length. -/
def winner? (rules : List Rule) (rest : List Char) : Option (Rule × Nat) :=
  (candidates rules rest).argmax Prod.snd

theorem mem_candidates {rules : List Rule} {rest : List Char} {r : Rule} {n : Nat} :
    (r, n) ∈ candidates rules rest ↔
      r ∈ rules ∧ r.pattern.lengthOn rest = some n ∧ 0 < n := by
  simp only [candidates, List.mem_filterMap, Option.map_eq_some_iff, Option.filter_eq_some_iff,
    decide_eq_true_eq, Prod.mk.injEq]
  constructor
  · rintro ⟨r', hr, m, ⟨hm, hp⟩, rfl, rfl⟩
    exact ⟨hr, hm, hp⟩
  · rintro ⟨hr, hm, hp⟩
    exact ⟨r, hr, n, ⟨hm, hp⟩, rfl, rfl⟩

/-- The winner is a rule of the mode that takes this many characters, and at least one. -/
theorem winner?_spec {rules : List Rule} {rest : List Char} {r : Rule} {n : Nat}
    (h : winner? rules rest = some (r, n)) :
    r ∈ rules ∧ r.pattern.lengthOn rest = some n ∧ 0 < n :=
  mem_candidates.mp (List.argmax_mem h)

theorem winner?_le {rules : List Rule} {rest : List Char} {r : Rule} {n : Nat}
    (h : winner? rules rest = some (r, n)) : n ≤ rest.length :=
  Pattern.lengthOn_le _ (winner?_spec h).2.1

theorem winner?_take_ne {rules : List Rule} {rest : List Char} {r : Rule} {n : Nat}
    (h : winner? rules rest = some (r, n)) : rest.take n ≠ [] := by
  have hn := (winner?_spec h).2.2
  have hl := winner?_le h
  rw [← List.length_pos_iff, List.length_take]
  omega

/-- Where there is no winner no rule takes a character. -/
theorem length_of_winner?_none {rules : List Rule} {rest : List Char}
    (h : winner? rules rest = none) {r : Rule} (hr : r ∈ rules) {n : Nat}
    (hn : r.pattern.lengthOn rest = some n) : n = 0 := by
  by_contra hpos
  have hmem := mem_candidates.mpr ⟨hr, hn, Nat.pos_of_ne_zero hpos⟩
  rw [List.argmax_eq_none.mp h] at hmem
  exact List.not_mem_nil hmem

@[simp]
theorem winner?_nil (rules : List Rule) : winner? rules [] = none := by
  rcases h : winner? rules [] with _ | ⟨r, n⟩
  · rfl
  · have hle := winner?_le h
    have hpos := (winner?_spec h).2.2
    rw [List.length_nil] at hle
    omega

theorem winner?_drop_lt {rules : List Rule} {rest : List Char} {r : Rule} {n : Nat}
    (h : winner? rules rest = some (r, n)) : (rest.drop n).length < rest.length := by
  have hn := (winner?_spec h).2.2
  have hl := winner?_le h
  rw [List.length_drop]
  omega

namespace Position

def advance (p : Position) (chars : List Char) : Position :=
  chars.foldl (fun p c => p.after (some c)) p

@[simp]
theorem advance_nil (p : Position) : p.advance [] = p := rfl

@[simp]
theorem advance_append (p : Position) (as bs : List Char) :
    p.advance (as ++ bs) = (p.advance as).advance bs :=
  List.foldl_append

@[simp]
theorem advance_cons (p : Position) (c : Char) (chars : List Char) :
    p.advance (c :: chars) = (p.after (some c)).advance chars := rfl

variable {σ : Type} [CharStream σ] {src : List Char} {P : σ → Prop} {s : σ}

theorem consume_ahead (hP : ReadsOn src P) (h : P s) (p : Position)
    (hi : CharStream.index s < src.length) :
    ∃ s', p.consume s = (.ok (), p.after (some src[CharStream.index s]), s') ∧ P s' ∧
      CharStream.index s' = CharStream.index s + 1 := by
  obtain ⟨t, hla, ht, hit⟩ := hP.look h 0
  obtain ⟨u, hc, hu, hiu⟩ := hP.step ht (by rw [hit]; exact hi)
  refine ⟨u, ?_, hu, by rw [hiu, hit]⟩
  rw [consume, show CharStream.la s 1 = _ from hla, Nat.add_zero, List.getElem?_eq_getElem hi]
  simp only [hc]

/-- Stepping over characters that are there succeeds, and the position follows. -/
theorem consumeMany_ahead (hP : ReadsOn src P) (h : P s) (p : Position) (n : Nat)
    (hn : CharStream.index s + n ≤ src.length) :
    ∃ s', consumeMany n p s =
        (.ok (), p.advance ((src.drop (CharStream.index s)).take n), s') ∧ P s' ∧
      CharStream.index s' = CharStream.index s + n := by
  induction n generalizing p s with
  | zero => exact ⟨s, by simp [consumeMany], h, rfl⟩
  | succ n ih =>
    have hi : CharStream.index s < src.length := by omega
    obtain ⟨t, hc, ht, hit⟩ := consume_ahead hP h p hi
    obtain ⟨u, hu, hPu, hiu⟩ := ih ht (p.after (some src[CharStream.index s])) (by omega)
    refine ⟨u, ?_, hPu, by omega⟩
    rw [consumeMany, hc, List.drop_eq_getElem_cons hi, List.take_succ_cons, advance_cons]
    simp only [hu, hit]

/-- A step over a stream that shows the text. -/
theorem consume_eq [LawfulView σ] {kept : Nat} (h : Shows src kept s) (p : Position)
    (hi : CharStream.index s < src.length) :
    ∃ s', p.consume s = (.ok (), p.after (some src[CharStream.index s]), s') ∧
      Moved src kept s 1 s' := by
  obtain ⟨t, ht, ⟨hshows, hreach⟩, hit⟩ :=
    consume_ahead (LawfulView.readsOn src kept (reach s)) ⟨h, Nat.le_refl _⟩ p hi
  exact ⟨t, ht, hshows, hit, hreach⟩

end Position

namespace RuleEngine

variable {σ : Type} [CharStream σ] {src : List Char} {P : σ → Prop} {s : σ}

theorem better_some (best : Option (Rule × Nat)) (r : Rule) {n : Nat} (hn : 0 < n) :
    better best r (some n) = List.argAux (fun b c => c.2 < b.2) best (r, n) := by
  have hz : n ≠ 0 := Nat.ne_of_gt hn
  cases best <;> simp [better, List.argAux, hz]

/-- Going through the rules in order keeps the first of the longest. -/
theorem longest_foldl (hP : ReadsAhead src P) (h : P s) (best : Option (Rule × Nat))
    (rules : List Rule) :
    ∃ s', longest best s rules =
        ((candidates rules (src.drop (CharStream.index s))).foldl
          (List.argAux fun b c => c.2 < b.2) best, s') ∧
      P s' ∧ CharStream.index s' = CharStream.index s := by
  induction rules generalizing s best with
  | nil => exact ⟨s, rfl, h, rfl⟩
  | cons r rules ih =>
    obtain ⟨t, ht, hPt, hit⟩ := Pattern.matchLength_ahead hP h 0 r.pattern
    obtain ⟨u, hu, hPu, hiu⟩ :=
      ih hPt (better best r (r.pattern.lengthOn (src.drop (CharStream.index s))))
    refine ⟨u, ?_, hPu, hiu.trans hit⟩
    rw [Nat.add_zero] at ht
    rw [hit] at hu
    rw [longest, show ((0 : Int) = ((0 : Nat) : Int)) from rfl, ht]
    simp only [hu, candidates, List.filterMap_cons]
    cases r.pattern.lengthOn (src.drop (CharStream.index s)) with
    | none => rfl
    | some n =>
      -- An empty match never wins, and it is no candidate.
      rcases Nat.eq_zero_or_pos n with rfl | hn
      · rfl
      · rw [better_some best r hn, Option.filter_some_pos (by simpa using hn)]
        rfl

theorem longest_ahead (hP : ReadsAhead src P) (h : P s) (rules : List Rule) :
    ∃ s', longest none s rules = (winner? rules (src.drop (CharStream.index s)), s') ∧
      P s' ∧ CharStream.index s' = CharStream.index s :=
  longest_foldl hP h none rules

theorem longest_eq [LawfulView σ] {kept : Nat} (h : Shows src kept s) (rules : List Rule) :
    ∃ s', longest none s rules = (winner? rules (src.drop (CharStream.index s)), s') ∧
      Moved src kept s 0 s' := by
  have hP := (LawfulView.readsOn (σ := σ) src kept (reach s)).toReadsAhead
  obtain ⟨t, ht, ⟨hshows, hreach⟩, hi⟩ := longest_ahead hP ⟨h, Nat.le_refl _⟩ rules
  exact ⟨t, ht, hshows, hi, hreach⟩

/-- What matching finds: the answer, what it leaves behind, and how many characters it takes. -/
structure Finding where
  outcome : Except LexError MatchOutcome
  engine : RuleEngine
  context : Context
  taken : Nat

/-- What the engine finds at `index`, where `rest` is what is left of the text. -/
def find (e : RuleEngine) (index : Nat) (rest : List Char) (mode : ModeId) (context : Context) :
    Finding :=
  let e := { e with start := index }
  if rest.isEmpty then ⟨.ok (.matched (.valid .eof)), e, context, 0⟩
  else
    match e.grammar.mode? mode with
    | none => ⟨.error (.illegalState (.unknownMode mode)), e, context, 0⟩
    | some m =>
      match winner? m.rules rest with
      | none => ⟨.ok (.noViable index index), e, context, 0⟩
      | some (rule, n) =>
        let r := Action.applyAll context rule.actions
        ⟨r.1.map fun _ => .matched (asks rule),
          { e with position := e.position.advance (rest.take n) }, r.2, n⟩

section

variable (e : RuleEngine) (index : Nat) {rest : List Char} {mode : ModeId} (context : Context)

theorem find_nil : e.find index [] mode context =
    ⟨.ok (.matched (.valid .eof)), { e with start := index }, context, 0⟩ := rfl

theorem find_unknown (hr : rest ≠ []) (hm : e.grammar.mode? mode = none) :
    e.find index rest mode context =
      ⟨.error (.illegalState (.unknownMode mode)), { e with start := index }, context, 0⟩ := by
  simp [find, hr, hm]

theorem find_noViable (hr : rest ≠ []) {m : Mode} (hm : e.grammar.mode? mode = some m)
    (hw : winner? m.rules rest = none) :
    e.find index rest mode context =
      ⟨.ok (.noViable index index), { e with start := index }, context, 0⟩ := by
  simp [find, hr, hm, hw]

theorem find_winner (hr : rest ≠ []) {m : Mode} (hm : e.grammar.mode? mode = some m)
    {r : Rule} {n : Nat} (hw : winner? m.rules rest = some (r, n)) :
    e.find index rest mode context =
      ⟨(Action.applyAll context r.actions).1.map fun _ => .matched (asks r),
        { e with start := index, position := e.position.advance (rest.take n) },
        (Action.applyAll context r.actions).2, n⟩ := by
  simp [find, hr, hm, hw]

/-- Where nothing matches the engine takes nothing, and there are characters left. -/
theorem find_quiet (rest : List Char) (mode : ModeId) (from_ at_ : Nat)
    (h : (e.find index rest mode context).outcome = .ok (.noViable from_ at_)) :
    (e.find index rest mode context).taken = 0 ∧ 0 < rest.length := by
  by_cases hr : rest = []
  · subst hr
    rw [find_nil] at h
    cases h
  refine ⟨?_, List.length_pos_iff.mpr hr⟩
  cases hm : e.grammar.mode? mode with
  | none => rw [find_unknown e index context hr hm]
  | some m =>
    cases hw : winner? m.rules rest with
    | none => rw [find_noViable e index context hr hm hw]
    | some w =>
      rw [find_winner e index context hr hm hw] at h
      rcases hc : (Action.applyAll context w.1.actions).1 with _ | _ <;> simp [hc, Except.map] at h

end

/-- Once the next character is looked at, the engine finds what `find` finds and steps over what it
takes. -/
theorem matchToken_ahead (hP : ReadsOn src P) {s t : σ} (ht : P t)
    (hla : CharStream.la s 1 = (src[CharStream.index s]?, t))
    (hit : CharStream.index t = CharStream.index s) (e : RuleEngine) (mode : ModeId)
    (context : Context) :
    let f := e.find (CharStream.index s) (src.drop (CharStream.index s)) mode context
    ∃ s', e.matchToken s mode context = ⟨f.outcome, f.engine, s', f.context⟩ ∧ P s' ∧
      CharStream.index s' = CharStream.index s + f.taken := by
  rw [matchToken, hla]
  by_cases hi : CharStream.index s < src.length
  · have hd : src.drop (CharStream.index s) ≠ [] := by
      rw [List.drop_eq_getElem_cons hi]
      exact List.cons_ne_nil _ _
    rw [List.getElem?_eq_getElem hi]
    cases hmode : e.grammar.mode? mode with
    | none =>
      rw [find_unknown e _ context hd hmode]
      exact ⟨t, rfl, ht, hit⟩
    | some m =>
      obtain ⟨u, hu, hPu, hiu⟩ := longest_ahead hP.toReadsAhead ht m.rules
      rw [hit] at hu hiu
      cases hw : winner? m.rules (src.drop (CharStream.index s)) with
      | none =>
        rw [find_noViable e _ context hd hmode hw]
        refine ⟨u, ?_, hPu, hiu⟩
        simp only [hu, hw, hiu]
      | some w =>
        obtain ⟨r, n⟩ := w
        have hle := winner?_le hw
        rw [List.length_drop] at hle
        obtain ⟨v, hv, hPv, hiv⟩ := Position.consumeMany_ahead hP hPu e.position n (by omega)
        rw [hiu] at hv hiv
        rw [find_winner e _ context hd hmode hw]
        refine ⟨v, ?_, hPv, hiv⟩
        simp only [hu, hw, accept, hv]
        rcases Action.applyAll context r.actions with ⟨_ | _, c⟩ <;> rfl
  · have hd : src.drop (CharStream.index s) = [] := List.drop_eq_nil_of_le (by omega)
    rw [List.getElem?_eq_none (by omega), hd, find_nil]
    exact ⟨t, rfl, ht, hit⟩

/-- Over a stream that shows a text the engine finds what `find` finds, and steps over what it
takes. Where characters are left it has read the next one. -/
theorem matchToken_eq [LawfulView σ] {kept : Nat} (h : Shows src kept s) (e : RuleEngine)
    (mode : ModeId) (context : Context) :
    let f := e.find (CharStream.index s) (src.drop (CharStream.index s)) mode context
    ∃ s', e.matchToken s mode context = ⟨f.outcome, f.engine, s', f.context⟩ ∧
      Moved src kept s f.taken s' ∧
      (CharStream.index s < src.length → CharStream.index s < reach s') := by
  obtain ⟨t, hla, hm, hr⟩ := LawfulView.look_next h
  have hP := LawfulView.readsOn (σ := σ) src kept (reach t)
  obtain ⟨u, hu, ⟨hshows, hreach⟩, hi⟩ :=
    matchToken_ahead hP ⟨hm.shows, Nat.le_refl _⟩ hla hm.index_look e mode context
  refine ⟨u, hu, ⟨hshows, hi, Nat.le_trans hm.reach_le hreach⟩, fun hlt => ?_⟩
  exact Nat.lt_of_lt_of_le (hr hlt) hreach

end RuleEngine

end ModalLex

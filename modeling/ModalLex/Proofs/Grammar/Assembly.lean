import Mathlib.Data.List.Forall2
import ModalLex.Grammar.Spec

/-!
# Specifications put together call by call

A specification may be put together piece by piece: its patterns by the functions that make them,
its rules by a first call and one for each action, and its modes by declaring each and adding its
rules. However that is done, the specification that was meant comes out.
-/
namespace ModalLex

/-- A pattern and the calls that may make it. A set has a call of its own for some of its bounds. -/
inductive PatternSpec.Assembled : PatternSpec → PatternSpec → Prop
  | literal (text : String) : Assembled (.literal text) (.literal text)
  | repeated (s : SetSpec) : Assembled (.set s) (repeated s.chars s.negated s.min s.max)
  | oneOrMore (chars : String) : Assembled (.set ⟨chars, false, 1, none⟩) (oneOrMore chars)
  | noneOf (chars : String) : Assembled (.set ⟨chars, true, 1, none⟩) (noneOf chars)
  | oneOf (chars : String) : Assembled (.set ⟨chars, false, 1, some 1⟩) (oneOf chars)
  | seq {parts built : List PatternSpec} (h : List.Forall₂ Assembled parts built) :
      Assembled (.seq parts) (.seq built)

inductive RuleSpec.Assembled : RuleSpec → RuleSpec → Prop
  | token {name : String} {kind : TokenKind} {p q : PatternSpec} (hp : p.Assembled q)
      (actions : List ActionSpec) :
      Assembled ⟨name, some kind, p, actions⟩ (actions.foldl withAction (token name kind q))
  | fragment {name : String} {p q : PatternSpec} (hp : p.Assembled q)
      (actions : List ActionSpec) :
      Assembled ⟨name, none, p, actions⟩ (actions.foldl withAction (fragment name q))

/-- A call that puts a specification together. -/
inductive SpecCall where
  | mode (name : String)
  | rule (r : RuleSpec)

def GrammarSpec.call (g : GrammarSpec) : SpecCall → GrammarSpec
  | .mode name => g.addMode name
  | .rule r => g.addRule r

/-- The calls that declare modes and add their rules. -/
inductive ModeSpec.Calls : List ModeSpec → List SpecCall → Prop
  | nil : Calls [] []
  | cons {m : ModeSpec} {rest : List ModeSpec} {rules : List RuleSpec} {calls : List SpecCall}
      (hr : List.Forall₂ RuleSpec.Assembled m.rules rules) (h : Calls rest calls) :
      Calls (m :: rest) (.mode m.name :: (rules.map .rule ++ calls))

/-- A specification and what calls make of it. A first mode that has rules need not be declared if
its name is that of the mode which a first rule declares. -/
inductive GrammarSpec.Assembled (g : GrammarSpec) : GrammarSpec → Prop
  | declared {calls : List SpecCall} (h : ModeSpec.Calls g.modes calls) :
      Assembled g (calls.foldl call (empty g.name))
  | undeclared {r : RuleSpec} {calls : List SpecCall}
      (h : ModeSpec.Calls g.modes (.mode "DEFAULT" :: .rule r :: calls)) :
      Assembled g ((.rule r :: calls).foldl call (empty g.name))

theorem eq_of_forall₂ {α : Type} {R : α → α → Prop} {as bs : List α} (h : List.Forall₂ R as bs)
    (hR : ∀ a ∈ as, ∀ b, R a b → b = a) : bs = as := by
  induction h with
  | nil => rfl
  | @cons a b as bs hab _ ih =>
    rw [hR a List.mem_cons_self b hab, ih fun a ha => hR a (List.mem_cons_of_mem _ ha)]

namespace PatternSpec

theorem Assembled.eq : ∀ {p q : PatternSpec}, p.Assembled q → q = p
  | _, _, .literal _ => rfl
  | _, _, .repeated _ => rfl
  | _, _, .oneOrMore _ => rfl
  | _, _, .noneOf _ => rfl
  | _, _, .oneOf _ => rfl
  | .seq parts, _, .seq h => by
    rw [eq_of_forall₂ h fun p _ q hq => Assembled.eq hq]

theorem Assembled.refl : ∀ p : PatternSpec, p.Assembled p
  | .literal text => .literal text
  | .set s => .repeated s
  | .seq parts => .seq (List.forall₂_same.mpr fun p _ => Assembled.refl p)

end PatternSpec

namespace RuleSpec

theorem foldl_withAction (r : RuleSpec) (actions : List ActionSpec) :
    actions.foldl withAction r = { r with actions := r.actions ++ actions } := by
  induction actions generalizing r with
  | nil => rw [List.foldl_nil, List.append_nil]
  | cons a actions ih =>
    rw [List.foldl_cons, ih, withAction, List.append_assoc, List.singleton_append]

theorem Assembled.eq {r s : RuleSpec} (h : r.Assembled s) : s = r := by
  cases h with
  | token hp actions =>
    rw [foldl_withAction, hp.eq]
    rfl
  | fragment hp actions =>
    rw [foldl_withAction, hp.eq]
    rfl

theorem Assembled.refl (r : RuleSpec) : r.Assembled r := by
  obtain ⟨name, kind, p, actions⟩ := r
  cases kind with
  | none =>
    have h : Assembled ⟨name, none, p, actions⟩ _ := .fragment (.refl p) actions
    rwa [foldl_withAction] at h
  | some kind =>
    have h : Assembled ⟨name, some kind, p, actions⟩ _ := .token (.refl p) actions
    rwa [foldl_withAction] at h

end RuleSpec

namespace GrammarSpec

/-- Rules that are added go to the mode declared last. -/
theorem foldl_rules (g : GrammarSpec) (before : List ModeSpec) (m : ModeSpec)
    (rules : List RuleSpec) :
    (rules.map SpecCall.rule).foldl call { g with modes := before ++ [m] } =
      { g with modes := before ++ [{ m with rules := m.rules ++ rules }] } := by
  induction rules generalizing m with
  | nil => rw [List.map_nil, List.foldl_nil, List.append_nil]
  | cons r rules ih =>
    have hadd : addRule { g with modes := before ++ [m] } r =
        { g with modes := before ++ [{ m with rules := m.rules ++ [r] }] } := by
      rw [addRule, List.getLast?_concat, List.dropLast_concat]
    rw [List.map_cons, List.foldl_cons, call, hadd, ih, List.append_assoc, List.singleton_append]

theorem foldl_calls {modes : List ModeSpec} {calls : List SpecCall} (h : ModeSpec.Calls modes calls)
    (g : GrammarSpec) : calls.foldl call g = { g with modes := g.modes ++ modes } := by
  induction h generalizing g with
  | nil => rw [List.foldl_nil, List.append_nil]
  | @cons m rest rules calls hr _ ih =>
    rw [eq_of_forall₂ hr fun r _ s hs => hs.eq, List.foldl_cons, List.foldl_append, call, addMode,
      foldl_rules g g.modes, ih, List.append_assoc]
    rfl

theorem Assembled.eq {g built : GrammarSpec} (h : g.Assembled built) : built = g := by
  cases h with
  | declared h => exact foldl_calls h (empty g.name)
  | undeclared h =>
    -- The first rule declares the mode that the call left out would have.
    exact foldl_calls h (empty g.name)

theorem exists_assembled (g : GrammarSpec) : ∃ built, g.Assembled built := by
  have hcalls (modes : List ModeSpec) : ∃ calls, ModeSpec.Calls modes calls := by
    induction modes with
    | nil => exact ⟨[], .nil⟩
    | cons m modes ih =>
      obtain ⟨calls, h⟩ := ih
      exact ⟨_, .cons (List.forall₂_same.mpr fun r _ => .refl r) h⟩
  obtain ⟨calls, h⟩ := hcalls g.modes
  exact ⟨_, .declared h⟩

end GrammarSpec

end ModalLex

import Mathlib.Data.List.Forall2
import ModalLex.Grammar.Compile

/-!
# What compilation guarantees

A compiled grammar has a mode to start in, declares every mode that its rules enter, and gives
its rules no reserved kinds. The actions of a rule are not checked further: an action may
still assign any kind whatever.
-/
namespace ModalLex

def Action.target? : Action → Option ModeId
  | .pushMode m | .mode m => some m
  | .skip | .more | .popMode | .kind _ | .channel _ | .text _ => none

/-- What every use of a grammar may rely on. -/
structure Grammar.Sound (g : Grammar) : Prop where
  start_declared : ModeId.default.index < g.modes.length
  target_declared : ∀ r ∈ g.rules, ∀ a ∈ r.actions, ∀ m,
    a.target? = some m → m.index < g.modes.length
  kind_ge : ∀ r ∈ g.rules, ∀ k, r.kind = some k → TokenKind.minUser.code ≤ k.code

/-- No action makes an end token of what a rule takes. -/
def Grammar.NeverAssignsEof (g : Grammar) : Prop :=
  ∀ r ∈ g.rules, Action.kind .eof ∉ r.actions

/-- The rules of a mode; none if it is not declared. -/
def Grammar.rulesOf (g : Grammar) (mode : ModeId) : List Rule :=
  match g.mode? mode with
  | none => []
  | some m => m.rules

theorem Grammar.rulesOf_subset (g : Grammar) (mode : ModeId) : g.rulesOf mode ⊆ g.rules := by
  intro r hr
  unfold rulesOf at hr
  split at hr
  · contradiction
  · rename_i m hm
    exact List.mem_flatMap.mpr ⟨m, List.mem_of_getElem? hm, hr⟩

section

variable {α β ε : Type}

theorem bind_ok {x : Except ε α} {f : α → Except ε β} {b : β} (h : x >>= f = .ok b) :
    ∃ a, x = .ok a ∧ f a = .ok b := by
  cases x with
  | error e => contradiction
  | ok a => exact ⟨a, rfl, h⟩

theorem map_ok {x : Except ε α} {f : α → β} {b : β} (h : x.map f = .ok b) :
    ∃ a, x = .ok a ∧ f a = b := by
  cases x with
  | error e => contradiction
  | ok a => exact ⟨a, rfl, Except.ok.inj h⟩

/-- A traversal that succeeds has turned each element into the result at its place. -/
theorem forall₂_of_mapM {f : α → Except ε β} {xs : List α} {ys : List β}
    (h : xs.mapM f = .ok ys) : List.Forall₂ (fun x y => f x = .ok y) xs ys := by
  induction xs generalizing ys with
  | nil =>
    obtain rfl := Except.ok.inj h
    exact .nil
  | cons x xs ih =>
    rw [List.mapM_cons] at h
    obtain ⟨y, hy, h⟩ := bind_ok h
    obtain ⟨zs, hzs, h⟩ := bind_ok h
    obtain rfl := Except.ok.inj h
    exact .cons hy (ih hzs)

/-- The results of a traversal are as many as its elements, and each is one element's. -/
theorem mapM_results {f : α → Except ε β} {xs : List α} {ys : List β} (h : xs.mapM f = .ok ys) :
    ys.length = xs.length ∧ ∀ y ∈ ys, ∃ x ∈ xs, f x = .ok y := by
  have hall := forall₂_of_mapM h
  refine ⟨hall.length_eq.symm, fun y hy => ?_⟩
  obtain ⟨i, hi, rfl⟩ := List.getElem_of_mem hy
  exact ⟨_, List.getElem_mem (hall.length_eq ▸ hi), hall.get _ hi⟩

end

variable {names : List String}

theorem resolveMode_lt {rule mode : String} {m : ModeId} (h : resolveMode names rule mode = .ok m) :
    m.index < names.length := by
  unfold resolveMode at h
  split at h
  · contradiction
  · rename_i hi
    obtain rfl := Except.ok.inj h
    exact (List.idxOf?_eq_some_iff.mp hi).1

theorem ActionSpec.compile_target {rule : String} {s : ActionSpec} {a : Action}
    (h : s.compile names rule = .ok a) {m : ModeId} (hm : a.target? = some m) :
    m.index < names.length := by
  cases s with
  | pushMode name | mode name =>
    obtain ⟨id, hr, rfl⟩ := map_ok h
    obtain rfl := Option.some.inj hm
    exact resolveMode_lt hr
  | _ =>
    obtain rfl := Except.ok.inj h
    contradiction

theorem RuleSpec.checkKind_ge {s : RuleSpec} (h : s.checkKind = .ok ()) {k : TokenKind}
    (hk : s.kind = some k) : TokenKind.minUser.code ≤ k.code := by
  simp only [checkKind, hk] at h
  split at h
  · contradiction
  · rename_i hn
    exact Int32.not_lt.mp hn

/-- What a compiled rule inherits from the checks on its specification. -/
theorem RuleSpec.compile_sound {s : RuleSpec} {r : Rule} (h : s.compile names = .ok r) :
    (∀ a ∈ r.actions, ∀ m, a.target? = some m → m.index < names.length) ∧
      ∀ k, r.kind = some k → TokenKind.minUser.code ≤ k.code := by
  rw [RuleSpec.compile] at h
  obtain ⟨actions, ha, h⟩ := bind_ok h
  obtain ⟨_, hk, h⟩ := bind_ok h
  obtain ⟨pattern, hp, h⟩ := bind_ok h
  obtain rfl := Except.ok.inj h
  constructor
  · intro a hm m ht
    obtain ⟨_, _, hc⟩ := (mapM_results ha).2 a hm
    exact ActionSpec.compile_target hc ht
  · intro k hr
    exact checkKind_ge hk hr

theorem ModeSpec.compile_rules {s : ModeSpec} {m : Mode} (h : s.compile names = .ok m) :
    ∀ r ∈ m.rules, ∃ t : RuleSpec, t.compile names = .ok r := by
  rw [ModeSpec.compile] at h
  obtain ⟨rules, hr, h⟩ := bind_ok h
  obtain rfl := Except.ok.inj h
  intro r hm
  obtain ⟨t, _, ht⟩ := (mapM_results hr).2 r hm
  exact ⟨t, ht⟩

/-- The grammar of a specification has a mode per mode of it, and at least one. -/
theorem GrammarSpec.compile_modes {spec : GrammarSpec} {g : Grammar} (h : spec.compile = .ok g) :
    spec.modes ≠ [] ∧
      spec.modes.mapM (ModeSpec.compile (spec.modes.map ModeSpec.name)) = .ok g.modes := by
  unfold GrammarSpec.compile at h
  dsimp only at h
  split at h
  · contradiction
  · rename_i he
    split at h
    · contradiction
    · obtain ⟨modes, hm, h⟩ := bind_ok h
      obtain rfl := Except.ok.inj h
      exact ⟨by simpa using he, hm⟩

theorem GrammarSpec.compile_sound {spec : GrammarSpec} {g : Grammar} (h : spec.compile = .ok g) :
    g.Sound := by
  obtain ⟨hne, hm⟩ := compile_modes h
  obtain ⟨hl, hs⟩ := mapM_results hm
  have hrule : ∀ r ∈ g.rules, ∃ t : RuleSpec,
      t.compile (spec.modes.map ModeSpec.name) = .ok r := by
    intro r hr
    obtain ⟨m, hmem, hrm⟩ := List.mem_flatMap.mp hr
    obtain ⟨_, _, hc⟩ := hs m hmem
    exact ModeSpec.compile_rules hc r hrm
  have hn : (spec.modes.map ModeSpec.name).length = g.modes.length := by
    rw [List.length_map, hl]
  constructor
  · rw [hl]
    exact List.length_pos_iff.mpr hne
  · intro r hr a ha m ht
    obtain ⟨t, hc⟩ := hrule r hr
    have hlt := (RuleSpec.compile_sound hc).1 a ha m ht
    rwa [hn] at hlt
  · intro r hr k hk
    obtain ⟨t, hc⟩ := hrule r hr
    exact (RuleSpec.compile_sound hc).2 k hk

end ModalLex

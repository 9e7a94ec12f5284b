import Mathlib.Data.List.Induction
import ModalLex.Proofs.Grammar.Validity

/-!
# The names of kinds

A grammar's table of names is made rule by rule: it grows as far as a rule's kind, and a slot that
is empty takes the rule's name. Main statement: each kind is named after the first rule that has it
and a name that is not empty, in the order of declaration across all modes, and the table shows
nothing else of the rules.
-/
namespace ModalLex

/-- The slot of the table that a kind has. -/
def TokenKind.slot (k : TokenKind) : Nat := k.code.toInt.toNat

theorem TokenKind.slot_pos {k : TokenKind} (h : TokenKind.minUser.code ≤ k.code) : 1 ≤ k.slot := by
  have hle : (1 : Int) ≤ k.code.toInt := Int32.le_iff_toInt_le.mp h
  rw [slot]
  omega

/-- A kind that a rule has, with the name of the rule. -/
abbrev KindLabel := TokenKind × String

def Rule.label? (r : Rule) : Option KindLabel := r.kind.map (·, r.name)

def RuleSpec.label? (r : RuleSpec) : Option KindLabel := r.kind.map (·, r.name)

/-- The kinds of the rules that have one, in the order of declaration across all modes. -/
def GrammarSpec.labels (g : GrammarSpec) : List KindLabel := g.rules.filterMap RuleSpec.label?

namespace KindNames

/-- The largest slot of a kind; 0 if there is no kind. -/
def largest (labels : List KindLabel) : Nat := (labels.map (·.1.slot)).foldl max 0

/-- The names of the rules whose kind has this slot. -/
def namesAt (labels : List KindLabel) (slot : Nat) : List String :=
  (labels.filter (·.1.slot = slot)).map Prod.snd

/-- The first name of a kind that is not empty; an empty name if there is none. -/
def firstName (labels : List KindLabel) (slot : Nat) : String :=
  ((namesAt labels slot).find? (· ≠ "")).getD ""

variable {labels labels' : List KindLabel} {l : KindLabel} {names names' : KindNames} {rule : Rule}
  {kind : TokenKind} {slot : Nat}

theorem largest_concat (labels : List KindLabel) (l : KindLabel) :
    largest (labels ++ [l]) = max (largest labels) l.1.slot := by
  rw [largest, List.map_append, List.foldl_append]
  rfl

theorem largest_le {bound : Nat} (h : ∀ l ∈ labels, l.1.slot ≤ bound) : largest labels ≤ bound := by
  induction labels using List.reverseRecOn with
  | nil => exact Nat.zero_le _
  | append_singleton labels l ih =>
    rw [List.forall_mem_append] at h
    rw [largest_concat]
    exact Nat.max_le.mpr ⟨ih h.1, h.2 l (List.mem_singleton_self l)⟩

theorem le_largest (h : l ∈ labels) : l.1.slot ≤ largest labels := by
  induction labels using List.reverseRecOn with
  | nil => exact absurd h List.not_mem_nil
  | append_singleton labels l' ih =>
    rw [largest_concat]
    rcases List.mem_append.mp h with hold | hnew
    · exact Nat.le_trans (ih hold) (Nat.le_max_left _ _)
    · obtain rfl := List.mem_singleton.mp hnew
      exact Nat.le_max_right _ _

theorem namesAt_concat (labels : List KindLabel) (l : KindLabel) (slot : Nat) :
    namesAt (labels ++ [l]) slot =
      namesAt labels slot ++ if l.1.slot = slot then [l.2] else [] := by
  rw [namesAt, List.filter_append, List.map_append]
  congr 1
  by_cases hl : l.1.slot = slot
  · simp [hl]
  · simp [hl]

/-- One more rule names its kind if the kind has no name yet. -/
theorem firstName_concat (labels : List KindLabel) (l : KindLabel) (slot : Nat) :
    firstName (labels ++ [l]) slot =
      if l.1.slot = slot ∧ firstName labels slot = "" then l.2 else firstName labels slot := by
  rw [firstName, firstName, namesAt_concat, List.find?_append]
  cases hf : (namesAt labels slot).find? (· ≠ "") with
  | none =>
    rw [Option.none_or, Option.getD_none]
    by_cases hl : l.1.slot = slot
    · by_cases hempty : l.2 = ""
      · simp [hl, hempty]
      · simp [hl, hempty]
    · simp [hl]
  | some name =>
    have hname : name ≠ "" := by simpa using List.find?_some hf
    rw [Option.some_or, Option.getD_some, if_neg fun h => hname h.2]

/-! ## One rule -/

theorem getD_padded (slots : Array String) (n t : Nat) :
    (slots ++ List.replicate n "")[t]?.getD "" = slots[t]?.getD "" := by
  rw [← Array.getElem?_toList, Array.toList_appendList, List.getElem?_append,
    Array.length_toList, Array.getElem?_toList]
  split
  · rfl
  · rename_i hge
    rw [Array.getElem?_eq_none (Nat.le_of_not_lt hge), List.getElem?_replicate]
    split <;> rfl

theorem size_padded (slots : Array String) (n : Nat) :
    (slots ++ List.replicate n "").size = slots.size + n := by
  rw [← Array.length_toList, Array.toList_appendList, List.length_append, Array.length_toList,
    List.length_replicate]

theorem addRule_untyped (h : rule.kind = none) : names.addRule rule = names := by
  rw [addRule, h]

/-- The table reaches as far as the kinds of its rules. -/
theorem size_addRule (h : rule.kind = some kind) :
    (names.addRule rule).slots.size = max names.slots.size (kind.slot + 1) := by
  have hsize := size_padded names.slots (kind.slot + 1 - names.slots.size)
  rw [addRule, h]
  dsimp only
  rw [TokenKind.slot] at hsize ⊢
  split
  · rw [Array.size_setIfInBounds, hsize]
    omega
  · rw [hsize]
    omega

/-- A rule names its kind if the kind has no name yet, and leaves the other names as they are. -/
theorem getD_addRule (h : rule.kind = some kind) (t : Nat) :
    (names.addRule rule).slots[t]?.getD "" =
      if kind.slot = t ∧ names.slots[t]?.getD "" = "" then rule.name
      else names.slots[t]?.getD "" := by
  have hpad := getD_padded names.slots (kind.slot + 1 - names.slots.size)
  have hsize := size_padded names.slots (kind.slot + 1 - names.slots.size)
  rw [addRule, h]
  dsimp only
  rw [← hpad t]
  rw [TokenKind.slot] at hsize ⊢
  generalize names.slots ++ List.replicate _ "" = slots at hsize ⊢
  have hin : kind.code.toInt.toNat < slots.size := by omega
  split
  · rename_i hempty
    dsimp only
    rw [Array.getElem?_setIfInBounds]
    by_cases ht : kind.code.toInt.toNat = t
    · subst ht
      rw [if_pos rfl, if_pos hin, hempty, if_pos ⟨rfl, rfl⟩]
      rfl
    · rw [if_neg ht, if_neg fun h => ht h.1]
  · rename_i hnamed
    rw [if_neg]
    rintro ⟨rfl, hempty⟩
    rw [Array.getElem?_eq_getElem hin] at hnamed hempty
    exact hnamed (congrArg some hempty)

/-! ## All rules -/

/-- The table shows these kinds and names of rules, and no others. -/
structure Tabulates (labels : List KindLabel) (names : KindNames) : Prop where
  size_eq : names.slots.size = 1 + largest labels
  invalid : names.slots[0]? = some "<INVALID>"
  named : ∀ slot, 1 ≤ slot → names.slots[slot]?.getD "" = firstName labels slot

theorem tabulates_initial : Tabulates [] initial where
  size_eq := rfl
  invalid := rfl
  named slot hslot := by
    have hsize : initial.slots.size ≤ slot := hslot
    rw [Array.getElem?_eq_none hsize]
    rfl

theorem Tabulates.addRule (h : Tabulates labels names) (hk : ∀ k, rule.kind = some k → 1 ≤ k.slot) :
    Tabulates (labels ++ rule.label?.toList) (names.addRule rule) := by
  cases hkind : rule.kind with
  | none =>
    rw [addRule_untyped hkind, Rule.label?, hkind, Option.map_none, Option.toList_none,
      List.append_nil]
    exact h
  | some kind =>
    rw [Rule.label?, hkind, Option.map_some, Option.toList_some]
    have hslot := hk kind hkind
    have hget (t : Nat) : (names.addRule rule).slots[t]?.getD "" = _ := getD_addRule hkind t
    constructor
    · rw [size_addRule hkind, h.size_eq, largest_concat]
      change max _ (kind.slot + 1) = 1 + max _ kind.slot
      omega
    · have hzero := hget 0
      rw [if_neg (by omega), h.invalid, Option.getD_some] at hzero
      have hin : 0 < (names.addRule rule).slots.size := by
        rw [size_addRule hkind]
        omega
      rw [Array.getElem?_eq_getElem hin] at hzero ⊢
      exact congrArg some hzero
    · intro t ht
      rw [hget t, h.named t ht, firstName_concat]

theorem tabulates_foldl (rules : List Rule)
    (hk : ∀ r ∈ rules, ∀ k, r.kind = some k → 1 ≤ k.slot) :
    Tabulates (rules.filterMap Rule.label?) (rules.foldl KindNames.addRule initial) := by
  induction rules using List.reverseRecOn with
  | nil => exact tabulates_initial
  | append_singleton rules r ih =>
    rw [List.forall_mem_append] at hk
    have hlast := (ih hk.1).addRule (hk.2 r (List.mem_singleton_self r))
    have hone : [r].filterMap Rule.label? = r.label?.toList := by
      cases hr : r.label? <;> simp [hr]
    rw [List.foldl_append, List.filterMap_append, hone]
    exact hlast

theorem mem_namesAt {name : String} :
    name ∈ namesAt labels slot ↔ ∃ k, (k, name) ∈ labels ∧ k.slot = slot := by
  simp only [namesAt, List.mem_map, List.mem_filter, decide_eq_true_eq]
  constructor
  · rintro ⟨⟨k, n⟩, ⟨hmem, hslot⟩, rfl⟩
    exact ⟨k, hmem, hslot⟩
  · rintro ⟨k, hmem, hslot⟩
    exact ⟨(k, name), ⟨hmem, hslot⟩, rfl⟩

theorem largest_le_of_namesAt (h : ∀ slot, namesAt labels slot = namesAt labels' slot) :
    largest labels ≤ largest labels' := by
  refine largest_le fun l hl => ?_
  have hmem : l.2 ∈ namesAt labels l.1.slot := mem_namesAt.mpr ⟨l.1, hl, rfl⟩
  rw [h] at hmem
  obtain ⟨k, hk, hslot⟩ := mem_namesAt.mp hmem
  rw [← hslot]
  exact le_largest hk

namespace Tabulates

theorem slot_eq (h : Tabulates labels names) (hslot : 1 ≤ slot) (hin : slot < names.slots.size) :
    names.slots[slot]? = some (firstName labels slot) := by
  have hname := h.named slot hslot
  rw [Array.getElem?_eq_getElem hin] at hname ⊢
  exact congrArg some hname

/-- A table is known by the names of each kind alone. -/
theorem eq (h : Tabulates labels names) (h' : Tabulates labels' names')
    (hnames : ∀ slot, namesAt labels slot = namesAt labels' slot) : names = names' := by
  have hsize : names.slots.size = names'.slots.size := by
    have hle := largest_le_of_namesAt hnames
    have hge := largest_le_of_namesAt fun slot => (hnames slot).symm
    rw [h.size_eq, h'.size_eq]
    omega
  have hslots : names.slots = names'.slots := by
    refine Array.ext_getElem? fun i => ?_
    rcases Nat.eq_zero_or_pos i with rfl | hpos
    · rw [h.invalid, h'.invalid]
    · rcases Nat.lt_or_ge i names.slots.size with hin | hout
      · rw [h.slot_eq hpos hin, h'.slot_eq hpos (hsize ▸ hin), firstName, firstName, hnames]
      · rw [Array.getElem?_eq_none hout, Array.getElem?_eq_none (hsize ▸ hout)]
  cases names
  cases names'
  exact congrArg KindNames.mk hslots

end Tabulates

/-- Of the kinds other than that of the end token, the table names those that have a slot with a
name in it. -/
theorem name?_eq_some (hk : kind ≠ .eof) {name : String} :
    names.name? kind = some name ↔
      0 ≤ kind.code.toInt ∧ names.slots[kind.slot]? = some name ∧ name ≠ "" := by
  rw [name?, if_neg hk, ← TokenKind.slot]
  split
  · rename_i hneg
    exact ⟨nofun, fun h => absurd h.1 (Int.not_le.mpr hneg)⟩
  · rename_i hnonneg
    cases names.slots[kind.slot]? with
    | none => exact ⟨nofun, fun h => nomatch h.2.1⟩
    | some found =>
      dsimp only
      split
      · rename_i hempty
        refine ⟨nofun, ?_⟩
        rintro ⟨-, hfound, hname⟩
        exact absurd ((Option.some.inj hfound).symm.trans hempty) hname
      · rename_i hfull
        constructor
        · intro h
          obtain rfl := Option.some.inj h
          exact ⟨Int.not_lt.mp hnonneg, rfl, hfull⟩
        · exact fun h => h.2.1

/-- A kind that rules may have is named after the first of them with a name. -/
theorem Tabulates.name?_user (h : Tabulates labels names)
    (hk : TokenKind.minUser.code ≤ kind.code) :
    names.name? kind = (namesAt labels kind.slot).find? (· ≠ "") := by
  have hslot := TokenKind.slot_pos hk
  have hnonneg : 0 ≤ kind.code.toInt := by
    rw [TokenKind.slot] at hslot
    omega
  have hkind : kind ≠ .eof := by
    rintro rfl
    contradiction
  have hnamed := h.named kind.slot hslot
  rw [firstName] at hnamed
  have hsame {name : String} (hname : name ≠ "") :
      names.slots[kind.slot]? = some name ↔
        (namesAt labels kind.slot).find? (· ≠ "") = some name := by
    have hgetD (o : Option String) : o = some name ↔ o.getD "" = name := by
      rw [Option.getD_eq_iff]
      exact ⟨.inl, fun h => h.resolve_right fun hnone => hname hnone.2.symm⟩
    rw [hgetD, hgetD, hnamed]
  refine Option.ext fun name => ?_
  rw [name?_eq_some hkind]
  constructor
  · rintro ⟨-, hfound, hname⟩
    exact (hsame hname).mp hfound
  · intro hfirst
    have hname : name ≠ "" := by simpa using List.find?_some hfirst
    exact ⟨hnonneg, (hsame hname).mpr hfirst, hname⟩

end KindNames

/-! ## The table of a compiled grammar -/

open KindNames

variable {spec : GrammarSpec} {g : Grammar}

theorem RuleSpec.Becomes.label_eq {s : RuleSpec} {r : Rule} (h : s.Becomes g r) :
    r.label? = s.label? := by
  rw [Rule.label?, RuleSpec.label?, h.kind_eq, h.name_eq]

theorem GrammarSpec.labels_of_compile (h : spec.compile = .ok g) :
    g.rules.filterMap Rule.label? = spec.labels := by
  have hrules : List.Forall₂ (RuleSpec.Becomes g) spec.rules g.rules :=
    List.rel_flatMap (becomes_of_compile h).modes fun _ _ hm => hm.rules
  rw [labels]
  generalize spec.rules = rules, g.rules = compiled at hrules
  induction hrules with
  | nil => rfl
  | @cons s r _ _ hr _ ih =>
    rw [List.filterMap_cons, List.filterMap_cons, hr.label_eq, ih]

theorem GrammarSpec.tabulates_of_compile (h : spec.compile = .ok g) :
    Tabulates spec.labels g.kindNames := by
  rw [← labels_of_compile h]
  refine tabulates_foldl g.rules fun r hr k hk => ?_
  exact TokenKind.slot_pos ((compile_sound h).kind_ge r hr k hk)

namespace GrammarSpec

/-- No kind with a sign reaches the table. -/
theorem kind_ge_of_compile (h : spec.compile = .ok g) :
    ∀ l ∈ spec.labels, TokenKind.minUser.code ≤ l.1.code := by
  intro l hl
  rw [← labels_of_compile h, List.mem_filterMap] at hl
  obtain ⟨r, hr, hlabel⟩ := hl
  obtain ⟨k, hk, rfl⟩ := Option.map_eq_some_iff.mp hlabel
  exact (compile_sound h).kind_ge r hr k hk

/-- What a table of names says of the rules of a specification. -/
structure NamesKinds (spec : GrammarSpec) (names : KindNames) : Prop where
  kind_ge : ∀ l ∈ spec.labels, TokenKind.minUser.code ≤ l.1.code
  size_eq : names.slots.size = 1 + largest spec.labels
  invalid : names.slots[0]? = some "<INVALID>"
  slot_eq : ∀ slot, 1 ≤ slot → slot < names.slots.size →
    names.slots[slot]? = some (firstName spec.labels slot)
  name?_eof : names.name? .eof = some "EOF"
  name?_eq_some : ∀ kind, kind ≠ .eof → ∀ name, names.name? kind = some name ↔
    0 ≤ kind.code.toInt ∧ names.slots[kind.slot]? = some name ∧ name ≠ ""
  name?_user : ∀ kind, TokenKind.minUser.code ≤ kind.code →
    names.name? kind = (namesAt spec.labels kind.slot).find? (· ≠ "")

/-- The table of a compiled grammar reaches as far as the largest kind of a rule, and has in the slot
of a kind the name of the first rule, across all modes, that has the kind and a name that is not
empty. It is the same for all specifications in which the rules of each kind have the same names in
the same order: it does not show patterns, actions, rules without a kind, the modes of the rules, nor
the order in which rules of different kinds are declared. -/
theorem kindNames_of_compile (h : spec.compile = .ok g) :
    spec.NamesKinds g.kindNames ∧
      ∀ (spec' : GrammarSpec) (g' : Grammar), spec'.compile = .ok g' →
        (∀ slot, namesAt spec'.labels slot = namesAt spec.labels slot) →
        g'.kindNames = g.kindNames := by
  have htable := tabulates_of_compile h
  constructor
  · exact {
      kind_ge := kind_ge_of_compile h
      size_eq := htable.size_eq
      invalid := htable.invalid
      slot_eq := fun _ hslot hin => htable.slot_eq hslot hin
      name?_eof := rfl
      name?_eq_some := fun _ hk _ => KindNames.name?_eq_some hk
      name?_user := fun _ hk => htable.name?_user hk }
  · intro spec' g' h' hnames
    exact (tabulates_of_compile h').eq htable hnames

def sheetSpec : GrammarSpec where
  name := "Sheet"
  modes := [
    ⟨"MAIN", [
      .token "" ⟨5⟩ (.literal "="),
      (RuleSpec.token "CELL" ⟨5⟩ (.oneOrMore "a-z")).withAction (.kind ⟨9⟩),
      (RuleSpec.fragment "OPEN" (.literal "(")).withAction .skip |>.withAction
        (.pushMode "INNER")]⟩,
    ⟨"INNER", [.token "NUM" ⟨2⟩ (.oneOrMore "0-9"), .token "REF" ⟨5⟩ (.literal "$")]⟩]

def sheet : Grammar where
  name := "Sheet"
  modes := [
    ⟨"MAIN", [
      ⟨"", some ⟨5⟩, .literal ['='], []⟩,
      ⟨"CELL", some ⟨5⟩, .set ⟨[('a', 'z')], false⟩ 1 none, [.kind ⟨9⟩]⟩,
      ⟨"OPEN", none, .literal ['('], [.skip, .pushMode ⟨1⟩]⟩]⟩,
    ⟨"INNER", [
      ⟨"NUM", some ⟨2⟩, .set ⟨[('0', '9')], false⟩ 1 none, []⟩,
      ⟨"REF", some ⟨5⟩, .literal ['$'], []⟩]⟩]

/-- The kinds of `sheetSpec` in one mode and in another order. -/
def flatSpec : GrammarSpec where
  name := "Flat"
  modes := [
    ⟨"ONLY", [
      .token "NUM" ⟨2⟩ (.literal "1"),
      .token "" ⟨5⟩ (.literal "a"),
      .token "CELL" ⟨5⟩ (.literal "b"),
      .token "REF" ⟨5⟩ (.literal "c")]⟩]

def flat : Grammar where
  name := "Flat"
  modes := [
    ⟨"ONLY", [
      ⟨"NUM", some ⟨2⟩, .literal ['1'], []⟩,
      ⟨"", some ⟨5⟩, .literal ['a'], []⟩,
      ⟨"CELL", some ⟨5⟩, .literal ['b'], []⟩,
      ⟨"REF", some ⟨5⟩, .literal ['c'], []⟩]⟩]

theorem kindNames_of_compile_sheet :
    sheetSpec.compile = .ok sheet ∧ sheetSpec.NamesKinds sheet.kindNames ∧
      sheet.kindNames = ⟨#["<INVALID>", "", "NUM", "", "", "CELL"]⟩ ∧
      flatSpec.compile = .ok flat ∧ flat.kindNames = sheet.kindNames := by
  have h : sheetSpec.compile = .ok sheet := by rfl
  have hflat : flatSpec.compile = .ok flat := by rfl
  obtain ⟨hnames, hsame⟩ := kindNames_of_compile h
  refine ⟨h, hnames, by rfl, hflat, hsame flatSpec flat hflat fun slot => ?_⟩
  have hother (spec : GrammarSpec) (hspec : ∀ l ∈ spec.labels, l.1.slot = 2 ∨ l.1.slot = 5)
      (hslot : ¬(slot = 2 ∨ slot = 5)) : namesAt spec.labels slot = [] := by
    rw [namesAt, List.map_eq_nil_iff, List.filter_eq_nil_iff]
    intro l hl hat
    exact hslot (of_decide_eq_true hat ▸ hspec l hl)
  by_cases hslot : slot = 2 ∨ slot = 5
  · rcases hslot with rfl | rfl
    · rfl
    · rfl
  · rw [hother sheetSpec (by decide) hslot, hother flatSpec (by decide) hslot]

end GrammarSpec

end ModalLex

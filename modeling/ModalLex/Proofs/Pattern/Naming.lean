import ModalLex.Proofs.Pattern.Length

/-!
# Characters that a pattern names

A pattern names a character when it spells it in a literal or lists it in a set that is not negated.
Of the characters above `maxChar` a match takes only those that its pattern names: the bound
holds for negated sets alone.
-/
namespace ModalLex

variable {rest : List Char} {c : Char} {n : Nat}

theorem CharSet.listed_of_wide {s : CharSet} (hc : maxChar < c) (h : s.contains c = true) :
    s.negated = false ∧ s.lists c = true := by
  rw [contains] at h
  split at h
  · rw [Bool.and_eq_true, decide_eq_true_eq] at h
    exact absurd h.2 (Char.not_le.mpr hc)
  · rename_i hn
    exact ⟨Bool.eq_false_iff.mpr hn, h⟩

namespace Pattern

inductive Names (c : Char) : Pattern → Prop
  | spelt {chars : List Char} (hc : c ∈ chars) : Names c (.literal chars)
  | listed {members : CharSet} {min : Nat} {max : Option Nat} (hn : members.negated = false)
      (hc : members.lists c = true) : Names c (.set members min max)
  | part {parts : List Pattern} {p : Pattern} (hp : p ∈ parts) (hc : Names c p) :
      Names c (.seq parts)

theorem take_membersOf (members : CharSet) (limit : Nat) (rest : List Char) :
    rest.take (membersOf members limit rest) = (rest.take limit).takeWhile members.contains := by
  have hwhile := List.takeWhile_prefix (l := rest.take limit) members.contains
  exact (List.prefix_iff_eq_take.mp (hwhile.trans (List.take_prefix limit rest))).symm

mutual

/-- A character above the bound is taken by no pattern that does not name it. -/
theorem names_of_lengthOn (hc : maxChar < c) {rest : List Char} {n : Nat} :
    ∀ p : Pattern, lengthOn rest p = some n → c ∈ rest.take n → Names c p
  | .literal chars, h, hm => by
    rw [lengthOn, Option.ite_none_right_eq_some] at h
    obtain ⟨hp, he⟩ := h
    obtain rfl := Option.some.inj he
    rw [← List.prefix_iff_eq_take.mp (List.isPrefixOf_iff_prefix.mp hp)] at hm
    exact .spelt hm
  | .set members min max, h, hm => by
    rw [lengthOn, Option.ite_none_right_eq_some] at h
    obtain rfl := Option.some.inj h.2
    rw [take_membersOf] at hm
    obtain ⟨hn, hl⟩ := CharSet.listed_of_wide hc
        (List.all_eq_true.mp List.all_takeWhile c hm)
    exact .listed hn hl
  | .seq parts, h, hm => by
    obtain ⟨p, hp, hn⟩ := names_of_lengthsOn hc parts h hm
    exact .part hp hn

theorem names_of_lengthsOn (hc : maxChar < c) {rest : List Char} {n : Nat} :
    ∀ parts : List Pattern, lengthsOn rest parts = some n → c ∈ rest.take n →
      ∃ p ∈ parts, Names c p
  | [], h, hm => by
    obtain rfl := Option.some.inj h
    exact absurd hm List.not_mem_nil
  | p :: parts, h, hm => by
    rw [lengthsOn] at h
    cases hp : lengthOn rest p with
    | none =>
      rw [hp] at h
      contradiction
    | some k =>
      rw [hp] at h
      obtain ⟨m, hm', rfl⟩ := Option.map_eq_some_iff.mp h
      rw [List.take_add, List.mem_append] at hm
      rcases hm with hfirst | hlater
      · exact ⟨p, List.mem_cons_self, names_of_lengthOn hc p hp hfirst⟩
      · obtain ⟨q, hq, hn⟩ := names_of_lengthsOn hc parts hm' hlater
        exact ⟨q, List.mem_cons_of_mem _ hq, hn⟩

end

open TextView in
/-- The same of the matcher, over every stream that shows a text. -/
theorem names_of_matchLength {σ : Type} [CharStream σ] [LawfulView σ] {src : List Char}
    {kept : Nat} {s : σ} (h : Shows src kept s) {p : Pattern} {offset : Nat}
    (hn : (matchLength s (offset : Int) p).1 = some n) (hc : maxChar < c)
    (hm : c ∈ (src.drop (CharStream.index s + offset)).take n) : Names c p := by
  obtain ⟨s', he, -⟩ := matchLength_eq h offset p
  rw [he] at hn
  exact names_of_lengthOn hc p hn hm

end Pattern

end ModalLex

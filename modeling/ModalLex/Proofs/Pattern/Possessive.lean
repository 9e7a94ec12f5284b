import Mathlib.Computability.Language
import ModalLex.Proofs.Pattern.Naming

/-!
# Possessive reading

A pattern describes a language: the text of a literal, a bounded number of members of a set, or the
words of its parts one after the other. It is read from left to right, and a part never gives back
what it took. Main statements: the characters that a pattern takes are read so, part by part, and
are a word of its language; where it takes none, the reading has failed at a literal or at a set.
-/
namespace ModalLex.Pattern

mutual

/-- The words that a pattern describes. -/
def language : Pattern → Language Char
  | .literal chars => {chars}
  | .set members min max =>
    {word | (∀ c ∈ word, members.contains c) ∧ min ≤ word.length ∧ ∀ m ∈ max, word.length ≤ m}
  | .seq parts => languages parts

def languages : List Pattern → Language Char
  | [] => 1
  | p :: parts => language p * languages parts

end

/-- `run` is the longest run of members at the front of `run ++ rest`, of `max` characters at
most. -/
structure LongestRun (members : CharSet) (max : Option Nat) (run rest : List Char) : Prop where
  contains : ∀ c ∈ run, members.contains c
  length_le : ∀ m ∈ max, run.length ≤ m
  longest : ∀ word, word <+: run ++ rest → (∀ c ∈ word, members.contains c) →
    (∀ m ∈ max, word.length ≤ m) → word.length ≤ run.length

mutual

/-- Reading a pattern takes `taken` and leaves `rest`. -/
inductive Takes : (p : Pattern) → (taken rest : List Char) → Prop
  | literal (chars rest : List Char) : Takes (.literal chars) chars rest
  | set {members : CharSet} {min : Nat} {max : Option Nat} {run rest : List Char}
      (hrun : LongestRun members max run rest) (hmin : min ≤ run.length) :
      Takes (.set members min max) run rest
  | seq {parts : List Pattern} {taken rest : List Char} (h : TakesAll parts taken rest) :
      Takes (.seq parts) taken rest

/-- Reading patterns one after the other takes `taken` and leaves `rest`. -/
inductive TakesAll : (parts : List Pattern) → (taken rest : List Char) → Prop
  | nil (rest : List Char) : TakesAll [] [] rest
  | cons {p : Pattern} {parts : List Pattern} {first later rest : List Char}
      (hp : Takes p first (later ++ rest)) (h : TakesAll parts later rest) :
      TakesAll (p :: parts) (first ++ later) rest

end

mutual

/-- Reading a pattern from the front of `rest` fails. -/
inductive Fails : (p : Pattern) → (rest : List Char) → Prop
  | literal {chars rest : List Char} (h : ¬ chars <+: rest) : Fails (.literal chars) rest
  | set {members : CharSet} {min : Nat} {max : Option Nat} {run rest : List Char}
      (hrun : LongestRun members max run rest) (hmin : run.length < min) :
      Fails (.set members min max) (run ++ rest)
  | seq {parts : List Pattern} {rest : List Char} (h : FailsAll parts rest) :
      Fails (.seq parts) rest

/-- Of patterns that are read one after the other, one fails where those before it have led. -/
inductive FailsAll : (parts : List Pattern) → (rest : List Char) → Prop
  | here {p : Pattern} {parts : List Pattern} {rest : List Char} (h : Fails p rest) :
      FailsAll (p :: parts) rest
  | later {p : Pattern} {parts : List Pattern} {first rest : List Char}
      (hp : Takes p first rest) (h : FailsAll parts rest) : FailsAll (p :: parts) (first ++ rest)

end

variable {rest : List Char} {n : Nat}

/-- A word of members at the front of the text is counted whole, up to the limit. -/
theorem length_le_membersOf {members : CharSet} {limit : Nat} {word : List Char}
    (hfront : word <+: rest) (hmem : ∀ c ∈ word, members.contains c)
    (hlen : word.length ≤ limit) : word.length ≤ membersOf members limit rest := by
  obtain ⟨tail, rfl⟩ := hfront
  rw [membersOf, List.take_append, List.take_of_length_le hlen,
    List.takeWhile_append_of_pos hmem, List.length_append]
  exact Nat.le_add_right _ _

/-- The members that a set takes are the longest run of members it may take. -/
theorem longestRun_membersOf (members : CharSet) (max : Option Nat) (rest : List Char) :
    LongestRun members max (rest.take (membersOf members (max.getD rest.length) rest))
      (rest.drop (membersOf members (max.getD rest.length) rest)) := by
  have htake := take_membersOf members (max.getD rest.length) rest
  have hle := membersOf_le members (max.getD rest.length) rest
  constructor
  · intro c hc
    rw [htake] at hc
    exact List.all_eq_true.mp List.all_takeWhile c hc
  · rintro m rfl
    rw [htake, Option.getD_some]
    have hw := (List.takeWhile_sublist (l := rest.take m) members.contains).length_le
    exact Nat.le_trans hw (List.length_take_le m rest)
  · intro word hfront hmem hlen
    rw [List.take_append_drop] at hfront
    rw [List.length_take, Nat.min_eq_left hle]
    refine length_le_membersOf hfront hmem ?_
    cases max with
    | none => exact hfront.length_le
    | some m => exact hlen m rfl

mutual

/-- What a pattern takes is what reading it takes. -/
theorem takes_of_lengthOn {rest : List Char} {n : Nat} :
    ∀ p : Pattern, lengthOn rest p = some n → Takes p (rest.take n) (rest.drop n)
  | .literal chars, h => by
    rw [lengthOn, Option.ite_none_right_eq_some] at h
    obtain ⟨hp, he⟩ := h
    obtain rfl := Option.some.inj he
    rw [← List.prefix_iff_eq_take.mp (List.isPrefixOf_iff_prefix.mp hp)]
    exact .literal _ _
  | .set members min max, h => by
    rw [lengthOn, Option.ite_none_right_eq_some] at h
    obtain ⟨hmin, he⟩ := h
    obtain rfl := Option.some.inj he
    refine .set (longestRun_membersOf members max rest) ?_
    rw [List.length_take, Nat.min_eq_left (membersOf_le _ _ _)]
    exact hmin
  | .seq parts, h => .seq (takesAll_of_lengthsOn parts h)

theorem takesAll_of_lengthsOn {rest : List Char} {n : Nat} :
    ∀ parts : List Pattern, lengthsOn rest parts = some n →
      TakesAll parts (rest.take n) (rest.drop n)
  | [], h => by
    obtain rfl := Option.some.inj h
    exact .nil rest
  | p :: parts, h => by
    rw [lengthsOn] at h
    cases hp : lengthOn rest p with
    | none =>
      rw [hp] at h
      contradiction
    | some k =>
      rw [hp] at h
      obtain ⟨m, hm, rfl⟩ := Option.map_eq_some_iff.mp h
      have hfirst := takes_of_lengthOn p hp
      have hlater := takesAll_of_lengthsOn parts hm
      rw [List.take_add, ← List.drop_drop]
      refine .cons ?_ hlater
      rwa [List.take_append_drop]

end

mutual

/-- Where a pattern takes nothing, reading it fails. -/
theorem fails_of_lengthOn {rest : List Char} :
    ∀ p : Pattern, lengthOn rest p = none → Fails p rest
  | .literal chars, h => by
    rw [lengthOn, ite_eq_right_iff] at h
    refine .literal fun hp => ?_
    exact absurd (h (List.isPrefixOf_iff_prefix.mpr hp)) (Option.some_ne_none _)
  | .set members min max, h => by
    rw [lengthOn, ite_eq_right_iff] at h
    have hrun := longestRun_membersOf members max rest
    have hle := membersOf_le members (max.getD rest.length) rest
    generalize membersOf members (max.getD rest.length) rest = k at h hrun hle
    rw [← List.take_append_drop k rest]
    refine .set hrun ?_
    rw [List.length_take, Nat.min_eq_left hle]
    exact Nat.lt_of_not_le fun hmin => absurd (h hmin) (Option.some_ne_none _)
  | .seq parts, h => .seq (failsAll_of_lengthsOn parts h)

theorem failsAll_of_lengthsOn {rest : List Char} :
    ∀ parts : List Pattern, lengthsOn rest parts = none → FailsAll parts rest
  | [], h => absurd h (Option.some_ne_none _)
  | p :: parts, h => by
    rw [lengthsOn] at h
    cases hp : lengthOn rest p with
    | none => exact .here (fails_of_lengthOn p hp)
    | some k =>
      rw [hp] at h
      have hlater := failsAll_of_lengthsOn parts (Option.map_eq_none_iff.mp h)
      have hfails := FailsAll.later (takes_of_lengthOn p hp) hlater
      rwa [List.take_append_drop] at hfails

end

theorem LongestRun.membersOf_eq {members : CharSet} {max : Option Nat} {run : List Char}
    (h : LongestRun members max run rest) :
    membersOf members (max.getD (run ++ rest).length) (run ++ rest) = run.length := by
  have hrun := longestRun_membersOf members max (run ++ rest)
  have hle := membersOf_le members (max.getD (run ++ rest).length) (run ++ rest)
  generalize membersOf members (max.getD (run ++ rest).length) (run ++ rest) = k at hrun hle ⊢
  have hk : ((run ++ rest).take k).length = k := by rw [List.length_take, Nat.min_eq_left hle]
  have hfront := List.prefix_append run rest
  rw [← List.take_append_drop k (run ++ rest)] at hfront
  apply Nat.le_antisymm
  · rw [← hk]
    exact h.longest _ (List.take_prefix k _) hrun.contains hrun.length_le
  · rw [← hk]
    exact hrun.longest run hfront h.contains h.length_le

mutual

theorem Takes.lengthOn_eq {taken rest : List Char} :
    ∀ {p : Pattern}, Takes p taken rest → lengthOn (taken ++ rest) p = some taken.length
  | .literal chars, h => by
    cases h
    have hp := List.isPrefixOf_iff_prefix.mpr (List.prefix_append taken rest)
    rw [lengthOn, if_pos hp]
  | .set members min max, h => by
    cases h with
    | set hrun hmin =>
      rw [lengthOn, hrun.membersOf_eq]
      exact if_pos hmin
  | .seq parts, h => by
    cases h with
    | seq h => exact h.lengthsOn_eq

theorem TakesAll.lengthsOn_eq {taken rest : List Char} :
    ∀ {parts : List Pattern}, TakesAll parts taken rest →
      lengthsOn (taken ++ rest) parts = some taken.length
  | [], h => by
    cases h
    rfl
  | p :: parts, h => by
    cases h with
    | cons hp h =>
      rw [List.append_assoc, lengthsOn, hp.lengthOn_eq]
      dsimp only
      rw [List.drop_left, h.lengthsOn_eq, Option.map_some, List.length_append]

end

mutual

theorem Fails.lengthOn_eq {rest : List Char} :
    ∀ {p : Pattern}, Fails p rest → lengthOn rest p = none
  | .literal chars, h => by
    cases h with
    | literal h => exact if_neg fun hp => h (List.isPrefixOf_iff_prefix.mp hp)
  | .set members min max, h => by
    cases h with
    | set hrun hmin =>
      rw [lengthOn, hrun.membersOf_eq]
      exact if_neg (Nat.not_le_of_lt hmin)
  | .seq parts, h => by
    cases h with
    | seq h => exact h.lengthsOn_eq

theorem FailsAll.lengthsOn_eq {rest : List Char} :
    ∀ {parts : List Pattern}, FailsAll parts rest → lengthsOn rest parts = none
  | p :: parts, h => by
    cases h with
    | here h => rw [lengthsOn, h.lengthOn_eq]
    | later hp h =>
      rw [lengthsOn, hp.lengthOn_eq]
      dsimp only
      rw [List.drop_left, h.lengthsOn_eq, Option.map_none]

end

/-- A pattern takes `n` characters exactly where reading it does. -/
theorem lengthOn_eq_some_iff {p : Pattern} :
    lengthOn rest p = some n ↔ n ≤ rest.length ∧ Takes p (rest.take n) (rest.drop n) := by
  constructor
  · intro h
    exact ⟨lengthOn_le p h, takes_of_lengthOn p h⟩
  · rintro ⟨hn, h⟩
    have hl := h.lengthOn_eq
    rwa [List.take_append_drop, List.length_take, Nat.min_eq_left hn] at hl

/-- A pattern takes nothing exactly where reading it fails. -/
theorem lengthOn_eq_none_iff {p : Pattern} : lengthOn rest p = none ↔ Fails p rest :=
  ⟨fails_of_lengthOn p, fun h => h.lengthOn_eq⟩

mutual

/-- What reading a pattern takes is a word of its language. -/
theorem Takes.mem_language {taken rest : List Char} :
    ∀ {p : Pattern}, Takes p taken rest → taken ∈ p.language
  | .literal chars, h => by
    cases h
    exact Set.mem_singleton _
  | .set members min max, h => by
    cases h with
    | set hrun hmin => exact ⟨hrun.contains, hmin, hrun.length_le⟩
  | .seq parts, h => by
    cases h with
    | seq h => exact h.mem_languages

theorem TakesAll.mem_languages {taken rest : List Char} :
    ∀ {parts : List Pattern}, TakesAll parts taken rest → taken ∈ languages parts
  | [], h => by
    cases h
    exact Language.nil_mem_one
  | p :: parts, h => by
    cases h with
    | cons hp h => exact Language.append_mem_mul hp.mem_language h.mem_languages

end

end ModalLex.Pattern

import Mathlib.Data.Char
import ModalLex.Grammar.Compile

/-!
# How a description of a set is read

A description is a sequence of characters, some of them escaped, and these are grouped into items
from the left. The relation `Reading` says how, by cutting the text itself; every text has exactly
one reading. Main statement: a description is refused exactly where an item is a reversed range or
where an odd number of backslashes ends it, with the leftmost of these as the answer, and otherwise
stands for the characters of its items.
-/
namespace ModalLex

/-- These characters write the character `c`: alone, or as an escape. -/
inductive Logical : Char → List Char → Prop
  | plain {c : Char} (hc : c ≠ '\\') : Logical c [c]
  | escaped (c : Char) : Logical (unescape c) ['\\', c]

inductive SetItem where
  | range (lo hi : Char)
  /-- A character and the dash after it, which ends the description. -/
  | trailing (c : Char)
  | single (c : Char)
  deriving DecidableEq, Repr

namespace SetItem

def Takes (c : Char) : SetItem → Prop
  | range lo hi => lo ≤ c ∧ c ≤ hi
  | trailing d => c = d ∨ c = '-'
  | single d => c = d

def Reversed : SetItem → Prop
  | range lo hi => hi < lo
  | trailing _ | single _ => False

def fault? : SetItem → Option CharSetError
  | range lo hi => if hi < lo then some (.reversedRange lo hi) else none
  | trailing _ | single _ => none

def ranges : SetItem → List CharRange
  | range lo hi => [(lo, hi)]
  | trailing c => [('-', '-'), (c, c)]
  | single c => [(c, c)]

end SetItem

/-- The items of a description, from the left. A character with a dash and another character after it
begins a range, even where the first of them is itself a dash. A backslash that ends the description
writes no character and belongs to no item. -/
inductive Reading : List Char → List SetItem → Prop
  | nil : Reading [] []
  | dangling : Reading ['\\'] []
  | range {lo hi : Char} {a b rest : List Char} {items : List SetItem} (ha : Logical lo a)
      (hb : Logical hi b) (h : Reading rest items) :
      Reading (a ++ '-' :: (b ++ rest)) (.range lo hi :: items)
  | trailing {c : Char} {a : List Char} (ha : Logical c a) : Reading (a ++ ['-']) [.trailing c]
  | single {c : Char} {a rest : List Char} {items : List SetItem} (ha : Logical c a)
      (hrest : rest.head? ≠ some '-' ∨ rest = ['-', '\\']) (h : Reading rest items) :
      Reading (a ++ rest) (.single c :: items)

/-- The number of backslashes that end a text. -/
def endSlashes (text : List Char) : Nat := (text.reverse.takeWhile (· = '\\')).length

variable {c d : Char} {a b rest rest' text : List Char} {items items' : List SetItem}

namespace Logical

theorem ne_nil (h : Logical c a) : a ++ rest ≠ [] := by
  cases h <;> simp

theorem ne_dangling (h : Logical c a) : a ++ rest ≠ ['\\'] := by
  cases h with
  | plain hc =>
    intro he
    exact hc (List.cons.inj he).1
  | escaped c => simp

/-- Only one character is written at the beginning of a text. -/
theorem unique (h : Logical c a) (h' : Logical d b) (he : a ++ rest = b ++ rest') :
    c = d ∧ a = b ∧ rest = rest' := by
  cases h with
  | plain hc =>
    cases h' with
    | plain hd => simpa using he
    | escaped d => exact absurd (List.cons.inj he).1 hc
  | escaped c =>
    cases h' with
    | plain hd => exact absurd (List.cons.inj he).1.symm hd
    | escaped d =>
      obtain ⟨rfl, rfl⟩ : c = d ∧ rest = rest' := by simpa using he
      exact ⟨rfl, rfl, rfl⟩

theorem symbol (h : Logical c a) (rest : List Char) :
    ∃ s, SetSymbol.ofChars (a ++ rest) = s :: SetSymbol.ofChars rest ∧ s.value = .ok c ∧
      (s = .plain '-' → a = ['-']) := by
  cases h with
  | plain hc =>
    refine ⟨.plain c, ?_, rfl, fun he => by rw [SetSymbol.plain.inj he]⟩
    show SetSymbol.ofChars (c :: rest) = _
    rw [SetSymbol.ofChars] <;> simp [hc]
  | escaped c => exact ⟨.escaped c, rfl, rfl, nofun⟩

/-- An escape takes a backslash along with the character after it, be that one a backslash or not. -/
theorem endSlashes_append (h : Logical c a) (rest : List Char) :
    endSlashes (a ++ rest) % 2 = endSlashes rest % 2 := by
  unfold endSlashes
  rw [List.reverse_append, List.takeWhile_append]
  split
  · rename_i hall
    rw [List.length_append, ← hall]
    cases h with
    | plain hc => simp [hc]
    | escaped c => by_cases hc : c = '\\' <;> simp [hc]
  · rfl

end Logical

/-- A text that is not empty begins with a character, unless it is a lone backslash. -/
theorem exists_logical (ht : text ≠ []) :
    text = ['\\'] ∨ ∃ c a rest, Logical c a ∧ text = a ++ rest := by
  match text with
  | [] => exact absurd rfl ht
  | [c] =>
    by_cases hc : c = '\\'
    · exact .inl (by rw [hc])
    · exact .inr ⟨c, [c], [], .plain hc, rfl⟩
  | c :: d :: rest =>
    by_cases hc : c = '\\'
    · exact .inr ⟨unescape d, ['\\', d], rest, .escaped d, by rw [hc]; rfl⟩
    · exact .inr ⟨c, [c], d :: rest, .plain hc, rfl⟩

namespace Reading

/-- What is read where a character begins the text, by what follows it. -/
theorem of_logical (ha : Logical c a) (h : Reading (a ++ rest) items) :
    (rest = ['-'] ∧ items = [.trailing c]) ∨
    (∃ hi b rest' items', rest = '-' :: (b ++ rest') ∧ Logical hi b ∧ Reading rest' items' ∧
      items = .range c hi :: items') ∨
    (rest.head? ≠ some '-' ∨ rest = ['-', '\\']) ∧
      ∃ items', Reading rest items' ∧ items = .single c :: items' := by
  generalize ht : a ++ rest = text at h
  cases h with
  | nil => exact absurd ht ha.ne_nil
  | dangling => exact absurd ht ha.ne_dangling
  | range ha' hb h =>
    obtain ⟨rfl, rfl, rfl⟩ := ha.unique ha' ht
    exact .inr (.inl ⟨_, _, _, _, rfl, hb, h, rfl⟩)
  | trailing ha' =>
    obtain ⟨rfl, rfl, rfl⟩ := ha.unique ha' ht
    exact .inl ⟨rfl, rfl⟩
  | single ha' hrest h =>
    obtain ⟨rfl, rfl, rfl⟩ := ha.unique ha' ht
    exact .inr (.inr ⟨hrest, _, h, rfl⟩)

theorem of_nil (h : Reading [] items) : items = [] := by
  generalize ht : ([] : List Char) = text at h
  cases h with
  | nil => rfl
  | dangling => contradiction
  | range ha | trailing ha | single ha => exact absurd ht.symm ha.ne_nil

theorem of_dangling (h : Reading ['\\'] items) : items = [] := by
  generalize ht : ['\\'] = text at h
  cases h with
  | nil => contradiction
  | dangling => rfl
  | range ha | trailing ha | single ha => exact absurd ht.symm ha.ne_dangling

/-- No description can be read in two ways. -/
theorem unique (h : Reading text items) (h' : Reading text items') : items' = items := by
  induction h generalizing items' with
  | nil => exact h'.of_nil
  | dangling => exact h'.of_dangling
  | range ha hb h ih =>
    rcases of_logical ha h' with ⟨he, -⟩ | ⟨_, _, _, _, he, hb', h', rfl⟩ | ⟨hne, -⟩
    · exact absurd (List.cons.inj he).2 hb.ne_nil
    · obtain ⟨rfl, rfl, rfl⟩ := hb.unique hb' (List.cons.inj he).2
      rw [ih h']
    · rcases hne with hne | he
      · exact absurd rfl hne
      · exact absurd (List.cons.inj he).2 hb.ne_dangling
  | trailing ha =>
    rcases of_logical ha h' with ⟨-, rfl⟩ | ⟨_, _, _, _, he, hb', -⟩ | ⟨hne, -⟩
    · rfl
    · exact absurd (List.cons.inj he).2.symm hb'.ne_nil
    · simp at hne
  | single ha hrest h ih =>
    rcases of_logical ha h' with ⟨rfl, -⟩ | ⟨_, _, _, _, rfl, hb', -⟩ | ⟨-, _, hrest', rfl⟩
    · simp at hrest
    · rcases hrest with hne | he
      · exact absurd rfl hne
      · exact absurd (List.cons.inj he).2 hb'.ne_dangling
    · rw [ih hrest']

end Reading

/-- Every description can be read. By induction on its length, as an item takes up to five
characters. -/
theorem exists_reading (text : List Char) : ∃ items, Reading text items := by
  induction hn : text.length using Nat.strongRecOn generalizing text with
  | ind n ih =>
  subst hn
  by_cases ht : text = []
  · exact ⟨[], ht ▸ .nil⟩
  rcases exists_logical ht with rfl | ⟨c, a, rest, ha, rfl⟩
  · exact ⟨[], .dangling⟩
  have hpos : 0 < a.length := by cases ha <;> simp
  have one (hrest : rest.head? ≠ some '-' ∨ rest = ['-', '\\']) :
      ∃ items, Reading (a ++ rest) items := by
    obtain ⟨items, h⟩ := ih rest.length (by simp; omega) rest rfl
    exact ⟨_, .single ha hrest h⟩
  cases rest with
  | nil => exact one (.inl (by simp))
  | cons d rest =>
    by_cases hd : d = '-'
    · subst hd
      by_cases hrest : rest = []
      · subst hrest
        exact ⟨_, .trailing ha⟩
      rcases exists_logical hrest with rfl | ⟨hi, b, rest', hb, rfl⟩
      · exact one (.inr rfl)
      · obtain ⟨items, h⟩ := ih rest'.length (by simp; omega) rest' rfl
        exact ⟨_, .range ha hb h⟩
    · exact one (.inl (by simpa using hd))

/-- What is made of items, where `odd` says that a lone backslash follows them. -/
def itemRanges (items : List SetItem) (odd : Prop) [Decidable odd] :
    Except CharSetError (List CharRange) :=
  match items.findSome? SetItem.fault? with
  | some e => .error e
  | none => if odd then .error .danglingEscape else .ok (items.flatMap SetItem.ranges)

theorem itemRanges_cons (i : SetItem) (items : List SetItem) (odd : Prop) [Decidable odd] :
    itemRanges (i :: items) odd =
      match i.fault? with
      | some e => .error e
      | none => (itemRanges items odd).map (i.ranges ++ ·) := by
  unfold itemRanges
  rw [List.findSome?_cons]
  cases i.fault? with
  | some e => rfl
  | none =>
    dsimp only
    cases items.findSome? SetItem.fault? with
    | some e => rfl
    | none => by_cases ho : odd <;> simp [ho, Except.map]

section

variable {s t : SetSymbol} {symbols : List SetSymbol}

theorem charRange_self (hs : s.value = .ok c) : charRange s s = .ok (c, c) := by
  rw [charRange, hs]
  simp

theorem charRanges_single (hs : s.value = .ok c) (hne : symbols.head? ≠ some (.plain '-')) :
    charRanges (s :: symbols) = (charRanges symbols).map ((c, c) :: ·) := by
  rw [charRanges, charRange_self hs]
  · rintro rfl
    exact hne rfl
  · rintro b rest rfl
    exact hne rfl

theorem charRanges_range (hs : s.value = .ok c) (ht : t.value = .ok d) :
    charRanges (s :: .plain '-' :: t :: symbols) =
      match (SetItem.range c d).fault? with
      | some e => .error e
      | none => (charRanges symbols).map ((c, d) :: ·) := by
  rw [charRanges, charRange, hs, ht, SetItem.fault?]
  by_cases h : d < c <;> simp [h]

end

theorem ofChars_dash (rest : List Char) :
    SetSymbol.ofChars ('-' :: rest) = .plain '-' :: SetSymbol.ofChars rest :=
  SetSymbol.ofChars.eq_4 '-' rest (by simp) (by simp)

/-- What begins no dash among the characters begins none among the symbols. -/
theorem head?_ofChars_ne (hrest : rest.head? ≠ some '-') :
    (SetSymbol.ofChars rest).head? ≠ some (.plain '-') := by
  by_cases hr : rest = []
  · simp [hr, SetSymbol.ofChars]
  rcases exists_logical hr with rfl | ⟨c, a, rest', ha, rfl⟩
  · simp [SetSymbol.ofChars]
  · obtain ⟨s, hs, -, hdash⟩ := ha.symbol rest'
    rw [hs]
    intro he
    rw [hdash (Option.some.inj he)] at hrest
    exact hrest rfl

/-- The ranges of a description are those of its items, up to the leftmost fault. -/
theorem Reading.charRanges_eq (h : Reading text items) :
    charRanges (SetSymbol.ofChars text) = itemRanges items (endSlashes text % 2 = 1) := by
  induction h with
  | nil => rfl
  | dangling => rfl
  | @range lo hi a b rest items ha hb h ih =>
    obtain ⟨s, hs, hsv, -⟩ := ha.symbol ('-' :: (b ++ rest))
    obtain ⟨t, ht, htv, -⟩ := hb.symbol rest
    have hdash : Logical '-' ['-'] := .plain (by decide)
    have hodd : endSlashes (a ++ '-' :: (b ++ rest)) % 2 = endSlashes rest % 2 := by
      rw [ha.endSlashes_append, ← hb.endSlashes_append rest]
      exact hdash.endSlashes_append (b ++ rest)
    simp only [hodd]
    rw [hs, ofChars_dash, ht, charRanges_range hsv htv, ih, itemRanges_cons]
    rfl
  | @trailing c a ha =>
    obtain ⟨s, hs, hsv, -⟩ := ha.symbol ['-']
    have hodd : endSlashes (a ++ ['-']) % 2 = 0 := ha.endSlashes_append _
    simp only [hodd]
    rw [hs]
    show charRanges [s, .plain '-'] = _
    rw [charRanges, charRange_self hsv]
    rfl
  | @single c a rest items ha hrest h ih =>
    obtain ⟨s, hs, hsv, -⟩ := ha.symbol rest
    simp only [ha.endSlashes_append]
    rw [hs, itemRanges_cons]
    show _ = (itemRanges items _).map ((c, c) :: ·)
    rw [← ih]
    rcases hrest with hne | rfl
    · exact charRanges_single hsv (head?_ofChars_ne hne)
    · -- A range that the lone backslash breaks off fails as the backslash itself does.
      show charRanges [s, .plain '-', .dangling] = .error .danglingEscape
      rw [charRanges, charRange, hsv]
      rfl

/-- The leftmost fault of a description that reads as these items. -/
inductive LeftmostFault (text : List Char) (items : List SetItem) : CharSetError → Prop
  | reversed {before after : List SetItem} {lo hi : Char}
      (he : items = before ++ .range lo hi :: after) (hbefore : ∀ i ∈ before, ¬ i.Reversed)
      (h : hi < lo) : LeftmostFault text items (.reversedRange lo hi)
  | dangling (hitems : ∀ i ∈ items, ¬ i.Reversed) (h : endSlashes text % 2 = 1) :
      LeftmostFault text items .danglingEscape

theorem SetItem.fault?_eq_none {i : SetItem} : i.fault? = none ↔ ¬ i.Reversed := by
  cases i <;> simp [fault?, Reversed]

theorem SetItem.fault?_eq_some {i : SetItem} {e : CharSetError} (h : i.fault? = some e) :
    ∃ lo hi, i = .range lo hi ∧ hi < lo ∧ e = .reversedRange lo hi := by
  cases i with
  | range lo hi =>
    rw [fault?, Option.ite_none_right_eq_some] at h
    exact ⟨lo, hi, rfl, h.1, (Option.some.inj h.2).symm⟩
  | trailing | single => contradiction

theorem findSome?_fault_eq_none :
    items.findSome? SetItem.fault? = none ↔ ∀ i ∈ items, ¬ i.Reversed := by
  simp only [List.findSome?_eq_none_iff, SetItem.fault?_eq_none]

theorem findSome?_fault_eq_some {e : CharSetError}
    (h : items.findSome? SetItem.fault? = some e) : LeftmostFault text items e := by
  obtain ⟨before, i, after, he, hi, hbefore⟩ := List.findSome?_eq_some_iff.mp h
  obtain ⟨lo, hi, rfl, hlt, rfl⟩ := SetItem.fault?_eq_some hi
  exact .reversed he (fun i hm => SetItem.fault?_eq_none.mp (hbefore i hm)) hlt

/-- Items fail to make ranges exactly with their leftmost fault. -/
theorem itemRanges_eq_error {e : CharSetError} :
    itemRanges items (endSlashes text % 2 = 1) = .error e ↔ LeftmostFault text items e := by
  unfold itemRanges
  constructor
  · intro h
    split at h
    · rename_i hfirst
      obtain rfl := Except.error.inj h
      exact findSome?_fault_eq_some hfirst
    · rename_i hnone
      split at h
      · rename_i hodd
        obtain rfl := Except.error.inj h
        exact .dangling (findSome?_fault_eq_none.mp hnone) hodd
      · contradiction
  · intro h
    cases h with
    | @reversed before after lo hi he hbefore hlt =>
      have hfault : (SetItem.range lo hi).fault? = some (.reversedRange lo hi) := if_pos hlt
      have hfirst : items.findSome? SetItem.fault? = some (.reversedRange lo hi) :=
        List.findSome?_eq_some_iff.mpr ⟨before, _, after, he, hfault,
          fun i hm => SetItem.fault?_eq_none.mpr (hbefore i hm)⟩
      rw [hfirst]
    | dangling hitems hodd =>
      rw [findSome?_fault_eq_none.mpr hitems]
      exact if_pos hodd

theorem exists_leftmostFault : (∃ e, LeftmostFault text items e) ↔
    (∃ i ∈ items, i.Reversed) ∨ endSlashes text % 2 = 1 := by
  constructor
  · rintro ⟨e, he⟩
    cases he with
    | @reversed before after lo hi he hbefore hlt => exact .inl ⟨.range lo hi, by simp [he], hlt⟩
    | dangling hitems hodd => exact .inr hodd
  · intro h
    cases hfirst : items.findSome? SetItem.fault? with
    | some e => exact ⟨e, findSome?_fault_eq_some hfirst⟩
    | none =>
      have hitems := findSome?_fault_eq_none.mp hfirst
      rcases h with ⟨i, hi, hr⟩ | hodd
      · exact absurd hr (hitems i hi)
      · exact ⟨_, .dangling hitems hodd⟩

theorem itemRanges_eq_ok {ranges : List CharRange} {odd : Prop} [Decidable odd] :
    itemRanges items odd = .ok ranges ↔
      (∀ i ∈ items, ¬ i.Reversed) ∧ ¬ odd ∧ ranges = items.flatMap SetItem.ranges := by
  rw [← findSome?_fault_eq_none]
  unfold itemRanges
  cases items.findSome? SetItem.fault? with
  | some e => simp
  | none => by_cases ho : odd <;> simp [ho, eq_comm]

theorem SetItem.takes_iff (i : SetItem) (c : Char) :
    i.Takes c ↔ ∃ r ∈ i.ranges, r.1 ≤ c ∧ c ≤ r.2 := by
  cases i with
  | range lo hi => simp [Takes, ranges]
  | trailing d => simp [Takes, ranges, ← ge_antisymm_iff, or_comm]
  | single d => simp [Takes, ranges, ← ge_antisymm_iff]

namespace CharSet

theorem lists_iff (s : CharSet) (c : Char) :
    s.lists c = true ↔ ∃ r ∈ s.ranges, r.1 ≤ c ∧ c ≤ r.2 := by
  simp [lists]

theorem parse_eq_error {description : String} (h : Reading description.toList items)
    (negated : Bool) (e : CharSetError) :
    parse description negated = .error e ↔ LeftmostFault description.toList items e := by
  rw [← itemRanges_eq_error, parse, h.charRanges_eq]
  cases itemRanges items (endSlashes description.toList % 2 = 1) <;> simp [Except.map]

/-- A description that is accepted stands for the characters of its items. -/
theorem contains_iff {description : String} (h : Reading description.toList items)
    {negated : Bool} {s : CharSet} (hs : parse description negated = .ok s) (c : Char) :
    s.contains c = true ↔
      if negated then (∀ i ∈ items, ¬ i.Takes c) ∧ c ≤ '\uFFFE' else ∃ i ∈ items, i.Takes c := by
  rw [parse, h.charRanges_eq] at hs
  cases hr : itemRanges items (endSlashes description.toList % 2 = 1) with
  | error e =>
    rw [hr] at hs
    contradiction
  | ok ranges =>
    rw [hr] at hs
    obtain rfl := Except.ok.inj hs
    have hlists : lists ⟨ranges, negated⟩ c = true ↔ ∃ i ∈ items, i.Takes c := by
      rw [lists_iff, (itemRanges_eq_ok.mp hr).2.2]
      simp only [List.mem_flatMap, SetItem.takes_iff]
      constructor
      · rintro ⟨r, ⟨i, hi, hr⟩, hc⟩
        exact ⟨i, hi, r, hr, hc⟩
      · rintro ⟨i, hi, r, hr, hc⟩
        exact ⟨r, ⟨i, hi, hr⟩, hc⟩
    unfold contains
    cases negated with
    | false => simpa using hlists
    | true =>
      have hnone : lists ⟨ranges, true⟩ c = false ↔ ∀ i ∈ items, ¬ i.Takes c := by
        rw [← Bool.not_eq_true, hlists]
        simp
      simp only [↓reduceIte, Bool.and_eq_true, Bool.not_eq_true', decide_eq_true_eq, hnone]
      rfl

/-- What becomes of a description. For every text, and whether it is negated or not: it has exactly
one reading; it is refused exactly where one of the items is a reversed range or an odd number of
backslashes ends the text; the answer is then the leftmost of these faults, and a pattern made with
the description fails with it and with the whole description; and a set that is made of it holds
exactly the characters of its items, or, if negated, those up to U+FFFE of no item. -/
theorem parse_reads (description : String) (negated : Bool) : ∃ items : List SetItem,
    Reading description.toList items ∧
    (∀ items', Reading description.toList items' → items' = items) ∧
    ((∃ e, parse description negated = .error e) ↔
      (∃ i ∈ items, i.Reversed) ∨ endSlashes description.toList % 2 = 1) ∧
    (∀ e, parse description negated = .error e ↔ LeftmostFault description.toList items e) ∧
    (∀ min max e, (PatternSpec.set ⟨description, negated, min, max⟩).compile = .error e ↔
      ∃ cause, LeftmostFault description.toList items cause ∧
        e = .invalidSet description cause) ∧
    ∀ s, parse description negated = .ok s → ∀ c, s.contains c = true ↔
      if negated then (∀ i ∈ items, ¬ i.Takes c) ∧ c ≤ '\uFFFE' else ∃ i ∈ items, i.Takes c := by
  obtain ⟨items, h⟩ := exists_reading description.toList
  have herror := parse_eq_error h negated
  refine ⟨items, h, fun _ h' => h.unique h', ?_, herror, ?_, fun s hs => contains_iff h hs⟩
  · simp only [herror]
    exact exists_leftmostFault
  · intro min max e
    rw [PatternSpec.compile]
    simp only [← herror]
    cases hp : parse description negated with
    | error cause => simp [eq_comm]
    | ok s => simp

example : parse "+--\\-a-" false =
    .ok ⟨[('+', '-'), ('-', '-'), ('-', '-'), ('a', 'a')], false⟩ := by rfl

end CharSet

end ModalLex

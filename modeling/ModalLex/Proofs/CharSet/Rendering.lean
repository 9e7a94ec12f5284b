import ModalLex.Proofs.CharSet.Reading

/-!
# Writing ranges as a description

A list of ranges can be written as a description, in several ways. Backslashes and dashes are
escaped, so that no item takes in the beginning of the next. Main statement: each of these
descriptions is parsed into the list, and what has been parsed can be written and parsed again.
-/
namespace ModalLex

/-- These characters write the character `c` in a description. A line break, a tab and a carriage
return may also stand for themselves. -/
inductive WritesChar : Char → List Char → Prop
  | plain {c : Char} (hslash : c ≠ '\\') (hdash : c ≠ '-') : WritesChar c [c]
  | backslash : WritesChar '\\' ['\\', '\\']
  | dash : WritesChar '-' ['\\', '-']
  | lineFeed : WritesChar '\n' ['\\', 'n']
  | tab : WritesChar '\t' ['\\', 't']
  | carriageReturn : WritesChar '\r' ['\\', 'r']

/-- The characters are a description of the ranges, in their order. A range of one character is
written with a dash or as the character alone. -/
inductive WritesRanges : List CharRange → List Char → Prop
  | nil : WritesRanges [] []
  | single {c : Char} {a rest : List Char} {ranges : List CharRange} (ha : WritesChar c a)
      (h : WritesRanges ranges rest) : WritesRanges ((c, c) :: ranges) (a ++ rest)
  | range {lo hi : Char} {a b rest : List Char} {ranges : List CharRange} (ha : WritesChar lo a)
      (hb : WritesChar hi b) (h : WritesRanges ranges rest) :
      WritesRanges ((lo, hi) :: ranges) (a ++ '-' :: (b ++ rest))

variable {c : Char} {a rest text : List Char} {ranges : List CharRange}

namespace WritesChar

theorem logical (h : WritesChar c a) : Logical c a := by
  cases h with
  | plain hslash hdash => exact .plain hslash
  | backslash => exact .escaped '\\'
  | dash => exact .escaped '-'
  | lineFeed => exact .escaped 'n'
  | tab => exact .escaped 't'
  | carriageReturn => exact .escaped 'r'

/-- No written character begins with a dash. -/
theorem head?_ne (h : WritesChar c a) (rest : List Char) : (a ++ rest).head? ≠ some '-' := by
  cases h with
  | plain hslash hdash => simpa using hdash
  | backslash | dash | lineFeed | tab | carriageReturn => simp

end WritesChar

theorem exists_writesChar (c : Char) : ∃ a, WritesChar c a := by
  by_cases hslash : c = '\\'
  · subst hslash
    exact ⟨_, .backslash⟩
  by_cases hdash : c = '-'
  · subst hdash
    exact ⟨_, .dash⟩
  · exact ⟨_, .plain hslash hdash⟩

theorem exists_writesRanges (ranges : List CharRange) : ∃ text, WritesRanges ranges text := by
  induction ranges with
  | nil => exact ⟨[], .nil⟩
  | cons r ranges ih =>
    obtain ⟨rest, h⟩ := ih
    obtain ⟨a, ha⟩ := exists_writesChar r.1
    obtain ⟨b, hb⟩ := exists_writesChar r.2
    exact ⟨_, .range ha hb h⟩

theorem WritesRanges.head?_ne (h : WritesRanges ranges text) : text.head? ≠ some '-' := by
  cases h with
  | nil => simp
  | single ha => exact ha.head?_ne _
  | range ha => exact ha.head?_ne _

/-- What is written is read item by item, and each range comes from an item of its own. -/
theorem WritesRanges.reading (h : WritesRanges ranges text) (hr : ∀ r ∈ ranges, r.1 ≤ r.2) :
    ∃ items, Reading text items ∧ (∀ i ∈ items, ¬ i.Reversed) ∧
      items.flatMap SetItem.ranges = ranges ∧ endSlashes text % 2 = 0 := by
  induction h with
  | nil => exact ⟨[], .nil, by simp, rfl, rfl⟩
  | @single c a rest ranges ha h ih =>
    obtain ⟨hfirst, hrest⟩ := List.forall_mem_cons.mp hr
    obtain ⟨items, hread, hitems, hranges, heven⟩ := ih hrest
    refine ⟨.single c :: items, .single ha.logical (.inl h.head?_ne) hread, ?_, ?_, ?_⟩
    · exact List.forall_mem_cons.mpr ⟨id, hitems⟩
    · rw [List.flatMap_cons, hranges]
      rfl
    · rw [ha.logical.endSlashes_append, heven]
  | @range lo hi a b rest ranges ha hb h ih =>
    obtain ⟨hfirst, hrest⟩ := List.forall_mem_cons.mp hr
    obtain ⟨items, hread, hitems, hranges, heven⟩ := ih hrest
    refine ⟨.range lo hi :: items, .range ha.logical hb.logical hread, ?_, ?_, ?_⟩
    · exact List.forall_mem_cons.mpr ⟨Char.not_lt.mpr hfirst, hitems⟩
    · rw [List.flatMap_cons, hranges]
      rfl
    · have hdash : Logical '-' ['-'] := .plain (by decide)
      rw [ha.logical.endSlashes_append, ← heven, ← hb.logical.endSlashes_append rest]
      exact hdash.endSlashes_append (b ++ rest)

theorem SetItem.ordered_of_not_reversed {i : SetItem} (h : ¬ i.Reversed) :
    ∀ r ∈ i.ranges, r.1 ≤ r.2 := by
  cases i with
  | range lo hi => simpa [ranges, Reversed] using h
  | trailing c => simp [ranges]
  | single c => simp [ranges]

namespace CharSet

theorem parse_of_writes (h : WritesRanges ranges text) (hr : ∀ r ∈ ranges, r.1 ≤ r.2)
    (negated : Bool) : parse (String.ofList text) negated = .ok ⟨ranges, negated⟩ := by
  obtain ⟨items, hread, hitems, hranges, heven⟩ := h.reading hr
  have hok : itemRanges items (endSlashes text % 2 = 1) = .ok ranges :=
    itemRanges_eq_ok.mpr ⟨hitems, by omega, hranges.symm⟩
  rw [parse, String.toList_ofList, hread.charRanges_eq, hok]
  rfl

/-- Nothing but ordered ranges is ever parsed. -/
theorem ordered_of_parse {description : String} {negated : Bool} {s : CharSet}
    (h : parse description negated = .ok s) :
    s.negated = negated ∧ ∀ r ∈ s.ranges, r.1 ≤ r.2 := by
  obtain ⟨items, hread⟩ := exists_reading description.toList
  rw [parse, hread.charRanges_eq] at h
  cases hi : itemRanges items (endSlashes description.toList % 2 = 1) with
  | error e =>
    rw [hi] at h
    contradiction
  | ok ranges =>
    rw [hi] at h
    obtain rfl := Except.ok.inj h
    obtain ⟨hitems, -, hranges⟩ := itemRanges_eq_ok.mp hi
    refine ⟨rfl, ?_⟩
    intro r hr
    rw [hranges] at hr
    obtain ⟨i, hi, hr⟩ := List.mem_flatMap.mp hr
    exact SetItem.ordered_of_not_reversed (hitems i hi) r hr

/-- Writing and parsing are inverse to each other. Every list of ordered ranges has a description,
and each of its descriptions is parsed into just that list, negated or not. And whatever description
has been accepted, its ranges are ordered, and every description that they are written as is
accepted and made into a set with the same members. -/
theorem parse_written :
    (∀ ranges : List CharRange, (∀ r ∈ ranges, r.1 ≤ r.2) →
      (∃ text, WritesRanges ranges text) ∧
      ∀ text, WritesRanges ranges text → ∀ negated,
        parse (String.ofList text) negated = .ok ⟨ranges, negated⟩) ∧
    ∀ (description : String) (negated : Bool) (s : CharSet),
      parse description negated = .ok s →
      (∀ r ∈ s.ranges, r.1 ≤ r.2) ∧
      (∃ text, WritesRanges s.ranges text) ∧
      ∀ text, WritesRanges s.ranges text →
        ∃ s', parse (String.ofList text) negated = .ok s' ∧
          ∀ c, s'.contains c = s.contains c := by
  constructor
  · intro ranges hr
    exact ⟨exists_writesRanges ranges, fun text h => parse_of_writes h hr⟩
  · intro description negated s hs
    obtain ⟨hnegated, hr⟩ := ordered_of_parse hs
    refine ⟨hr, exists_writesRanges s.ranges, ?_⟩
    intro text h
    refine ⟨s, ?_, fun c => rfl⟩
    rw [parse_of_writes h hr, ← hnegated]

end CharSet

end ModalLex

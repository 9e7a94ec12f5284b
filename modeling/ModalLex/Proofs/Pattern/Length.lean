import ModalLex.Pattern
import ModalLex.Proofs.Stream.Reading

/-!
# Pattern lengths on lists of characters

The length a pattern takes is a function of the characters from the offset on. The stream's
matcher agrees with it over every stream that shows the text, and leaves the stream where it
stands. No pattern takes more characters than there are.
-/
namespace ModalLex.Pattern

open TextView

/-- The number of members of a set at the front of `rest`, counting at most `limit`. -/
def membersOf (members : CharSet) (limit : Nat) (rest : List Char) : Nat :=
  ((rest.take limit).takeWhile members.contains).length

mutual

/-- The number of characters that a pattern takes from the front of `rest`, or nothing if it
does not match there. -/
def lengthOn (rest : List Char) : Pattern → Option Nat
  | .literal chars => if chars.isPrefixOf rest then some chars.length else none
  | .set members min max =>
    let n := membersOf members (max.getD rest.length) rest
    if min ≤ n then some n else none
  | .seq parts => lengthsOn rest parts

def lengthsOn (rest : List Char) : List Pattern → Option Nat
  | [] => some 0
  | p :: parts =>
    match lengthOn rest p with
    | none => none
    | some n => (lengthsOn (rest.drop n) parts).map (n + ·)

end

theorem membersOf_le (members : CharSet) (limit : Nat) (rest : List Char) :
    membersOf members limit rest ≤ rest.length := by
  have ht := (List.takeWhile_sublist (l := rest.take limit) members.contains).length_le
  have hl := List.length_take_le' limit rest
  exact Nat.le_trans ht hl

mutual

theorem lengthOn_le {rest : List Char} {n : Nat} :
    ∀ p : Pattern, lengthOn rest p = some n → n ≤ rest.length
  | .literal chars, h => by
    rw [lengthOn, Option.ite_none_right_eq_some] at h
    obtain ⟨hp, he⟩ := h
    obtain rfl := Option.some.inj he
    exact (List.isPrefixOf_iff_prefix.mp hp).length_le
  | .set members min max, h => by
    rw [lengthOn, Option.ite_none_right_eq_some] at h
    obtain rfl := Option.some.inj h.2
    exact membersOf_le members _ rest
  | .seq parts, h => lengthsOn_le parts h

theorem lengthsOn_le {rest : List Char} {n : Nat} :
    ∀ parts : List Pattern, lengthsOn rest parts = some n → n ≤ rest.length
  | [], h => by
    obtain rfl := Option.some.inj h
    exact Nat.zero_le _
  | p :: parts, h => by
    rw [lengthsOn] at h
    cases hp : lengthOn rest p with
    | none => rw [hp] at h; contradiction
    | some m =>
      rw [hp] at h
      obtain ⟨k, hk, rfl⟩ := Option.map_eq_some_iff.mp h
      have hm := lengthOn_le p hp
      have hd := lengthsOn_le parts hk
      rw [List.length_drop] at hd
      omega

end

/-- A limit that the text does not reach is none. -/
theorem membersOf_of_le (members : CharSet) {limit : Nat} {rest : List Char}
    (h : rest.length ≤ limit) :
    membersOf members limit rest = membersOf members rest.length rest := by
  rw [membersOf, membersOf, List.take_of_length_le h, List.take_length]

variable {σ : Type} [CharStream σ] {rest : List Char} {offset : Int} {P : σ → Prop} {s : σ}

theorem startsWith_shown (h : ShowsFrom rest offset P) (hs : P s) (chars : List Char) :
    ∃ s', startsWith chars s offset = (chars.isPrefixOf rest, s') ∧ P s' := by
  induction chars generalizing s rest offset with
  | nil => exact ⟨s, by rw [List.isPrefixOf_nil_left]; rfl, hs⟩
  | cons c chars ih =>
    obtain ⟨t, hla, ht⟩ := h.look_first hs
    rw [startsWith, hla]
    cases rest with
    | nil => exact ⟨t, rfl, ht⟩
    | cons d rest =>
      rw [List.head?_cons, List.isPrefixOf_cons_cons]
      by_cases hd : d = c
      · obtain ⟨u, hu, hPu⟩ := ih h.next ht
        refine ⟨u, ?_, hPu⟩
        simpa [hd] using hu
      · refine ⟨t, ?_, ht⟩
        simp [hd, Ne.symm hd]

theorem countMembers_shown (h : ShowsFrom rest offset P) (hs : P s) (members : CharSet)
    (limit : Nat) :
    ∃ s', countMembers members limit s offset = (membersOf members limit rest, s') ∧ P s' := by
  induction limit generalizing s rest offset with
  | zero => exact ⟨s, rfl, hs⟩
  | succ limit ih =>
    obtain ⟨t, hla, ht⟩ := h.look_first hs
    rw [countMembers, hla]
    cases rest with
    | nil => exact ⟨t, rfl, ht⟩
    | cons d rest =>
      rw [List.head?_cons, membersOf, List.take_succ_cons]
      by_cases hd : members.contains d
      · obtain ⟨u, hu, hPu⟩ := ih h.next ht
        refine ⟨u, ?_, hPu⟩
        rw [List.takeWhile_cons_of_pos hd, List.length_cons]
        simp only [hd, ↓reduceIte]
        exact congrArg (fun r => (r.1 + 1, r.2)) hu
      · refine ⟨t, ?_, ht⟩
        rw [List.takeWhile_cons_of_neg hd]
        simp [hd]

mutual

/-- A pattern takes what it takes of the characters that are shown from the offset on. -/
theorem matchLength_shown {rest : List Char} {offset : Int} (h : ShowsFrom rest offset P) {s : σ}
    (hs : P s) : ∀ p : Pattern, ∃ s', matchLength s offset p = (lengthOn rest p, s') ∧ P s'
  | .literal chars => by
    obtain ⟨t, ht, hPt⟩ := startsWith_shown h hs chars
    exact ⟨t, by rw [matchLength, ht, lengthOn], hPt⟩
  | .set members min max => by
    obtain ⟨t, ht, hPt⟩ := countMembers_shown h hs members (max.getD (CharStream.extent s))
    refine ⟨t, ?_, hPt⟩
    rw [matchLength, ht, lengthOn]
    cases max with
    | some m => rfl
    | none =>
      rw [Option.getD_none, Option.getD_none, membersOf_of_le members (h.length_le hs)]
  | .seq parts => by
    obtain ⟨t, ht, hPt⟩ := matchLengths_shown h hs parts
    exact ⟨t, by rw [matchLength, ht, lengthOn], hPt⟩

theorem matchLengths_shown {rest : List Char} {offset : Int} (h : ShowsFrom rest offset P) {s : σ}
    (hs : P s) : ∀ parts : List Pattern,
      ∃ s', matchLengths s offset parts = (lengthsOn rest parts, s') ∧ P s'
  | [] => ⟨s, rfl, hs⟩
  | p :: parts => by
    obtain ⟨t, ht, hPt⟩ := matchLength_shown h hs p
    rw [matchLengths, ht, lengthsOn]
    cases hp : lengthOn rest p with
    | none => exact ⟨t, rfl, hPt⟩
    | some n =>
      obtain ⟨u, hu, hPu⟩ := matchLengths_shown (h.drop (lengthOn_le p hp)) hPt parts
      refine ⟨u, ?_, hPu⟩
      simp only [hu]
      cases lengthsOn (rest.drop n) parts <;> rfl

end

variable {src : List Char}

/-- Over a stream that reads ahead in a text, a pattern takes what it takes of the text's
characters. -/
theorem matchLength_ahead (hP : ReadsAhead src P) {s : σ} (h : P s) (o : Nat) (p : Pattern) :
    ∃ s', matchLength s (o : Int) p = (lengthOn (src.drop (CharStream.index s + o)) p, s') ∧
      P s' ∧ CharStream.index s' = CharStream.index s :=
  matchLength_shown (hP.showsFrom (CharStream.index s) o) ⟨h, rfl⟩ p

/-- The same over a stream that shows the text, which moves nowhere. -/
theorem matchLength_eq [LawfulView σ] {kept : Nat} {s : σ} (h : Shows src kept s) (o : Nat)
    (p : Pattern) : ∃ s', matchLength s (o : Int) p =
        (lengthOn (src.drop (CharStream.index s + o)) p, s') ∧
      Moved src kept s 0 s' := by
  have hP := (LawfulView.readsOn (σ := σ) src kept (reach s)).toReadsAhead
  obtain ⟨t, ht, ⟨hshows, hreach⟩, hi⟩ := matchLength_ahead hP ⟨h, Nat.le_refl _⟩ o p
  exact ⟨t, ht, hshows, hi, hreach⟩

end ModalLex.Pattern

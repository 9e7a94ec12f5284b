import ModalLex.Proofs.Stream.Lookahead

/-!
# What a stream shows to both sides

A look to any distance, ahead of the cursor or behind it, finds what it would have found before
other looks. From any distance on, a stream therefore shows a run of characters and then none: the
run ends with the text or before the cursor, where there is no character to be seen.
-/
namespace ModalLex

open TextView

/-- Streams in `P` answer a look to any distance by `sight` and stay in `P`. No character is seen at
distance 0, nor further away than `size`. -/
structure Sees {σ : Type} [CharStream σ] (sight : Int → Option Char) (size : Nat)
    (P : σ → Prop) : Prop where
  extent_eq : ∀ {s}, P s → CharStream.extent s = size
  look : ∀ {s}, P s → ∀ distance, ∃ s', CharStream.la s distance = (sight distance, s') ∧ P s'
  here : sight 0 = none
  within : ∀ {distance}, sight distance ≠ none → distance.natAbs ≤ size

namespace Sees

variable {σ : Type} [CharStream σ] {sight : Int → Option Char} {size : Nat} {P : σ → Prop}

/-- The characters that are seen from `offset` on, up to the first distance without one. -/
theorem exists_run (h : Sees sight size P) (offset : Int) :
    ∃ rest : List Char, ∀ n ≤ rest.length, sight (offset + n + 1) = rest[n]? := by
  induction hk : (size - offset).toNat using Nat.strongRecOn generalizing offset with
  | ind k ih =>
    cases hc : sight (offset + 1) with
    | none =>
      refine ⟨[], fun n hn => ?_⟩
      obtain rfl := Nat.le_zero.mp hn
      rwa [Int.natCast_zero, Int.add_zero]
    | some c =>
      have hle := h.within (hc ▸ Option.some_ne_none c)
      obtain ⟨rest, hrest⟩ := ih (size - (offset + 1)).toNat (by omega) (offset + 1) rfl
      refine ⟨c :: rest, fun n hn => ?_⟩
      cases n with
      | zero => rwa [Int.natCast_zero, Int.add_zero]
      | succ n =>
        rw [List.getElem?_cons_succ, ← hrest n (Nat.le_of_succ_le_succ hn), Int.natCast_succ,
          Int.add_right_comm offset 1, ← Int.add_assoc offset]

/-- A run does not reach over the cursor, so that it is no longer than the text. -/
theorem length_le_of_run (h : Sees sight size P) {offset : Int} {rest : List Char}
    (hrest : ∀ n ≤ rest.length, sight (offset + n + 1) = rest[n]?) : rest.length ≤ size := by
  have hseen {n : Nat} (hn : n < rest.length) : sight (offset + n + 1) ≠ none := by
    rw [hrest n (Nat.le_of_lt hn), List.getElem?_eq_getElem hn]
    exact Option.some_ne_none _
  rcases Nat.eq_zero_or_pos rest.length with hzero | hpos
  · omega
  have hfirst := h.within (hseen hpos)
  have hlast := h.within (hseen (Nat.sub_one_lt_of_lt hpos))
  by_contra hlong
  have hcursor : offset + ((-offset - 1).toNat : Int) + 1 = 0 := by omega
  have hhere := hseen (n := (-offset - 1).toNat) (by omega)
  rw [hcursor] at hhere
  exact hhere h.here

theorem exists_showsFrom (h : Sees sight size P) (offset : Int) :
    ∃ rest, ShowsFrom rest offset P := by
  obtain ⟨rest, hrest⟩ := h.exists_run offset
  refine ⟨rest, fun hs => ?_, fun hs n hn => ?_⟩
  · rw [h.extent_eq hs]
    exact h.length_le_of_run hrest
  · rw [← hrest n hn]
    exact h.look hs _

end Sees

/-- The law of a stream that stands in a text for looking to both sides. -/
class GlancingView (σ : Type) [CharStream σ] extends RestingView σ where
  sees : ∀ {src} {s : σ}, Rests src s →
    ∃ P, P s ∧ Sees (fun distance => (CharStream.la s distance).1) src.length P

instance : GlancingView TextStream where
  sees {_ s} h := by
    obtain ⟨rfl, hp⟩ := h
    refine ⟨(· = s), rfl, ?_, ?_, rfl, ?_⟩
    · rintro t rfl
      rfl
    · rintro t rfl distance
      exact ⟨t, rfl, rfl⟩
    · intro distance hseen
      change s.peek? distance ≠ none at hseen
      change distance.natAbs ≤ s.chars.size
      match distance with
      | .ofNat 0 => exact Nat.zero_le _
      | .ofNat (n + 1) =>
        have hi : s.pos + n < s.chars.size := by
          by_contra hge
          exact hseen (Array.getElem?_eq_none (Nat.le_of_not_lt hge))
        change n + 1 ≤ _
        omega
      | .negSucc n =>
        have hback : n + 1 ≤ s.pos := by
          by_contra hlt
          exact hseen (if_neg hlt)
        exact Nat.le_trans hback hp

namespace WindowStream

variable {src : List Char} {s t : WindowStream}

/-- What a window shows to both sides does not tell how far it has read ahead. -/
theorem Ahead.la_eq (h : Ahead s t) (hs : Represents src s) (distance : Int) :
    (CharStream.la t distance).1 = (CharStream.la s distance).1 := by
  obtain ⟨wanted, rfl⟩ := h
  cases distance with
  | ofNat n =>
    cases n with
    | zero => rfl
    | succ n => exact ((hs.fill wanted).la_ahead n).trans (hs.la_ahead n).symm
  | negSucc k =>
    rw [hs.la_behind, (hs.fill wanted).la_behind]
    rfl

/-- Looking further ahead leaves a window that is ahead all the same. -/
theorem Ahead.look_further (h : Ahead s t) (distance : Int) :
    Ahead s (CharStream.la t distance).2 := by
  obtain ⟨wanted, rfl⟩ := h
  change Ahead s ((s.fill wanted).look distance).2
  rcases look_eq (s.fill wanted) distance with hsame | ⟨further, hmore⟩
  · rw [hsame]
    exact ⟨wanted, rfl⟩
  · rw [hmore]
    exact ⟨_, fill_fill s wanted further⟩

/-- No character is seen further away than the text is long. -/
theorem Represents.natAbs_le (h : Represents src s) {distance : Int}
    (hseen : (CharStream.la s distance).1 ≠ none) : distance.natAbs ≤ src.length := by
  cases distance with
  | ofNat n =>
    cases n with
    | zero => exact Nat.zero_le _
    | succ n =>
      rw [h.la_ahead] at hseen
      have hi : s.index + n < src.length := by
        by_contra hge
        exact hseen (List.getElem?_eq_none (Nat.le_of_not_lt hge))
      change n + 1 ≤ _
      omega
  | negSucc k =>
    rw [h.la_behind] at hseen
    have hback : s.oldest + (k + 1) ≤ s.index := by
      by_contra hlt
      exact hseen (if_neg hlt)
    have hc := h.cursor_le
    have hw := h.window_le
    rw [index] at hback
    change k + 1 ≤ _
    omega

instance : GlancingView WindowStream where
  sees {_ s} h := by
    refine ⟨Ahead s, .refl s, fun ht => (ht.represents h).total_eq, ?_, rfl, h.natAbs_le⟩
    intro t ht distance
    exact ⟨(CharStream.la t distance).2, Prod.ext (ht.la_eq h distance) rfl,
      ht.look_further distance⟩

end WindowStream

end ModalLex

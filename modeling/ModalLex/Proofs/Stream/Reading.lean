import ModalLex.Stream.Text
import ModalLex.Stream.Window

/-!
# Streams as views of one text

A stream that shows a text answers every look ahead, step and slice with the characters of
that text. The laws hold of a text in memory and of a pinned window alike, so that what is
proved from them holds over both. They say nothing about looking back or about seeking.
-/
namespace ModalLex

/-- What a stream has to do with the text behind it. -/
class TextView (σ : Type) where
  /-- The stream is pinned, stands in `src`, and holds the characters from `kept` on. -/
  Shows : (src : List Char) → (kept : Nat) → σ → Prop
  /-- The stream stands in `src`, pinned or not. -/
  Rests : (src : List Char) → σ → Prop
  /-- The index behind the last character that was read. -/
  reach : σ → Nat

open TextView

/-- `s'` is `s` after `n` characters, still pinned, with nothing forgotten that `s` could show. -/
structure Moved {σ : Type} [CharStream σ] [TextView σ] (src : List Char) (kept : Nat)
    (s : σ) (n : Nat) (s' : σ) : Prop where
  shows : Shows src kept s'
  index_eq : CharStream.index s' = CharStream.index s + n
  reach_le : reach s ≤ reach s'

/-- The laws of a stream that shows a text. -/
class LawfulView (σ : Type) [CharStream σ] extends TextView σ where
  index_le : ∀ {src kept} {s : σ}, Shows src kept s → CharStream.index s ≤ reach s
  reach_le : ∀ {src kept} {s : σ}, Shows src kept s → reach s ≤ src.length
  extent_eq : ∀ {src kept} {s : σ}, Shows src kept s → CharStream.extent s = src.length
  /-- Looking ahead finds the character of the text and reads at least that far. -/
  look : ∀ {src kept} {s : σ}, Shows src kept s → ∀ n : Nat, ∃ s',
    CharStream.la s (n + 1) = (src[CharStream.index s + n]?, s') ∧ Moved src kept s 0 s' ∧
      (CharStream.index s + n < src.length → CharStream.index s + n < reach s')
  step : ∀ {src kept} {s : σ}, Shows src kept s → CharStream.index s < src.length →
    ∃ s', CharStream.consume s = (.ok (), s') ∧ Moved src kept s 1 s'
  slice : ∀ {src kept} {s : σ} {start stop : Nat}, Shows src kept s → kept ≤ start →
    stop ≤ reach s → CharStream.text s start stop = String.ofList ((src.drop start).take (stop - start))
  pin : ∀ {src} {s : σ}, Rests src s →
    Shows src (CharStream.index s) (CharStream.mark s).2 ∧
      CharStream.index (CharStream.mark s).2 = CharStream.index s
  unpin : ∀ {src kept} {s : σ}, Shows src kept s → ∀ m, Rests src (CharStream.release s m) ∧
    CharStream.index (CharStream.release s m) = CharStream.index s

namespace Moved

variable {σ : Type} [CharStream σ] [LawfulView σ] {src : List Char} {kept n m : Nat} {s t u : σ}

theorem refl (h : Shows src kept s) : Moved src kept s 0 s := ⟨h, rfl, Nat.le_refl _⟩

theorem trans (h : Moved src kept s n t) (h' : Moved src kept t m u) :
    Moved src kept s (n + m) u where
  shows := h'.shows
  index_eq := by rw [h'.index_eq, h.index_eq, Nat.add_assoc]
  reach_le := Nat.le_trans h.reach_le h'.reach_le

theorem look_trans (h : Moved src kept s 0 t) (h' : Moved src kept t n u) :
    Moved src kept s n u := by
  have ht := h.trans h'
  rwa [Nat.zero_add] at ht

theorem index_look (h : Moved src kept s 0 t) : CharStream.index t = CharStream.index s := h.index_eq

end Moved

/-- What looking ahead keeps, for streams that are in `P`: every look finds the character of the
text, and leaves the stream in `P` with its cursor where it was. -/
structure ReadsAhead {σ : Type} [CharStream σ] (src : List Char) (P : σ → Prop) : Prop where
  extent_eq : ∀ {s}, P s → CharStream.extent s = src.length
  look : ∀ {s}, P s → ∀ n : Nat, ∃ s',
    CharStream.la s (n + 1) = (src[CharStream.index s + n]?, s') ∧
      P s' ∧ CharStream.index s' = CharStream.index s

/-- From `offset` on, streams in `P` show the characters of `rest` and then none, and looking there
leaves a stream in `P`. -/
structure ShowsFrom {σ : Type} [CharStream σ] (rest : List Char) (offset : Int)
    (P : σ → Prop) : Prop where
  length_le : ∀ {s}, P s → rest.length ≤ CharStream.extent s
  look : ∀ {s}, P s → ∀ n ≤ rest.length, ∃ s',
    CharStream.la s (offset + n + 1) = (rest[n]?, s') ∧ P s'

namespace ShowsFrom

variable {σ : Type} [CharStream σ] {rest : List Char} {offset : Int} {P : σ → Prop} {s : σ}

theorem look_first (h : ShowsFrom rest offset P) (hs : P s) :
    ∃ s', CharStream.la s (offset + 1) = (rest.head?, s') ∧ P s' := by
  have hfirst := h.look hs 0 (Nat.zero_le _)
  rwa [Int.natCast_zero, Int.add_zero, ← List.head?_eq_getElem?] at hfirst

theorem drop (h : ShowsFrom rest offset P) {n : Nat} (hn : n ≤ rest.length) :
    ShowsFrom (rest.drop n) (offset + n) P where
  length_le hs := by
    have hle := h.length_le hs
    rw [List.length_drop]
    omega
  look hs k hk := by
    rw [List.length_drop] at hk
    have hlater := h.look hs (n + k) (by omega)
    rwa [Int.natCast_add, ← Int.add_assoc, ← List.getElem?_drop] at hlater

theorem next {c : Char} (h : ShowsFrom (c :: rest) offset P) : ShowsFrom rest (offset + 1) P :=
  h.drop (n := 1) (Nat.succ_le_succ (Nat.zero_le _))

end ShowsFrom

/-- Ahead of the cursor a stream shows what is left of the text. -/
theorem ReadsAhead.showsFrom {σ : Type} [CharStream σ] {src : List Char} {P : σ → Prop}
    (hP : ReadsAhead src P) (i o : Nat) :
    ShowsFrom (src.drop (i + o)) o fun s => P s ∧ CharStream.index s = i where
  length_le h := by
    rw [hP.extent_eq h.1, List.length_drop]
    exact Nat.sub_le _ _
  look := by
    rintro s ⟨hs, rfl⟩ n -
    obtain ⟨t, hla, ht, hi⟩ := hP.look hs (o + n)
    rw [Int.natCast_add, ← Nat.add_assoc, ← List.getElem?_drop] at hla
    exact ⟨t, hla, ht, hi⟩

/-- Looking ahead and stepping keep `P`. -/
structure ReadsOn {σ : Type} [CharStream σ] (src : List Char) (P : σ → Prop) : Prop
    extends ReadsAhead src P where
  step : ∀ {s}, P s → CharStream.index s < src.length →
    ∃ s', CharStream.consume s = (.ok (), s') ∧ P s' ∧
      CharStream.index s' = CharStream.index s + 1

namespace LawfulView

variable {σ : Type} [CharStream σ] [LawfulView σ]

/-- Over a stream that shows a text, looking and stepping keep what is pinned and was read. -/
theorem readsOn (src : List Char) (kept read : Nat) :
    ReadsOn src fun s : σ => Shows src kept s ∧ read ≤ reach s where
  extent_eq h := extent_eq h.1
  look h n := by
    obtain ⟨t, hla, hm, -⟩ := look h.1 n
    exact ⟨t, hla, ⟨hm.shows, Nat.le_trans h.2 hm.reach_le⟩, hm.index_look⟩
  step h hi := by
    obtain ⟨t, hc, hm⟩ := step h.1 hi
    exact ⟨t, hc, ⟨hm.shows, Nat.le_trans h.2 hm.reach_le⟩, hm.index_eq⟩

end LawfulView

/-- The next character, as the engine and the driver look at it. -/
theorem LawfulView.look_next {σ : Type} [CharStream σ] [LawfulView σ] {src : List Char} {kept : Nat}
    {s : σ} (h : Shows src kept s) : ∃ s', CharStream.la s 1 = (src[CharStream.index s]?, s') ∧
      Moved src kept s 0 s' ∧
      (CharStream.index s < src.length → CharStream.index s < reach s') :=
  LawfulView.look h 0

namespace TextStream

/-- A text in memory holds everything and needs no pin. -/
instance : TextView TextStream where
  Shows src _ s := s.chars.toList = src ∧ s.pos ≤ s.chars.size
  Rests src s := s.chars.toList = src ∧ s.pos ≤ s.chars.size
  reach s := s.chars.size

theorem la_ahead (s : TextStream) (n : Nat) :
    CharStream.la s (n + 1) = (s.chars.toList[s.pos + n]?, s) := by
  rw [Array.getElem?_toList]
  rfl

theorem slice_eq (s : TextStream) (start stop : Nat) :
    s.slice start stop = String.ofList ((s.chars.toList.drop start).take (stop - start)) := by
  simp only [slice, Array.toList_extract, List.extract_eq_take_drop]

theorem moved {src : List Char} {kept n : Nat} {s : TextStream} (h : Shows src kept s)
    (hn : s.pos + n ≤ src.length) : Moved src kept s n { s with pos := s.pos + n } := by
  obtain ⟨rfl, _⟩ := h
  exact ⟨⟨rfl, hn⟩, rfl, Nat.le_refl _⟩

instance : LawfulView TextStream where
  index_le h := h.2
  reach_le h := by
    obtain ⟨rfl, _⟩ := h
    exact Nat.le_refl _
  extent_eq h := by
    obtain ⟨rfl, _⟩ := h
    rfl
  look {_ _ s} h n := by
    obtain ⟨rfl, hp⟩ := h
    exact ⟨s, la_ahead s n, ⟨⟨rfl, hp⟩, rfl, Nat.le_refl _⟩, id⟩
  step {src kept s} h hi := by
    refine ⟨{ s with pos := s.pos + 1 }, ?_, moved h hi⟩
    obtain ⟨rfl, _⟩ := h
    exact if_pos hi
  slice h _ _ := by
    obtain ⟨rfl, _⟩ := h
    exact slice_eq _ _ _
  pin h := ⟨h, rfl⟩
  unpin h _ := ⟨h, rfl⟩

theorem rests_ofString (source name : String) : Rests source.toList (ofString source name) :=
  ⟨rfl, Nat.zero_le _⟩

end TextStream

end ModalLex

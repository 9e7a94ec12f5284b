import ModalLex.Proofs.Stream.Window

/-!
# Streams between calls

Outside a call nothing pins a stream for the lexer, and its caller may step it, look ahead or move
the cursor. The stream then still stands in its text, at the index that the operation says.
-/
namespace ModalLex

open TextView

/-- The laws of a stream that shows a text for what happens to it between calls. A step or a seek
that fails changes nothing. -/
class RoamingView (σ : Type) [CharStream σ] extends LawfulView σ where
  look_rests : ∀ {src} {s : σ}, Rests src s → ∃ s',
    CharStream.la s 1 = (src[CharStream.index s]?, s') ∧ Rests src s' ∧
      CharStream.index s' = CharStream.index s
  step_rests : ∀ {src} {s s' : σ}, Rests src s → CharStream.consume s = (.ok (), s') →
    CharStream.index s < src.length ∧ Rests src s' ∧
      CharStream.index s' = CharStream.index s + 1
  step_failed : ∀ {src} {s s' : σ} {e}, Rests src s → CharStream.consume s = (.error e, s') →
    s' = s
  seek_rests : ∀ {src} {s s' : σ} {n : Nat}, Rests src s → CharStream.seek s n = (.ok (), s') →
    Rests src s' ∧ CharStream.index s' = min n src.length
  seek_failed : ∀ {src} {s s' : σ} {n : Nat} {e}, Rests src s →
    CharStream.seek s n = (.error e, s') → s' = s

namespace RoamingView

variable {σ : Type} [CharStream σ] [RoamingView σ] {src : List Char} {s : σ}

theorem rests_consume (h : Rests src s) : Rests src (CharStream.consume s).2 := by
  rcases hs : CharStream.consume s with ⟨e | _, t⟩
  · rwa [step_failed h hs]
  · exact (step_rests h hs).2.1

theorem rests_seek (h : Rests src s) (n : Nat) : Rests src (CharStream.seek s n).2 := by
  rcases hs : CharStream.seek s n with ⟨e | _, t⟩
  · rwa [seek_failed h hs]
  · exact (seek_rests h hs).1

end RoamingView

namespace TextStream

instance : RoamingView TextStream where
  look_rests {_ s} h := by
    obtain ⟨rfl, hp⟩ := h
    exact ⟨s, la_ahead s 0, ⟨rfl, hp⟩, rfl⟩
  step_rests {_ s s'} h hs := by
    obtain ⟨rfl, -⟩ := h
    change s.consume = (.ok (), s') at hs
    rw [consume] at hs
    split at hs
    · rename_i hi
      cases hs
      exact ⟨hi, ⟨rfl, hi⟩, rfl⟩
    · cases hs
  step_failed {_ s s' e} _ hs := by
    change s.consume = (.error e, s') at hs
    rw [consume] at hs
    split at hs
    · cases hs
    · cases hs
      rfl
  seek_rests {_ s s' n} h hs := by
    obtain ⟨rfl, -⟩ := h
    cases hs
    exact ⟨⟨rfl, Nat.min_le_right _ _⟩, rfl⟩
  seek_failed _ hs := nomatch hs

end TextStream

namespace WindowStream

variable {src : List Char} {s s' : WindowStream} {n : Nat}

/-- The cursor may stand anywhere in the window. -/
theorem Represents.at_cursor (h : Represents src s) {cursor : Nat} (hc : cursor ≤ s.held.size) :
    Represents src { s with cursor } :=
  ⟨h.rest_eq, hc, h.window_le, h.total_eq⟩

theorem Represents.look_next (h : Represents src s) :
    s.look 1 = (src[s.index]?, s.fill (s.cursor + 1)) :=
  h.look 0

/-- Where a character follows, looking for it reads it. -/
theorem Represents.reads_next (h : Represents src s) (hi : s.index < src.length) :
    s.cursor + 1 ≤ (s.fill (s.cursor + 1)).held.size := by
  have hl := (h.fill (s.cursor + 1)).length_unread
  change s.oldest + (s.fill (s.cursor + 1)).held.size + _ = _ at hl
  rcases fill_enough s (s.cursor + 1) with he | he
  · exact he
  · rw [he, List.length_nil] at hl
    rw [index] at hi
    omega

theorem Represents.consume_next (h : Represents src s) (hi : s.index < src.length) :
    ∃ s', s.consume = (.ok (), s') ∧ Represents src s' ∧ s'.index = s.index + 1 := by
  have hf := h.fill (s.cursor + 1)
  refine ⟨_, ?_, (hf.at_cursor (h.reads_next hi)).discard, index_discard _⟩
  rw [WindowStream.consume, h.look_next, List.getElem?_eq_getElem hi]
  rfl

/-- At the end of the text a step looks for a character in vain. -/
theorem Represents.consume_end (h : Represents src s) (hi : src.length ≤ s.index) :
    s.consume = (.error (.illegalState .consumeAtEnd), s) := by
  rw [WindowStream.consume, h.look_next, List.getElem?_eq_none hi, h.fill_end hi]

theorem Represents.consume (h : Represents src s) (hs : s.consume = (.ok (), s')) :
    s.index < src.length ∧ Represents src s' ∧ s'.index = s.index + 1 := by
  rcases Nat.lt_or_ge s.index src.length with hi | hi
  · obtain ⟨t, ht, hrest⟩ := h.consume_next hi
    cases ht.symm.trans hs
    exact ⟨hi, hrest⟩
  · rw [h.consume_end hi] at hs
    cases hs

theorem Represents.consume_failed {e : LexError} (h : Represents src s)
    (hs : s.consume = (.error e, s')) : s' = s := by
  rcases Nat.lt_or_ge s.index src.length with hi | hi
  · obtain ⟨t, ht, -⟩ := h.consume_next hi
    rw [ht] at hs
    cases hs
  · cases (h.consume_end hi).symm.trans hs
    rfl

theorem seek_before (hn : n < s.oldest) :
    s.seek n = (.error (.illegalState (.seekBeforeWindow n s.oldest)), s) :=
  if_pos hn

section

variable (hn : s.oldest ≤ n)

include hn

theorem seek_held (ho : n - s.oldest ≤ s.held.size) :
    s.seek n = (.ok (), { s with cursor := n - s.oldest }.discard) := by
  rw [WindowStream.seek, if_neg (by omega)]
  exact if_pos ho

theorem seek_past (ho : s.held.size < n - s.oldest) (hu : s.unread = []) :
    s.seek n = (.ok (), { s with cursor := s.held.size }) := by
  rw [WindowStream.seek, if_neg (by omega)]
  dsimp only
  rw [if_neg (by omega), if_pos (List.isEmpty_iff.mpr hu)]

/-- A seek past the window reads on up to the index. -/
theorem seek_reading (ho : s.held.size < n - s.oldest) (hu : s.unread ≠ []) :
    s.seek n = (.ok (), { s.fill (n - s.oldest) with
      cursor := (s.fill (n - s.oldest)).held.size }.discard) := by
  rw [WindowStream.seek, if_neg (by omega)]
  dsimp only
  rw [if_neg (by omega), if_neg (by rwa [List.isEmpty_iff]), WindowStream.readOn,
    Nat.add_sub_cancel' (Nat.le_of_lt ho)]

theorem Represents.seek_within (h : Represents src s) :
    ∃ s', s.seek n = (.ok (), s') ∧ Represents src s' ∧ s'.index = min n src.length := by
  have hl := h.length_unread
  rcases Nat.lt_or_ge s.held.size (n - s.oldest) with ho | ho
  · by_cases hu : s.unread = []
    · rw [hu, List.length_nil] at hl
      refine ⟨_, seek_past hn ho hu, h.at_cursor (Nat.le_refl _), ?_⟩
      change s.oldest + s.held.size = _
      omega
    · have hf := h.fill (n - s.oldest)
      refine ⟨_, seek_reading hn ho hu, (hf.at_cursor (Nat.le_refl _)).discard,
        (index_discard _).trans ?_⟩
      change s.oldest + (s.fill (n - s.oldest)).held.size = _
      rw [size_fill]
      omega
  · refine ⟨_, seek_held hn ho, (h.at_cursor ho).discard, (index_discard _).trans ?_⟩
    change s.oldest + (n - s.oldest) = _
    omega

end

theorem Represents.seek (h : Represents src s) (hs : s.seek n = (.ok (), s')) :
    Represents src s' ∧ s'.index = min n src.length := by
  rcases Nat.lt_or_ge n s.oldest with hn | hn
  · rw [seek_before hn] at hs
    cases hs
  · obtain ⟨t, ht, hrest⟩ := h.seek_within hn
    cases ht.symm.trans hs
    exact hrest

theorem Represents.seek_failed {e : LexError} (h : Represents src s)
    (hs : s.seek n = (.error e, s')) : s' = s := by
  rcases Nat.lt_or_ge n s.oldest with hn | hn
  · cases (seek_before hn).symm.trans hs
    rfl
  · obtain ⟨t, ht, -⟩ := h.seek_within hn
    rw [ht] at hs
    cases hs

instance : RoamingView WindowStream where
  look_rests {_ s} h := ⟨_, h.look_next, h.fill (s.cursor + 1), rfl⟩
  step_rests h hs := h.consume hs
  step_failed h hs := h.consume_failed hs
  seek_rests h hs := h.seek hs
  seek_failed h hs := h.seek_failed hs

end WindowStream

end ModalLex

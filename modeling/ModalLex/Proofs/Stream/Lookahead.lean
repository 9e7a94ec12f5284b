import ModalLex.Proofs.Stream.Forgetting

/-!
# Looking ahead between calls

A stream that no one pins still shows what lies ahead of its cursor. A window reads on for that, and
no other answer tells how far it has read. Main statement: two windows that differ only in how far
they have read ahead answer alike for ever after, save where a seek overruns the one that has read
the whole text.
-/
namespace ModalLex

open TextView

/-- The laws of a stream that shows a text for looking ahead and stepping without a pin. -/
class RestingView (σ : Type) [CharStream σ] extends RoamingView σ where
  readsOn_rests : ∀ src, ReadsOn src fun s : σ => Rests src s

instance : RestingView TextStream where
  readsOn_rests src :=
    { extent_eq := by
        rintro s ⟨rfl, -⟩
        rfl
      look := by
        rintro s ⟨rfl, hp⟩ n
        exact ⟨s, TextStream.la_ahead s n, ⟨rfl, hp⟩, rfl⟩
      step := by
        rintro s ⟨rfl, -⟩ hi
        exact ⟨{ s with pos := s.pos + 1 }, if_pos hi, ⟨rfl, hi⟩, rfl⟩ }

instance : RestingView WindowStream where
  readsOn_rests _ :=
    { extent_eq := fun h => h.total_eq
      look := fun {s} h n => ⟨_, h.look n, h.fill (s.cursor + (n + 1)), rfl⟩
      step := fun h hi => h.consume_next hi }

/-- What a caller may learn of a stream by looking ahead, by a step and by a seek: what is answered,
and the index that is left. -/
structure AnswersAlike {σ : Type} [CharStream σ] (s t : σ) : Prop where
  index_eq : CharStream.index s = CharStream.index t
  look_eq : ∀ n : Nat, (CharStream.la s (n + 1)).1 = (CharStream.la t (n + 1)).1
  consume_eq : (CharStream.consume s).map id CharStream.index =
    (CharStream.consume t).map id CharStream.index
  seek_eq : ∀ n, (CharStream.seek s n).map id CharStream.index =
    (CharStream.seek t n).map id CharStream.index

theorem AnswersAlike.refl {σ : Type} [CharStream σ] (s : σ) : AnswersAlike s s :=
  ⟨rfl, fun _ => rfl, rfl, fun _ => rfl⟩

namespace WindowStream

/-- `t` is `s`, but it may have read further ahead. -/
def Ahead (s t : WindowStream) : Prop := ∃ wanted, t = s.fill wanted

variable {src : List Char} {s t : WindowStream}

theorem Ahead.refl (s : WindowStream) : Ahead s s :=
  ⟨0, by simp [fill]⟩

theorem Ahead.represents (h : Ahead s t) (hs : Represents src s) : Represents src t := by
  obtain ⟨wanted, rfl⟩ := h
  exact hs.fill wanted

theorem toList_fill (s : WindowStream) (wanted : Nat) :
    (s.fill wanted).held.toList = s.held.toList ++ s.unread.take (wanted - s.held.size) := by
  rw [fill, Array.toList_appendList]

/-- A window is known by its characters, those held and those unread, and by the rest of it. -/
theorem eq_fill {wanted : Nat}
    (hheld : t.held.toList = s.held.toList ++ s.unread.take (wanted - s.held.size))
    (hunread : t.unread = s.unread.drop (wanted - s.held.size))
    (hrest : { t with held := #[], unread := [] } = { s with held := #[], unread := [] }) :
    t = s.fill wanted := by
  rw [← toList_fill, Array.toList_inj] at hheld
  obtain ⟨⟩ := t
  rw [WindowStream.mk.injEq] at hrest
  rw [fill, WindowStream.mk.injEq]
  exact ⟨hunread, hheld, hrest.2.2⟩

/-- Reading on twice is reading on once, as far as the further of the two. -/
theorem fill_fill (s : WindowStream) (a b : Nat) : (s.fill a).fill b = s.fill (max a b) := by
  -- What is unread is cut at `a` first; the rest of the way to `b` is cut from what remains.
  have hcut : (a - s.held.size) + (b - (s.fill a).held.size) = max a b - s.held.size ∨
      s.unread.length ≤ a - s.held.size := by
    rw [size_fill]
    omega
  refine eq_fill ?_ ?_ rfl
  · rw [toList_fill, toList_fill, List.append_assoc]
    congr 1
    show _ ++ (s.unread.drop _).take _ = _
    rcases hcut with hcut | hcut
    · rw [← List.take_add, hcut]
    · rw [List.drop_eq_nil_of_le hcut, List.take_nil, List.append_nil, List.take_of_length_le hcut,
        List.take_of_length_le (by omega)]
  · show (s.unread.drop _).drop _ = s.unread.drop _
    rcases hcut with hcut | hcut
    · rw [List.drop_drop, hcut]
    · rw [List.drop_eq_nil_of_le hcut, List.drop_nil, List.drop_eq_nil_of_le (by omega)]

theorem discard_consumed (s : WindowStream) (hd : s.marks = 0 ∧ 0 < s.cursor) :
    s.discard =
      { s with
        held := s.held.extract s.cursor s.held.size
        oldest := s.oldest + s.cursor
        cursor := 0 } :=
  if_pos hd

theorem toList_consumed (s : WindowStream) :
    (s.held.extract s.cursor s.held.size).toList = s.held.toList.drop s.cursor := by
  rw [Array.toList_extract, List.extract_eq_take_drop, List.take_of_length_le (by simp)]

/-- Forgetting what was consumed does not touch what was read ahead. -/
theorem Ahead.discard (h : Ahead s t) (hc : s.cursor ≤ s.held.size) :
    Ahead s.discard t.discard := by
  obtain ⟨wanted, rfl⟩ := h
  by_cases hd : s.marks = 0 ∧ 0 < s.cursor
  · refine ⟨wanted - s.cursor, ?_⟩
    rw [discard_consumed s hd, discard_consumed (s.fill wanted) hd]
    have hmissing : (wanted - s.cursor) - (s.held.extract s.cursor s.held.size).size =
        wanted - s.held.size := by
      rw [Array.size_extract]
      omega
    refine eq_fill ?_ ?_ rfl
    · dsimp only
      rw [hmissing, toList_consumed, toList_consumed, toList_fill,
        List.drop_append_of_le_length (by rw [Array.length_toList]; exact hc)]
      rfl
    · dsimp only
      rw [hmissing]
      rfl
  · rw [show s.discard = s from if_neg hd,
      show (s.fill wanted).discard = s.fill wanted from if_neg hd]
    exact ⟨wanted, rfl⟩

variable {u v : InUse WindowStream} {marks : List Mark}

/-- A cursor that is set in both windows leaves one ahead of the other. -/
theorem Ahead.at_cursor (h : Ahead s t) (cursor : Nat) :
    Ahead { s with cursor } { t with cursor } := by
  obtain ⟨wanted, rfl⟩ := h
  exact ⟨wanted, rfl⟩

theorem Ahead.with_marks (h : Ahead s t) (marks : Nat) :
    Ahead { s with marks } { t with marks } := by
  obtain ⟨wanted, rfl⟩ := h
  exact ⟨wanted, rfl⟩

theorem Ahead.fill (h : Ahead s t) (wanted : Nat) : Ahead (s.fill wanted) (t.fill wanted) := by
  obtain ⟨further, rfl⟩ := h
  exact ⟨further, by rw [fill_fill, fill_fill, Nat.max_comm]⟩

theorem Ahead.la (h : Ahead s t) (n : Int) : Ahead (CharStream.la s n).2 (CharStream.la t n).2 := by
  cases n with
  | ofNat n =>
    cases n with
    | zero => exact h
    | succ n =>
      have hcursor : t.cursor = s.cursor := by
        obtain ⟨wanted, rfl⟩ := h
        rfl
      show Ahead (s.fill (s.cursor + (n + 1))) (t.fill (t.cursor + (n + 1)))
      rw [hcursor]
      exact h.fill _
  | negSucc n => exact h

/-- Two requests end alike: with the same outcome, and with one window ahead of the other. -/
structure EndsAhead (r r' : Except LexError Unit × WindowStream) : Prop where
  outcome_eq : r.1 = r'.1
  ahead : Ahead r.2 r'.2

theorem Ahead.consume (h : Ahead s t) (hs : Represents src s) :
    EndsAhead (CharStream.consume s) (CharStream.consume t) := by
  have ht := h.represents hs
  have hindex : t.index = s.index ∧ t.cursor = s.cursor := by
    obtain ⟨wanted, rfl⟩ := h
    exact ⟨rfl, rfl⟩
  rcases Nat.lt_or_ge s.index src.length with hi | hi
  · obtain ⟨s', hs', -⟩ := hs.consume_next hi
    obtain ⟨t', ht', -⟩ := ht.consume_next (by omega)
    rw [show CharStream.consume s = _ from hs', show CharStream.consume t = _ from ht',
      consume_eq hs', consume_eq ht', hindex.2]
    exact ⟨rfl, ((h.fill _).at_cursor _).discard (hs.reads_next hi)⟩
  · rw [show CharStream.consume s = _ from hs.consume_end hi,
      show CharStream.consume t = _ from ht.consume_end (by omega)]
    exact ⟨rfl, h⟩

theorem EndsAhead.refl (r : Except LexError Unit × WindowStream) : EndsAhead r r :=
  ⟨rfl, .refl r.2⟩

/-- A seek past what both windows hold ends alike, unless it overruns the one that is ahead. -/
theorem seek_past_both {n wanted : Nat} (hb : s.oldest ≤ n) (hu : s.unread ≠ [])
    (ho : (s.fill wanted).held.size < n - s.oldest) (hn : ¬ (s.fill wanted).Overruns n) :
    EndsAhead (s.seek n) ((s.fill wanted).seek n) := by
  have hsize := size_fill s wanted
  have hsize' := size_fill s (n - s.oldest)
  have hpos := List.length_pos_iff.mpr hu
  rw [seek_reading hb (by omega) hu]
  by_cases hut : (s.fill wanted).unread = []
  · -- The one that is ahead has read everything, and a mark keeps both from forgetting.
    have hlen : s.unread.length ≤ wanted - s.held.size := List.drop_eq_nil_iff.mp hut
    have hmarks : 0 < s.marks := by
      refine Nat.pos_of_ne_zero fun hm => hn ⟨hm, hut, by omega, ?_⟩
      show s.oldest + (s.fill wanted).held.size < n
      omega
    have hall : s.fill (n - s.oldest) = s.fill wanted := by
      have hw := fill_of_read hut (n - s.oldest)
      have hr : (s.fill (n - s.oldest)).unread = [] := List.drop_eq_nil_of_le (by omega)
      rw [← fill_of_read hr wanted, fill_fill, Nat.max_comm, ← fill_fill, hw]
    rw [seek_past (s := s.fill wanted) hb ho hut, hall,
      discard_of_pinned (s := { s.fill wanted with cursor := (s.fill wanted).held.size }) hmarks]
    exact .refl _
  · have hw : wanted ≤ (s.fill wanted).held.size := (fill_enough s wanted).resolve_right hut
    have hfar : (s.fill wanted).fill (n - s.oldest) = s.fill (n - s.oldest) := by
      rw [fill_fill, Nat.max_eq_right (by omega)]
    rw [seek_reading (s := s.fill wanted) hb ho hut,
      show n - (s.fill wanted).oldest = n - s.oldest from rfl, hfar]
    exact .refl _

/-- A seek reads on as far as it goes, so that what was read ahead before makes no difference,
unless nothing is left to be read and the seek forgets nothing. -/
theorem Ahead.seek (h : Ahead s t) {n : Nat} (hn : ¬ t.Overruns n) :
    EndsAhead (CharStream.seek s n) (CharStream.seek t n) := by
  obtain ⟨wanted, rfl⟩ := h
  have hsize := size_fill s wanted
  show EndsAhead (s.seek n) ((s.fill wanted).seek n)
  rcases Nat.lt_or_ge n s.oldest with hb | hb
  · rw [WindowStream.seek_before hb,
      WindowStream.seek_before (show n < (s.fill wanted).oldest from hb)]
    exact ⟨rfl, wanted, rfl⟩
  by_cases ho : n - s.oldest ≤ s.held.size
  · rw [seek_held hb ho,
      seek_held (s := s.fill wanted) hb (show n - s.oldest ≤ _ by omega)]
    exact ⟨rfl, (Ahead.at_cursor ⟨wanted, rfl⟩ _).discard ho⟩
  by_cases hu : s.unread = []
  · rw [fill_of_read hu]
    exact .refl _
  rcases Nat.lt_or_ge (s.fill wanted).held.size (n - s.oldest) with hot | hot
  · exact seek_past_both hb hu hot hn
  · -- The index lies among the characters that were read ahead.
    have hsize' := size_fill s (n - s.oldest)
    have hcursor : (s.fill (n - s.oldest)).held.size = n - s.oldest := by omega
    have hahead : Ahead (s.fill (n - s.oldest)) (s.fill wanted) := by
      refine ⟨wanted, ?_⟩
      rw [fill_fill, Nat.max_eq_right (by omega)]
    rw [seek_reading hb (by omega) hu, seek_held (s := s.fill wanted) hb hot, hcursor]
    exact ⟨rfl, (hahead.at_cursor _).discard (Nat.le_of_eq hcursor.symm)⟩

/-- Every request keeps one window ahead of the other, except a seek that overruns it. -/
theorem Ahead.perform (h : Ahead u.stream v.stream) (hm : u.marks = v.marks)
    (hs : Represents src u.stream) (r : StreamRequest)
    (hr : ∀ n, r = .seek n → ¬ v.stream.Overruns n) :
    Ahead (u.perform r).stream (v.perform r).stream ∧
      (u.perform r).marks = (v.perform r).marks := by
  cases r with
  | look n => exact ⟨h.la n, hm⟩
  | consume => exact ⟨(h.consume hs).ahead, hm⟩
  | mark =>
    obtain ⟨wanted, hv⟩ := h
    have hmarks : v.stream.marks = u.stream.marks := by rw [hv]; rfl
    rw [InUse.perform, InUse.perform, hm, hv]
    exact ⟨⟨wanted, rfl⟩, rfl⟩
  | release =>
    rw [InUse.perform, InUse.perform, hm]
    cases v.marks with
    | nil => exact ⟨h, hm⟩
    | cons mark marks =>
      obtain ⟨wanted, hv⟩ := h
      rw [hv]
      exact ⟨((Ahead.with_marks ⟨wanted, rfl⟩ _).discard hs.cursor_le), rfl⟩
  | seek n => exact ⟨(h.seek (hr n rfl)).ahead, hm⟩
  | text start stop => exact ⟨h, hm⟩

/-- None of the requests is a seek that overruns the window. -/
def Spares (u : InUse WindowStream) (requests : List StreamRequest) : Prop :=
  ∀ before n after, requests = before ++ .seek n :: after →
    ¬ (u.performAll before).stream.Overruns n

theorem Spares.head {r : StreamRequest} {requests : List StreamRequest}
    (h : Spares v (r :: requests)) (n : Nat) (hr : r = .seek n) : ¬ v.stream.Overruns n :=
  h [] n requests (by rw [hr]; rfl)

theorem Spares.tail {r : StreamRequest} {requests : List StreamRequest}
    (h : Spares v (r :: requests)) : Spares (v.perform r) requests := by
  intro before n after he
  exact h (r :: before) n after (by rw [he]; rfl)

/-- Any requests that spare it leave one window ahead of the other. -/
theorem Ahead.performAll {requests : List StreamRequest} (h : Ahead u.stream v.stream)
    (hm : u.marks = v.marks) (hs : Represents src u.stream) (hspare : Spares v requests) :
    Ahead (u.performAll requests).stream (v.performAll requests).stream := by
  induction requests generalizing u v with
  | nil => exact h
  | cons r requests ih =>
    obtain ⟨hr, hmr⟩ := h.perform hm hs r hspare.head
    exact ih hr hmr (Represents.perform u r hs) hspare.tail

/-- A window that has read further ahead gives the same answers. -/
theorem Ahead.answersAlike (h : Ahead s t) (hs : Represents src s) : AnswersAlike s t := by
  have ht := h.represents hs
  obtain ⟨wanted, rfl⟩ := h
  constructor
  · rfl
  · intro n
    exact (hs.la_ahead n).trans (ht.la_ahead n).symm
  · exact hs.consume_index.trans ht.consume_index.symm
  · intro n
    rcases Nat.lt_or_ge n s.oldest with hn | hn
    · show (s.seek n).map _ _ = ((s.fill wanted).seek n).map _ _
      rw [WindowStream.seek_before hn,
        WindowStream.seek_before (show n < (s.fill wanted).oldest from hn)]
      rfl
    · exact (hs.seek_index hn).trans (ht.seek_index hn).symm

end WindowStream

end ModalLex

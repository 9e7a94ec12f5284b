import ModalLex.Proofs.Stream.Caller

/-!
# A window beside the whole text

A user looks, steps, pins, lets go of its last pin, moves the cursor and reads, in any order. After
every such history a window answers as a stream over the whole text that stands at the same index
does, as far back as the window still holds the characters.
-/
namespace ModalLex

/-- What a user asks of a stream. -/
inductive StreamRequest
  | look (distance : Int)
  | consume
  | mark
  /-- Give the most recent mark back, if there is one. -/
  | release
  | seek (index : Nat)
  | text (start stop : Nat)
  deriving DecidableEq, Repr

/-- A stream in use, with the marks its user holds, most recent first. -/
structure InUse (σ : Type) where
  stream : σ
  marks : List Mark := []

namespace InUse

variable {σ : Type} [CharStream σ]

/-- The stream after a request, whether that fails or not. -/
def perform (u : InUse σ) : StreamRequest → InUse σ
  | .look distance => { u with stream := (CharStream.la u.stream distance).2 }
  | .consume => { u with stream := (CharStream.consume u.stream).2 }
  | .mark => ⟨(CharStream.mark u.stream).2, (CharStream.mark u.stream).1 :: u.marks⟩
  | .release =>
    match u.marks with
    | [] => u
    | mark :: marks => ⟨CharStream.release u.stream mark, marks⟩
  | .seek index => { u with stream := (CharStream.seek u.stream index).2 }
  | .text _ _ => u

def performAll (u : InUse σ) (requests : List StreamRequest) : InUse σ :=
  requests.foldl perform u

/-- What every request keeps holds after all of them. -/
theorem performAll_invariant {P : σ → Prop}
    (step : ∀ (u : InUse σ) (r : StreamRequest), P u.stream → P (u.perform r).stream)
    (requests : List StreamRequest) (u : InUse σ) (h : P u.stream) :
    P (u.performAll requests).stream := by
  induction requests generalizing u with
  | nil => exact h
  | cons r requests ih => exact ih (u.perform r) (step u r h)

end InUse

namespace WindowStream

/-- A stream over the whole text that stands where the window does. -/
def whole (source : String) (s : WindowStream) : TextStream :=
  { TextStream.ofString source s.name with pos := s.index }

/-- `s` is a window on `source`: what it holds, what it answers and where its cursor may go are
those of the whole text, cut to the characters from `s.oldest` on. A step and a seek are compared by
their outcomes and by the indices that they leave. -/
structure WindowOn (source : String) (s : WindowStream) : Prop where
  held_eq : s.held.toList = (source.toList.drop s.oldest).take s.held.size
  oldest_le : s.oldest ≤ s.index
  index_le : s.index ≤ min (s.oldest + s.held.size) source.length
  look_ahead : ∀ n : Int, 0 ≤ n →
    (CharStream.la s n).1 = (CharStream.la (s.whole source) n).1
  look_behind : ∀ n : Int, n < 0 →
    (CharStream.la s n).1 =
      if (s.oldest : Int) ≤ s.index + n then (CharStream.la (s.whole source) n).1 else none
  consume_eq : (CharStream.consume s).map id CharStream.index =
    (CharStream.consume (s.whole source)).map id CharStream.index
  consume_failed : ∀ e t, CharStream.consume s = (.error e, t) → t = s
  text_eq : ∀ start stop, CharStream.text s start stop =
    String.ofList
      ((source.toList.take (min stop (s.oldest + s.held.size))).drop (max start s.oldest))
  seek_within : ∀ n, s.oldest ≤ n →
    (CharStream.seek s n).map id CharStream.index = (.ok (), min n source.length)
  seek_before : ∀ n, n < s.oldest →
    CharStream.seek s n = (.error (.illegalState (.seekBeforeWindow n s.oldest)), s)
  /-- A request moves the index as it does on the whole text, unless it seeks what was let go;
  then nothing changes. -/
  perform_eq : ∀ (r : StreamRequest) (marks : List Mark),
    (∀ n, r = .seek n → s.oldest ≤ n) →
      CharStream.index ((InUse.mk s marks).perform r).stream =
        CharStream.index ((InUse.mk (s.whole source) marks).perform r).stream
  perform_before : ∀ (n : Nat) (marks : List Mark), n < s.oldest →
    (InUse.mk s marks).perform (.seek n) = InUse.mk s marks

variable {source : String} {src : List Char} {s : WindowStream}

theorem Represents.release (h : Represents src s) (mark : Mark) :
    Represents src (CharStream.release s mark) :=
  (h.with_marks _).discard

theorem index_release (s : WindowStream) (mark : Mark) :
    CharStream.index (CharStream.release s mark) = s.index :=
  index_discard { s with marks := s.marks - 1 }

theorem Represents.la (h : Represents src s) (n : Int) : Represents src (CharStream.la s n).2 := by
  cases n with
  | ofNat n =>
    cases n with
    | zero => exact h
    | succ n => exact h.fill _
  | negSucc n => exact h

theorem index_la (s : WindowStream) (n : Int) : CharStream.index (CharStream.la s n).2 = s.index := by
  cases n with
  | ofNat n => cases n <;> rfl
  | negSucc n => rfl

/-- Every request leaves the window on its text. -/
theorem Represents.perform (u : InUse WindowStream) (r : StreamRequest)
    (h : Represents src u.stream) : Represents src (u.perform r).stream := by
  cases r with
  | look n => exact h.la n
  | consume => exact RoamingView.rests_consume (s := u.stream) h
  | mark => exact h.with_marks _
  | release =>
    rw [InUse.perform]
    split
    · exact h
    · exact h.release _
  | seek n => exact RoamingView.rests_seek (s := u.stream) h n
  | text start stop => exact h

theorem Represents.la_ahead (h : Represents src s) (n : Nat) :
    (CharStream.la s (.ofNat (n + 1))).1 = src[s.index + n]? :=
  congrArg Prod.fst (h.look n)

theorem Represents.la_behind (h : Represents src s) (k : Nat) :
    (CharStream.la s (.negSucc k)).1 =
      if s.oldest + (k + 1) ≤ s.index then src[s.index - (k + 1)]? else none := by
  have hc := h.cursor_le
  have hi : s.oldest + (k + 1) ≤ s.index ↔ k + 1 ≤ s.cursor := Nat.add_le_add_iff_left
  show (if k + 1 ≤ s.cursor then s.held[s.cursor - (k + 1)]? else none) = _
  by_cases hk : k + 1 ≤ s.cursor
  · rw [if_pos hk, if_pos (hi.mpr hk), h.getElem?_held _ (.inl (by omega))]
    rw [index, Nat.add_sub_assoc hk]
  · rw [if_neg hk, if_neg (fun h => hk (hi.mp h))]

theorem whole_la_ahead (source : String) (s : WindowStream) (n : Nat) :
    (CharStream.la (s.whole source) (.ofNat (n + 1))).1 = source.toList[s.index + n]? :=
  List.getElem?_toArray

theorem whole_la_behind (source : String) (s : WindowStream) (k : Nat) (hk : k + 1 ≤ s.index) :
    (CharStream.la (s.whole source) (.negSucc k)).1 = source.toList[s.index - (k + 1)]? :=
  (if_pos hk).trans List.getElem?_toArray

theorem Represents.consume_index (h : Represents src s) :
    (CharStream.consume s).map id CharStream.index =
      if s.index < src.length then (.ok (), s.index + 1)
      else (.error (.illegalState .consumeAtEnd), s.index) := by
  by_cases hi : s.index < src.length
  · obtain ⟨t, ht, -, hti⟩ := h.consume_next hi
    rw [if_pos hi, show CharStream.consume s = (.ok (), t) from ht]
    exact congrArg (Prod.mk (Except.ok ())) hti
  · rw [if_neg hi, show CharStream.consume s = _ from h.consume_end (Nat.not_lt.mp hi)]
    rfl

theorem whole_consume_index (source : String) (s : WindowStream) :
    (CharStream.consume (s.whole source)).map id CharStream.index =
      if s.index < source.toList.length then (.ok (), s.index + 1)
      else (.error (.illegalState .consumeAtEnd), s.index) := by
  have hs : (s.whole source).chars.size = source.toList.length := List.size_toArray
  show (TextStream.consume (s.whole source)).map id CharStream.index = _
  rw [TextStream.consume, ← hs]
  show Prod.map _ _ (if s.index < _ then _ else _) = _
  split <;> rfl

theorem Represents.seek_index (h : Represents src s) {n : Nat} (hn : s.oldest ≤ n) :
    (CharStream.seek s n).map id CharStream.index = (.ok (), min n src.length) := by
  obtain ⟨t, ht, -, hti⟩ := h.seek_within hn
  rw [show CharStream.seek s n = (.ok (), t) from ht]
  exact congrArg (Prod.mk (Except.ok ())) hti

theorem Represents.index_perform (h : Represents source.toList s) (r : StreamRequest)
    (marks : List Mark) (hr : ∀ n, r = .seek n → s.oldest ≤ n) :
    CharStream.index ((InUse.mk s marks).perform r).stream =
      CharStream.index ((InUse.mk (s.whole source) marks).perform r).stream := by
  cases r with
  | look n => exact index_la s n
  | consume =>
    have hsame := h.consume_index.trans (whole_consume_index source s).symm
    exact congrArg Prod.snd hsame
  | mark => rfl
  | release =>
    cases marks with
    | nil => rfl
    | cons mark marks => exact index_release s mark
  | seek n => exact congrArg Prod.snd (h.seek_index (hr n rfl))
  | text start stop => rfl

/-- A window that lies on the text answers as the text. -/
theorem Represents.windowOn (h : Represents source.toList s) : WindowOn source s where
  held_eq := h.held_eq
  oldest_le := Nat.le_add_right _ _
  index_le := by
    have hc := h.cursor_le
    have hw := h.window_le
    rw [String.length_toList] at hw
    rw [index]
    omega
  look_ahead n hn := by
    obtain ⟨n, rfl⟩ := Int.eq_ofNat_of_zero_le hn
    cases n with
    | zero => rfl
    | succ n =>
      exact (h.la_ahead n).trans (whole_la_ahead source s n).symm
  look_behind n hn := by
    cases n with
    | ofNat n => exact absurd hn (Int.not_lt.mpr (Int.natCast_nonneg n))
    | negSucc k =>
      rw [h.la_behind]
      by_cases hk : s.oldest + (k + 1) ≤ s.index
      · rw [if_pos hk, if_pos (by omega), whole_la_behind source s k (by omega)]
      · rw [if_neg hk, if_neg (by omega)]
  consume_eq := h.consume_index.trans (whole_consume_index source s).symm
  consume_failed _ _ hs := h.consume_failed hs
  text_eq := h.slice
  seek_within n hn := by
    rw [h.seek_index hn, String.length_toList]
  seek_before n hn := WindowStream.seek_before hn
  perform_eq := h.index_perform
  perform_before n marks hn := by
    rw [InUse.perform, show CharStream.seek s n = _ from WindowStream.seek_before hn]

/-- Whatever is asked of a window from its start on, it is a window on its text. -/
theorem performAll_windowOn (source name : String) (requests : List StreamRequest) :
    WindowOn source (InUse.performAll ⟨ofString source name, []⟩ requests).stream :=
  (InUse.performAll_invariant Represents.perform requests _
    (represents_ofString source name)).windowOn

end WindowStream

end ModalLex

import ModalLex.Proofs.Stream.Reading

/-!
# A window as a view of its text

The held and the unread characters together are the text from the window's first index on.
Reading on, stepping, pinning and letting go keep this; a pinned window moreover keeps its
first index, so that no character behind the oldest pin is forgotten.
-/
namespace ModalLex.WindowStream

open TextView

/-- The window lies on `src`, with its cursor in the held part. -/
structure Represents (src : List Char) (s : WindowStream) : Prop where
  rest_eq : s.held.toList ++ s.unread = src.drop s.oldest
  cursor_le : s.cursor ≤ s.held.size
  window_le : s.oldest + s.held.size ≤ src.length
  total_eq : s.total = src.length

/-- A window that is pinned and has forgotten nothing from `kept` on. -/
structure Pinned (src : List Char) (kept : Nat) (s : WindowStream) : Prop
    extends Represents src s where
  pinned : 0 < s.marks
  oldest_le : s.oldest ≤ kept

variable {src : List Char} {kept : Nat} {s : WindowStream}

theorem represents_ofString (source name : String) :
    Represents source.toList (ofString source name) where
  rest_eq := rfl
  cursor_le := Nat.le_refl 0
  window_le := Nat.zero_le _
  total_eq := String.length_toList.symm

/-- Of the window and what is unread, the cursor and an offset pick a character of the text. -/
theorem Represents.getElem?_held (h : Represents src s) (k : Nat)
    (hk : k < s.held.size ∨ s.unread = []) : s.held[k]? = src[s.oldest + k]? := by
  rw [← List.getElem?_drop, ← h.rest_eq, ← Array.getElem?_toList]
  rcases hk with hk | hk
  · exact (List.getElem?_append_left (by simpa using hk)).symm
  · rw [hk, List.append_nil]

theorem Represents.length_unread (h : Represents src s) :
    s.oldest + s.held.size + s.unread.length = src.length := by
  have hl := congrArg List.length h.rest_eq
  have hw := h.window_le
  simp only [List.length_append, Array.length_toList, List.length_drop] at hl
  omega

@[simp]
theorem size_fill (s : WindowStream) (wanted : Nat) :
    (s.fill wanted).held.size = s.held.size + min (wanted - s.held.size) s.unread.length := by
  rw [fill, ← Array.length_toList, Array.toList_appendList, List.length_append, List.length_take,
    Array.length_toList]

theorem Represents.fill (h : Represents src s) (wanted : Nat) :
    Represents src (s.fill wanted) where
  rest_eq := by
    have he : (s.fill wanted).held.toList ++ (s.fill wanted).unread = s.held.toList ++ s.unread := by
      simp [WindowStream.fill]
    exact he.trans h.rest_eq
  cursor_le := by
    have hc := h.cursor_le
    rw [size_fill]
    exact Nat.le_trans hc (Nat.le_add_right _ _)
  window_le := by
    have hl := h.length_unread
    rw [size_fill]
    change s.oldest + _ ≤ _
    omega
  total_eq := h.total_eq

/-- A window filled up to an index that the text has not reached holds the whole rest. -/
theorem fill_enough (s : WindowStream) (wanted : Nat) :
    wanted ≤ (s.fill wanted).held.size ∨ (s.fill wanted).unread = [] := by
  rw [size_fill]
  by_cases hw : wanted - s.held.size ≤ s.unread.length
  · left
    omega
  · right
    exact List.drop_eq_nil_of_le (by omega)

theorem fill_of_read (hu : s.unread = []) (wanted : Nat) : s.fill wanted = s := by
  rw [WindowStream.fill, hu, List.take_nil, List.drop_nil, Array.appendList_nil, ← hu]

/-- At the end of the text there is nothing to read on to. -/
theorem Represents.fill_end (h : Represents src s) (hi : src.length ≤ s.index) (wanted : Nat) :
    s.fill wanted = s := by
  have hl := h.length_unread
  have hc := h.cursor_le
  rw [index] at hi
  exact fill_of_read (List.eq_nil_of_length_eq_zero (by omega)) wanted

theorem Represents.discard (h : Represents src s) : Represents src s.discard := by
  unfold WindowStream.discard
  split
  · have hc := h.cursor_le
    constructor
    · change (s.held.extract s.cursor s.held.size).toList ++ s.unread = src.drop (s.oldest + s.cursor)
      rw [Array.toList_extract, List.extract_eq_take_drop, List.take_of_length_le (by simp),
        ← List.drop_drop, ← h.rest_eq, List.drop_append_of_le_length (by simpa using hc)]
    · exact Nat.zero_le _
    · have hw := h.window_le
      simp only [Array.size_extract]
      omega
    · exact h.total_eq
  · exact h

@[simp]
theorem index_discard (s : WindowStream) : s.discard.index = s.index := by
  unfold WindowStream.discard
  split <;> rfl

theorem discard_of_pinned (hm : 0 < s.marks) : s.discard = s :=
  if_neg fun h => Nat.ne_of_gt hm h.1

instance : TextView WindowStream where
  Shows := Pinned
  Rests := Represents
  reach s := s.oldest + s.held.size

theorem Pinned.fill (h : Pinned src kept s) (wanted : Nat) :
    Moved src kept s 0 (s.fill wanted) where
  shows := { h.toRepresents.fill wanted with pinned := h.pinned, oldest_le := h.oldest_le }
  index_eq := rfl
  reach_le := by
    change s.oldest + _ ≤ s.oldest + _
    rw [size_fill]
    omega

theorem look_ahead (s : WindowStream) (n : Nat) :
    s.look (n + 1) = ((s.fill (s.cursor + (n + 1))).held[s.cursor + n]?, s.fill (s.cursor + (n + 1))) :=
  rfl

/-- Looking ahead finds the character of the text. -/
theorem Represents.look (h : Represents src s) (n : Nat) :
    s.look (n + 1) = (src[s.index + n]?, s.fill (s.cursor + (n + 1))) := by
  have hf := h.fill (s.cursor + (n + 1))
  have he := fill_enough s (s.cursor + (n + 1))
  rw [look_ahead, hf.getElem?_held (s.cursor + n) (he.imp_left fun h => by omega)]
  rw [show (s.fill (s.cursor + (n + 1))).oldest + (s.cursor + n) = s.index + n from
    (Nat.add_assoc _ _ _).symm]

theorem Pinned.look (h : Pinned src kept s) (n : Nat) :
    s.look (n + 1) = (src[s.index + n]?, s.fill (s.cursor + (n + 1))) ∧
      (s.index + n < src.length →
        s.index + n < s.oldest + (s.fill (s.cursor + (n + 1))).held.size) := by
  refine ⟨h.toRepresents.look n, fun hn => ?_⟩
  have he := fill_enough s (s.cursor + (n + 1))
  have hl := (h.toRepresents.fill (s.cursor + (n + 1))).length_unread
  change s.oldest + _ + _ = _ at hl
  rw [index] at hn ⊢
  rcases he with he | he
  · omega
  · rw [he, List.length_nil] at hl
    omega

theorem Pinned.step (h : Pinned src kept s) (hi : s.index < src.length) :
    ∃ s', s.consume = (.ok (), s') ∧ Moved src kept s 1 s' := by
  obtain ⟨hl, hr⟩ := h.look 0
  have hf := h.fill (s.cursor + 1)
  have hs : src[s.index + 0]? = some src[s.index] := List.getElem?_eq_getElem hi
  refine ⟨{ s.fill (s.cursor + 1) with cursor := s.cursor + 1 }, ?_, ?_⟩
  · -- Under a pin the discard that follows the step does nothing.
    rw [consume, show s.look 1 = _ from hl, hs]
    exact congrArg (Prod.mk (Except.ok ())) (discard_of_pinned h.pinned)
  · refine ⟨?_, rfl, hf.reach_le⟩
    have hp : Pinned src kept (s.fill (s.cursor + 1)) := hf.shows
    refine ⟨⟨hp.rest_eq, ?_, hp.window_le, hp.total_eq⟩, hp.pinned, hp.oldest_le⟩
    have hr' : s.oldest + s.cursor + 0 < s.oldest + (s.fill (s.cursor + 1)).held.size := hr hi
    change s.cursor + 1 ≤ (s.fill (s.cursor + 1)).held.size
    omega

/-- The held characters are a piece of the text. -/
theorem Represents.held_eq (h : Represents src s) :
    s.held.toList = (src.drop s.oldest).take s.held.size := by
  rw [← h.rest_eq, ← Array.length_toList, List.take_left]

/-- The window shows the part of the text between two indices that it holds. -/
theorem Represents.slice (h : Represents src s) (start stop : Nat) :
    s.slice start stop =
      String.ofList ((src.take (min stop (s.oldest + s.held.size))).drop (max start s.oldest)) := by
  rw [WindowStream.slice, Array.toList_extract, List.extract_eq_take_drop, h.held_eq,
    List.drop_take, List.drop_take, List.drop_drop, List.take_take]
  rw [show s.oldest + (start - s.oldest) = max start s.oldest from by omega]
  congr 2
  omega

/-- The pinned window shows the text from `kept` as far as it was read. -/
theorem Pinned.slice (h : Pinned src kept s) {start stop : Nat} (hk : kept ≤ start)
    (hr : stop ≤ s.oldest + s.held.size) :
    s.slice start stop = String.ofList ((src.drop start).take (stop - start)) := by
  rw [h.toRepresents.slice, Nat.min_eq_left hr, Nat.max_eq_left (Nat.le_trans h.oldest_le hk),
    List.drop_take]

/-- Marks say nothing about the text. -/
theorem Represents.with_marks (h : Represents src s) (marks : Nat) :
    Represents src { s with marks } :=
  ⟨h.rest_eq, h.cursor_le, h.window_le, h.total_eq⟩

instance : LawfulView WindowStream where
  index_le {_ _ s} h := Nat.add_le_add_left h.cursor_le s.oldest
  reach_le h := h.window_le
  extent_eq h := h.total_eq
  look {_ _ s} h n := ⟨_, (h.look n).1, h.fill (s.cursor + (n + 1)), (h.look n).2⟩
  step h hi := h.step hi
  slice h hk hr := h.slice hk hr
  pin {src s} h := by
    have hp : Pinned src s.index { s with marks := s.marks + 1 } :=
      ⟨h.with_marks _, Nat.succ_pos _, Nat.le_add_right _ _⟩
    exact ⟨hp, rfl⟩
  unpin {_ _ s} h _ := by
    refine ⟨(h.with_marks _).discard, ?_⟩
    exact index_discard { s with marks := s.marks - 1 }

end ModalLex.WindowStream

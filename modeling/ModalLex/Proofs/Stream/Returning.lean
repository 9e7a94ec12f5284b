import ModalLex.Proofs.Stream.Lookahead

/-!
# Going back to a mark

A window counts its marks and does not know where they were taken. That is enough: while any mark is
outstanding no request forgets a character, wherever the cursor is sent. Main statement: as long as
a mark is kept, its index can be sought, and from there the window answers as it did the first time.
-/
namespace ModalLex

/-- The requests give back only marks that are taken among them, or one of the `taken` before
them. -/
def KeepsMarks : Nat → List StreamRequest → Bool
  | _, [] => true
  | taken, .mark :: requests => KeepsMarks (taken + 1) requests
  | 0, .release :: _ => false
  | taken + 1, .release :: requests => KeepsMarks taken requests
  | taken, .look _ :: requests | taken, .consume :: requests | taken, .seek _ :: requests
  | taken, .text _ _ :: requests => KeepsMarks taken requests

/-- A request that reads on. -/
inductive ReadRequest
  | look (distance : Int)
  | consume
  deriving DecidableEq, Repr

/-- What a reading request is answered: a character, or the outcome of a step and the index after
it. -/
inductive ReadAnswer
  | found (char : Option Char)
  | moved (outcome : Except LexError Unit) (index : Nat)

/-- The answers of a stream to one reading request after the other. -/
def answers {σ : Type} [CharStream σ] (s : σ) : List ReadRequest → List ReadAnswer
  | [] => []
  | .look n :: requests => .found (CharStream.la s n).1 :: answers (CharStream.la s n).2 requests
  | .consume :: requests =>
    .moved (CharStream.consume s).1 (CharStream.index (CharStream.consume s).2) ::
      answers (CharStream.consume s).2 requests

namespace WindowStream

/-- `back` is a window that stands at the index of `first` again, and of whose text `read`
characters have been read. -/
structure Returned (source : String) (first : WindowStream) (read : Nat) (back : WindowStream) :
    Prop where
  index_eq : back.index = first.index
  answers_eq : ∀ requests, answers back requests = answers first requests
  look_ahead : ∀ n : Nat, (CharStream.la back (n + 1)).1 = source.toList[first.index + n]?
  text_eq : ∀ k ≤ read, CharStream.text back first.index k =
    String.ofList ((source.toList.take k).drop first.index)

variable {src : List Char} {s t first : WindowStream} {n : Nat}

/-- Under a mark neither way of seeking forgets anything. -/
theorem Retains.seek (hr : first.Retains s) (hm : 0 < s.marks) (n : Nat) :
    first.Retains (s.seek n).2 ∧ (s.seek n).2.marks = s.marks := by
  rcases Nat.lt_or_ge n s.oldest with hb | hb
  · rw [seek_before hb]
    exact ⟨hr, rfl⟩
  by_cases ho : n - s.oldest ≤ s.held.size
  · rw [seek_held hb ho, discard_at hm]
    exact ⟨hr.with_cursor _ _, rfl⟩
  by_cases hu : s.unread = []
  · rw [seek_past hb (by omega) hu]
    exact ⟨hr.with_cursor _ _, rfl⟩
  · rw [seek_reading hb (by omega) hu, discard_at (s := s.fill _) hm]
    exact ⟨(hr.fill _).with_cursor _ _, rfl⟩

/-- What is held is at least what was held. -/
theorem Retains.size_le (hr : first.Retains s) : first.held.size ≤ s.held.size := by
  obtain ⟨read, hheld, -⟩ := hr.read
  have hsize := congrArg List.length hheld
  rw [Array.length_toList, List.length_append, Array.length_toList] at hsize
  omega

/-- Since `first` the window has forgotten nothing, and the user has taken `nested` marks that are
outstanding besides those of then. -/
structure Holds (first : InUse WindowStream) (nested : Nat) (u : InUse WindowStream) : Prop where
  retains : first.stream.Retains u.stream
  marks_eq : u.stream.marks = first.stream.marks + nested
  taken : nested ≤ u.marks.length

variable {kept u : InUse WindowStream} {nested : Nat}

theorem Holds.refl (u : InUse WindowStream) : Holds u 0 u :=
  ⟨.refl u.stream, rfl, Nat.zero_le _⟩

theorem Holds.marks_pos (h : Holds kept nested u) (hm : 0 < kept.stream.marks) :
    0 < u.stream.marks := by
  rw [h.marks_eq]
  omega

theorem Holds.mark (h : Holds kept nested u) : Holds kept (nested + 1) (u.perform .mark) where
  retains := h.retains.with_cursor _ _
  marks_eq := congrArg (· + 1) h.marks_eq
  taken := Nat.succ_le_succ h.taken

/-- Giving back a later mark forgets nothing, as the earlier one is still outstanding. -/
theorem Holds.release (h : Holds kept (nested + 1) u) (hm : 0 < kept.stream.marks) :
    Holds kept nested (u.perform .release) := by
  have hmarks := h.marks_eq
  have htaken := h.taken
  rw [InUse.perform]
  cases hu : u.marks with
  | nil =>
    rw [hu] at htaken
    exact absurd htaken (Nat.not_succ_le_zero _)
  | cons mark marks =>
    have hpinned : 0 < WindowStream.marks { u.stream with marks := u.stream.marks - 1 } := by
      show 0 < u.stream.marks - 1
      omega
    have hrelease : CharStream.release u.stream mark =
        { u.stream with marks := u.stream.marks - 1 } :=
      discard_of_pinned hpinned
    dsimp only
    rw [hrelease]
    refine ⟨h.retains.with_cursor _ _, ?_, ?_⟩
    · show u.stream.marks - 1 = _
      omega
    · rw [hu, List.length_cons] at htaken
      exact Nat.le_of_succ_le_succ htaken

/-- A request that takes no mark and gives none back. -/
theorem Holds.perform (h : Holds kept nested u) (hm : 0 < kept.stream.marks) {r : StreamRequest}
    (hmark : r ≠ .mark) (hrelease : r ≠ .release) : Holds kept nested (u.perform r) := by
  have hpinned := h.marks_pos hm
  cases r with
  | mark => exact absurd rfl hmark
  | release => exact absurd rfl hrelease
  | look n =>
    refine ⟨h.retains.la n, ?_, h.taken⟩
    exact (MarkedView.outstanding_la u.stream n).trans h.marks_eq
  | consume =>
    obtain ⟨hr, hmarks⟩ := h.retains.consume hpinned
    exact ⟨hr, hmarks.trans h.marks_eq, h.taken⟩
  | seek n =>
    obtain ⟨hr, hmarks⟩ := h.retains.seek hpinned n
    exact ⟨hr, hmarks.trans h.marks_eq, h.taken⟩
  | text start stop => exact h

/-- As long as the mark is kept, nothing that was held when it was taken is forgotten. -/
theorem Holds.performAll {requests : List StreamRequest} (h : Holds kept nested u)
    (hm : 0 < kept.stream.marks) (hk : KeepsMarks nested requests = true) :
    ∃ nested', Holds kept nested' (u.performAll requests) := by
  induction requests generalizing u nested with
  | nil => exact ⟨nested, h⟩
  | cons r requests ih =>
    cases r with
    | mark => exact ih h.mark hk
    | release =>
      cases nested with
      | zero => contradiction
      | succ nested => exact ih (h.release hm) hk
    | look n => exact ih (h.perform hm (r := .look n) nofun nofun) hk
    | consume => exact ih (h.perform hm (r := .consume) nofun nofun) hk
    | seek n => exact ih (h.perform hm (r := .seek n) nofun nofun) hk
    | text start stop => exact ih (h.perform hm (r := .text start stop) nofun nofun) hk

/-- Two windows on one text that begin and stand at the same place, both under a mark. They may have
read on differently far. -/
structure Abreast (src : List Char) (s t : WindowStream) : Prop where
  left : Represents src s
  right : Represents src t
  left_pinned : 0 < s.marks
  right_pinned : 0 < t.marks
  oldest_eq : s.oldest = t.oldest
  cursor_eq : s.cursor = t.cursor

theorem Abreast.index_eq (h : Abreast src s t) : s.index = t.index := by
  rw [index, index, h.oldest_eq, h.cursor_eq]

theorem Abreast.fill (h : Abreast src s t) (a b : Nat) : Abreast src (s.fill a) (t.fill b) :=
  ⟨h.left.fill a, h.right.fill b, h.left_pinned, h.right_pinned, h.oldest_eq, h.cursor_eq⟩

/-- Windows that stand abreast see the same characters, ahead and behind. -/
theorem Abreast.la (h : Abreast src s t) (n : Int) :
    (CharStream.la s n).1 = (CharStream.la t n).1 ∧
      Abreast src (CharStream.la s n).2 (CharStream.la t n).2 := by
  cases n with
  | ofNat n =>
    cases n with
    | zero => exact ⟨rfl, h⟩
    | succ n =>
      have hs : CharStream.la s (.ofNat (n + 1)) = _ := h.left.look n
      have ht : CharStream.la t (.ofNat (n + 1)) = _ := h.right.look n
      rw [hs, ht, h.index_eq]
      exact ⟨rfl, h.fill _ _⟩
  | negSucc k =>
    refine ⟨?_, h⟩
    rw [h.left.la_behind, h.right.la_behind, h.index_eq, h.oldest_eq]

/-- Windows that stand abreast make the same step, or both stand at the end. -/
theorem Abreast.consume (h : Abreast src s t) :
    (CharStream.consume s).1 = (CharStream.consume t).1 ∧
      Abreast src (CharStream.consume s).2 (CharStream.consume t).2 := by
  change s.consume.1 = t.consume.1 ∧ Abreast src s.consume.2 t.consume.2
  rcases Nat.lt_or_ge s.index src.length with hi | hi
  · obtain ⟨s', hs, hs', -⟩ := h.left.consume_next hi
    obtain ⟨t', ht, ht', -⟩ := h.right.consume_next (h.index_eq ▸ hi)
    obtain rfl := consume_pinned h.left_pinned hs
    obtain rfl := consume_pinned h.right_pinned ht
    rw [hs, ht]
    exact ⟨rfl, hs', ht', h.left_pinned, h.right_pinned, h.oldest_eq,
      congrArg (· + 1) h.cursor_eq⟩
  · rw [h.left.consume_end hi, h.right.consume_end (h.index_eq ▸ hi)]
    exact ⟨rfl, h⟩

/-- Windows that stand abreast answer alike, however long they are read. -/
theorem Abreast.answers_eq (h : Abreast src s t) (requests : List ReadRequest) :
    answers s requests = answers t requests := by
  induction requests generalizing s t with
  | nil => rfl
  | cons r requests ih =>
    cases r with
    | look n =>
      obtain ⟨hfound, hrest⟩ := h.la n
      rw [answers, answers, hfound, ih hrest]
    | consume =>
      obtain ⟨houtcome, hrest⟩ := h.consume
      have hindex : CharStream.index (CharStream.consume s).2 = _ := hrest.index_eq
      rw [answers, answers, houtcome, hindex, ih hrest]
      rfl

/-- A window that has forgotten nothing since `first` can go back to where `first` stood. -/
theorem Retains.seek_back (hr : first.Retains s) (hfirst : Represents src first)
    (hm : 0 < s.marks) :
    CharStream.seek s first.index = (.ok (), { s with cursor := first.cursor }) := by
  have hoff : first.index - s.oldest = first.cursor := by
    rw [index, hr.oldest_eq, Nat.add_sub_cancel_left]
  have hle : s.oldest ≤ first.index := by
    rw [hr.oldest_eq]
    exact Nat.le_add_right _ _
  have hheld : first.index - s.oldest ≤ s.held.size := by
    rw [hoff]
    exact Nat.le_trans hfirst.cursor_le hr.size_le
  show s.seek first.index = _
  rw [seek_held hle hheld, hoff, discard_at hm]

/-- Back at the place of `first`, the window stands abreast of it, and shows all that was read. -/
theorem Retains.returned {source : String} (hr : first.Retains s)
    (hfirst : Represents source.toList first) (hs : Represents source.toList s)
    (hm : 0 < first.marks) (hms : 0 < s.marks) :
    Returned source first (source.length - s.unread.length)
      { s with cursor := first.cursor } := by
  have hback : Represents source.toList { s with cursor := first.cursor } :=
    hs.at_cursor (Nat.le_trans hfirst.cursor_le hr.size_le)
  have habreast : Abreast source.toList { s with cursor := first.cursor } first :=
    ⟨hback, hfirst, hms, hm, hr.oldest_eq, rfl⟩
  refine ⟨habreast.index_eq, habreast.answers_eq, fun n => ?_, fun k hk => ?_⟩
  · rw [← habreast.index_eq]
    exact hback.la_ahead n
  · have hread : k ≤ s.oldest + s.held.size := by
      have hl := hs.length_unread
      rw [String.length_toList] at hl
      omega
    have hold : s.oldest ≤ first.index := by
      rw [hr.oldest_eq]
      exact Nat.le_add_right _ _
    rw [show CharStream.text _ first.index k = _ from hback.slice first.index k,
      Nat.min_eq_left hread, Nat.max_eq_left hold]

/-- As long as a mark is outstanding, whatever else is asked of the window, the index at which the
mark was taken can be sought. From there the window answers as it did from the mark the first time,
and its text from there on can be read as far as it has been drawn from the source. -/
theorem returns_to_mark (source name : String) (history requests : List StreamRequest)
    (hk : KeepsMarks 0 requests = true) :
    let marked := (asked source name history).perform .mark
    let later := marked.performAll requests
    ∃ back, CharStream.seek later.stream marked.stream.index = (.ok (), back) ∧
      Returned source marked.stream (source.length - later.stream.unread.length) back := by
  intro marked later
  have hmarked : Represents source.toList marked.stream :=
    Represents.perform _ .mark
      (InUse.performAll_invariant Represents.perform history _ (represents_ofString source name))
  have hlater : Represents source.toList later.stream :=
    InUse.performAll_invariant Represents.perform requests marked hmarked
  have hm : 0 < marked.stream.marks := Nat.succ_pos _
  obtain ⟨nested, hholds⟩ := (Holds.refl marked).performAll hm hk
  have hml : 0 < later.stream.marks := hholds.marks_pos hm
  exact ⟨_, hholds.retains.seek_back hmarked hml,
    hholds.retains.returned hmarked hlater hm hml⟩

/-- A mark is taken at index 1; the window is read and searched to both sides of it, under marks
that come and go, past the end of the text. -/
theorem returns_to_mark_nested :
    KeepsMarks 0 [.consume, .mark, .look 9, .consume, .mark, .seek 1, .release, .seek 9, .release,
        .mark, .seek 2] = true ∧
      ∃ back, CharStream.seek (((asked "abcd" "inline" [.consume]).perform .mark).performAll
          [.consume, .mark, .look 9, .consume, .mark, .seek 1, .release, .seek 9, .release,
            .mark, .seek 2]).stream 1 = (.ok (), back) ∧
        Returned "abcd" ((asked "abcd" "inline" [.consume]).perform .mark).stream 4 back :=
  ⟨rfl, returns_to_mark "abcd" "inline" [.consume] _ rfl⟩

end WindowStream

end ModalLex

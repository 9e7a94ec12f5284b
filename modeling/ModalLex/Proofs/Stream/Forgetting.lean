import Mathlib.Data.List.Induction
import ModalLex.Proofs.Stream.Marks
import ModalLex.Proofs.Stream.Requests

/-!
# What a window lets go of

Without a mark a window holds nothing that was consumed, save where a seek has overrun the end of a
text whose last characters it held already: such a seek moves the cursor and lets go of nothing.
Main statement: after any requests that leave no mark outstanding, the window begins at the cursor
exactly where there was no such seek, or a mark or a seek into the window has come after it.
-/
namespace ModalLex

namespace WindowStream

/-- The window begins at the cursor: it holds the next characters only, and no index before the
cursor can be sought. -/
structure LetsGo (source : String) (s : WindowStream) : Prop where
  oldest_eq : s.oldest = s.index
  held_eq : s.held.toList = (source.toList.drop s.index).take s.held.size
  seek_before : ∀ n < s.index,
    CharStream.seek s n = (.error (.illegalState (.seekBeforeWindow n s.index)), s)

/-- The index lies past the end of a text of which the window holds all that is left, and no mark is
outstanding. -/
structure Overruns (s : WindowStream) (index : Nat) : Prop where
  marks_eq : s.marks = 0
  unread_eq : s.unread = []
  held_pos : 0 < s.held.size
  past : s.oldest + s.held.size < index

/-- The requests after which a window lets go of what an overrun has left in it: a mark, once it is
given back, and a seek into the window. -/
def Frees (s : WindowStream) : StreamRequest → Prop
  | .mark => True
  | .seek index => s.oldest ≤ index ∧ index ≤ s.oldest + s.held.size
  | .look _ | .consume | .release | .text _ _ => False

/-- A window at the start of a text and its user, after these requests. -/
def asked (source name : String) (requests : List StreamRequest) : InUse WindowStream :=
  InUse.performAll ⟨ofString source name, []⟩ requests

/-- Among the requests is a seek that overruns the window, and none after it frees the window. -/
def Overran (source name : String) (requests : List StreamRequest) : Prop :=
  ∃ before index after, requests = before ++ .seek index :: after ∧
    (asked source name before).stream.Overruns index ∧
    ∀ r ∈ after, ¬ (asked source name before).stream.Frees r

variable {source name : String} {s t : WindowStream} {u : InUse WindowStream} {n : Nat}
  {requests : List StreamRequest}

theorem cursor_discard (hm : s.marks = 0) : s.discard.cursor = 0 := by
  rw [discard]
  split
  · rfl
  · rename_i h
    exact Nat.eq_zero_of_not_pos fun hc => h ⟨hm, hc⟩

/-- A seek goes to where nothing is held any more, and changes nothing, or discards what the cursor
has passed, or overruns a text that has been read to its end. -/
theorem seek_cases (s : WindowStream) (n : Nat) :
    (n < s.oldest ∧ (s.seek n).2 = s) ∨
      (∃ s' : WindowStream, s'.marks = s.marks ∧ (s.seek n).2 = s'.discard) ∨
      s.oldest + s.held.size < n ∧ s.unread = [] ∧
        (s.seek n).2 = { s with cursor := s.held.size } := by
  rcases Nat.lt_or_ge n s.oldest with hn | hn
  · exact .inl ⟨hn, by rw [seek_before hn]⟩
  rcases Nat.lt_or_ge s.held.size (n - s.oldest) with ho | ho
  · by_cases hu : s.unread = []
    · exact .inr (.inr ⟨by omega, hu, by rw [seek_past hn ho hu]⟩)
    · refine .inr (.inl ⟨_, ?_, congrArg Prod.snd (seek_reading hn ho hu)⟩)
      rfl
  · refine .inr (.inl ⟨_, ?_, congrArg Prod.snd (seek_held hn ho)⟩)
    rfl

theorem asked_append (source name : String) (requests : List StreamRequest) (r : StreamRequest) :
    asked source name (requests ++ [r]) = (asked source name requests).perform r :=
  List.foldl_append

/-- Whatever is asked of a window, it stays on its text. -/
theorem represents_asked (source name : String) (requests : List StreamRequest) :
    Represents source.toList (asked source name requests).stream :=
  InUse.performAll_invariant Represents.perform requests _ (represents_ofString source name)

/-- The user of a window holds as many marks as are outstanding. -/
theorem marks_perform (u : InUse WindowStream) (r : StreamRequest)
    (h : u.stream.marks = u.marks.length) :
    (u.perform r).stream.marks = (u.perform r).marks.length := by
  cases r with
  | look n => exact (MarkedView.outstanding_la u.stream n).trans h
  | consume => exact (MarkedView.outstanding_consume u.stream).trans h
  | mark => exact congrArg (· + 1) h
  | release =>
    rw [InUse.perform]
    split
    · exact h
    · rename_i hmarks
      rw [hmarks, List.length_cons] at h
      exact (marks_discard _).trans (Nat.sub_eq_of_eq_add h)
  | seek n =>
    refine Eq.trans ?_ h
    change (u.stream.seek n).2.marks = u.stream.marks
    rcases seek_cases u.stream n with ⟨-, hs⟩ | ⟨s', hs', hs⟩ | ⟨-, -, hs⟩ <;> rw [hs]
    rw [marks_discard, hs']
  | text start stop => exact h

theorem marks_asked (source name : String) (requests : List StreamRequest) :
    (asked source name requests).stream.marks = (asked source name requests).marks.length := by
  induction requests using List.reverseRecOn with
  | nil => rfl
  | append_singleton requests r ih =>
    rw [asked_append]
    exact marks_perform _ r ih

/-- A window that was overrun stays as it is until a request frees it. -/
theorem perform_overrun (hmarks : u.marks = []) (hu : u.stream.unread = [])
    (hc : u.stream.cursor = u.stream.held.size) {r : StreamRequest} (hr : ¬ u.stream.Frees r) :
    u.perform r = u := by
  have hlook (n : Int) : (u.stream.look n).2 = u.stream := by
    rcases look_eq u.stream n with h | ⟨wanted, h⟩
    · exact h
    · rw [h, fill_of_read hu]
  cases r with
  | look n => exact congrArg (InUse.mk · u.marks) (hlook n)
  | consume =>
    have hend : u.stream.look 1 = (none, u.stream) := by
      refine Prod.ext ?_ (hlook 1)
      show (u.stream.fill _).held[u.stream.cursor + 0]? = none
      rw [fill_of_read hu, hc]
      exact Array.getElem?_eq_none (Nat.le_refl _)
    have hstay : u.stream.consume.2 = u.stream := by rw [consume, hend]
    exact congrArg (InUse.mk · u.marks) hstay
  | mark => exact absurd trivial hr
  | release => rw [InUse.perform, hmarks]
  | seek n =>
    have hout : ¬ (u.stream.oldest ≤ n ∧ n ≤ u.stream.oldest + u.stream.held.size) := hr
    have hstay : (u.stream.seek n).2 = u.stream := by
      rcases Nat.lt_or_ge n u.stream.oldest with hn | hn
      · rw [seek_before hn]
      · rw [seek_past hn (by omega) hu, ← hc]
    exact congrArg (InUse.mk · u.marks) hstay
  | text start stop => rfl

theorem performAll_overrun (hmarks : u.marks = []) (hu : u.stream.unread = [])
    (hc : u.stream.cursor = u.stream.held.size) (hr : ∀ r ∈ requests, ¬ u.stream.Frees r) :
    u.performAll requests = u := by
  induction requests with
  | nil => rfl
  | cons r requests ih =>
    obtain ⟨hfirst, hrest⟩ := List.forall_mem_cons.mp hr
    show (u.perform r).performAll requests = u
    rw [perform_overrun hmarks hu hc hfirst]
    exact ih hrest

/-- What a seek that overruns the window leaves in it. -/
theorem Overruns.perform_seek (h : u.stream.Overruns n) :
    u.perform (.seek n) = { u with stream := { u.stream with cursor := u.stream.held.size } } := by
  have hp := h.past
  have hs := seek_past (s := u.stream) (n := n) (by omega) (by omega) h.unread_eq
  rw [InUse.perform, show CharStream.seek u.stream n = _ from hs]

/-- A consumed character that is held without a mark was left by an overrun just now, or was held
before. -/
theorem cursor_perform {r : StreamRequest}
    (hm : (u.perform r).stream.marks = 0) (hc : 0 < (u.perform r).stream.cursor) :
    (∃ n, r = .seek n ∧ u.stream.Overruns n) ∨
      u.stream.marks = 0 ∧ 0 < u.stream.cursor ∧ ¬ u.stream.Frees r := by
  -- A request that ends with a discard holds nothing consumed.
  have discarded {s : WindowStream} (hm : s.discard.marks = 0) (hc : 0 < s.discard.cursor) :
      False := by
    rw [cursor_discard ((marks_discard s).symm.trans hm)] at hc
    exact Nat.lt_irrefl 0 hc
  cases r with
  | look n =>
    have hcursor : (u.stream.look n).2.cursor = u.stream.cursor := by
      rcases look_eq u.stream n with h | ⟨wanted, h⟩ <;> rw [h]
      rfl
    exact .inr ⟨(MarkedView.outstanding_la u.stream n).symm.trans hm, hcursor ▸ hc, id⟩
  | consume =>
    change u.stream.consume.2.marks = 0 at hm
    change 0 < u.stream.consume.2.cursor at hc
    rcases consume_cases u.stream with hs | hs
    · rw [hs] at hm hc
      exact (discarded hm hc).elim
    · rw [hs] at hm hc
      exact .inr ⟨hm, hc, id⟩
  | mark => exact absurd hm (Nat.succ_ne_zero _)
  | release =>
    rw [InUse.perform] at hm hc
    split at hc
    · rename_i hnone
      rw [hnone] at hm
      exact .inr ⟨hm, hc, id⟩
    · rename_i hsome
      rw [hsome] at hm
      exact (discarded hm hc).elim
  | seek n =>
    change (u.stream.seek n).2.marks = 0 at hm
    change 0 < (u.stream.seek n).2.cursor at hc
    rcases seek_cases u.stream n with ⟨hn, hs⟩ | ⟨s', -, hs⟩ | ⟨hpast, hu, hs⟩
    · rw [hs] at hm hc
      refine .inr ⟨hm, hc, fun hfree => ?_⟩
      have hfree : u.stream.oldest ≤ n ∧ n ≤ u.stream.oldest + u.stream.held.size := hfree
      omega
    · rw [hs] at hm hc
      exact (discarded hm hc).elim
    · rw [hs] at hm hc
      exact .inl ⟨n, rfl, hm, hu, hc, hpast⟩
  | text start stop => exact .inr ⟨hm, hc, id⟩

/-- From an overrun on, what follows and does not free the window does not change it. -/
theorem asked_overrun {before after : List StreamRequest}
    (hover : (asked source name before).stream.Overruns n)
    (hafter : ∀ r ∈ after, ¬ (asked source name before).stream.Frees r) :
    asked source name (before ++ .seek n :: after) =
      (asked source name before).perform (.seek n) := by
  have hnone : (asked source name before).marks = [] :=
    List.length_eq_zero_iff.mp ((marks_asked source name before).symm.trans hover.marks_eq)
  have hsplit : asked source name (before ++ .seek n :: after) =
      ((asked source name before).perform (.seek n)).performAll after :=
    List.foldl_append
  rw [hsplit, hover.perform_seek]
  exact performAll_overrun hnone hover.unread_eq rfl hafter

/-- With no mark outstanding, an overrun shows in the window until a request frees it, and nothing
else leaves a consumed character there. -/
theorem cursor_pos_iff (hm : (asked source name requests).stream.marks = 0) :
    0 < (asked source name requests).stream.cursor ↔ Overran source name requests := by
  constructor
  · intro hc
    induction requests using List.reverseRecOn with
    | nil => exact absurd hc (Nat.lt_irrefl 0)
    | append_singleton requests r ih =>
      rw [asked_append] at hm hc
      rcases cursor_perform hm hc with ⟨n, rfl, hover⟩ | ⟨hm', hc', hfree⟩
      · exact ⟨requests, n, [], rfl, hover, fun r hr => absurd hr List.not_mem_nil⟩
      · obtain ⟨before, n, after, rfl, hover, hafter⟩ := ih hm' hc'
        refine ⟨before, n, after ++ [r], by simp, hover, ?_⟩
        rw [asked_overrun hover hafter, hover.perform_seek] at hfree
        rw [List.forall_mem_append]
        exact ⟨hafter, List.forall_mem_singleton.mpr hfree⟩
  · rintro ⟨before, n, after, rfl, hover, hafter⟩
    rw [asked_overrun hover hafter, hover.perform_seek]
    exact hover.held_pos

theorem Represents.letsGo_iff (h : Represents source.toList s) :
    LetsGo source s ↔ s.cursor = 0 := by
  constructor
  · intro hl
    have ho : s.oldest = s.oldest + s.cursor := hl.oldest_eq
    omega
  · intro hc
    have hi : s.oldest = s.index := by rw [index, hc, Nat.add_zero]
    exact ⟨hi, hi ▸ h.held_eq, fun n hn => hi ▸ WindowStream.seek_before (hi ▸ hn)⟩

/-- After any requests that leave no mark outstanding a window has let go of all that was consumed
exactly where no seek has overrun the end of its text, or a request has freed the window since. -/
theorem letsGo_iff_not_overran (source name : String) (requests : List StreamRequest)
    (hm : (asked source name requests).stream.marks = 0) :
    LetsGo source (asked source name requests).stream ↔ ¬ Overran source name requests := by
  have hrep : Represents source.toList (asked source name requests).stream :=
    InUse.performAll_invariant Represents.perform requests _ (represents_ofString source name)
  rw [hrep.letsGo_iff, ← cursor_pos_iff hm, Nat.pos_iff_ne_zero, not_not]

/-- A seek past the end under a mark that is given back leaves nothing, nor does one after it. -/
theorem letsGo_marked :
    (asked "abcd" "inline" [.look 4, .mark, .seek 9, .release, .seek 9]).stream.marks = 0 ∧
      LetsGo "abcd"
        (asked "abcd" "inline" [.look 4, .mark, .seek 9, .release, .seek 9]).stream := by
  refine ⟨rfl, (letsGo_iff_not_overran "abcd" "inline" _ rfl).mpr ?_⟩
  rw [← cursor_pos_iff rfl]
  decide

/-- A text is looked at to its end and an index past the end is sought: its characters stay in the
window, though all are consumed and no mark is outstanding, and its start can be sought again. -/
theorem overrun_retains :
    (asked "abc" "inline" [.look 3, .seek 9]).stream =
        { ofString "abc" "inline" with unread := [], held := #['a', 'b', 'c'], cursor := 3 } ∧
      ¬ LetsGo "abc" (asked "abc" "inline" [.look 3, .seek 9]).stream ∧
      (CharStream.seek (asked "abc" "inline" [.look 3, .seek 9]).stream 0).map id
        CharStream.index = (.ok (), 0) := by
  refine ⟨rfl, fun h => ?_, rfl⟩
  have ho := h.oldest_eq
  contradiction

end WindowStream

end ModalLex

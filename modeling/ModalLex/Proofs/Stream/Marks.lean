import ModalLex.Proofs.Stream.Caller

/-!
# Marks and what they retain

Reading leaves as many marks outstanding as there are. While there is one a window forgets nothing,
and giving the last one back forgets all that was consumed.
-/
namespace ModalLex

/-- A stream that counts the marks that are outstanding. -/
class MarkedView (σ : Type) [CharStream σ] extends RoamingView σ where
  /-- How many marks were taken and not given back. -/
  outstanding : σ → Nat
  outstanding_la : ∀ (s : σ) (n : Int), outstanding (CharStream.la s n).2 = outstanding s
  outstanding_consume : ∀ s : σ, outstanding (CharStream.consume s).2 = outstanding s
  outstanding_release : ∀ {s t : σ}, outstanding t = outstanding (CharStream.mark s).2 →
    outstanding (CharStream.release t (CharStream.mark s).1) = outstanding s

/-- A text in memory takes no account of its marks. -/
instance : MarkedView TextStream where
  outstanding _ := 0
  outstanding_la _ _ := rfl
  outstanding_consume _ := rfl
  outstanding_release _ := rfl

namespace WindowStream

variable {s t : WindowStream}

@[simp]
theorem marks_discard (s : WindowStream) : s.discard.marks = s.marks := by
  rw [discard]
  split <;> rfl

theorem look_eq (s : WindowStream) (n : Int) :
    (s.look n).2 = s ∨ ∃ wanted, (s.look n).2 = s.fill wanted := by
  cases n with
  | ofNat n =>
    cases n with
    | zero => exact .inl rfl
    | succ n => exact .inr ⟨_, rfl⟩
  | negSucc n => exact .inl rfl

/-- A step reads as far as the next character, and the discard that follows where there is one is
the only part of it that can forget. -/
theorem consume_cases (s : WindowStream) :
    s.consume = (.ok (), { s.fill (s.cursor + 1) with cursor := s.cursor + 1 }.discard) ∨
      s.consume = (.error (.illegalState .consumeAtEnd), s.fill (s.cursor + 1)) := by
  have hlook : s.look 1 = ((s.fill (s.cursor + 1)).held[s.cursor + 0]?, s.fill (s.cursor + 1)) :=
    look_ahead s 0
  rw [consume, hlook]
  cases (s.fill (s.cursor + 1)).held[s.cursor + 0]? with
  | none => exact .inr rfl
  | some c => exact .inl rfl

theorem consume_eq (h : s.consume = (.ok (), t)) :
    t = { s.fill (s.cursor + 1) with cursor := s.cursor + 1 }.discard := by
  rcases consume_cases s with hs | hs
  · cases hs.symm.trans h
    rfl
  · cases hs.symm.trans h

instance : MarkedView WindowStream where
  outstanding := marks
  outstanding_la s n := by
    change (s.look n).2.marks = s.marks
    rcases look_eq s n with h | ⟨wanted, h⟩ <;> rw [h]
    rfl
  outstanding_consume s := by
    change s.consume.2.marks = s.marks
    rcases consume_cases s with h | h <;> rw [h]
    · exact marks_discard _
    · rfl
  outstanding_release {s t} h := by
    have hm : t.marks = s.marks + 1 := h
    change WindowStream.marks { t with marks := t.marks - 1 }.discard = s.marks
    rw [marks_discard, hm]
    rfl

/-- Since `s` the window has forgotten nothing: what `s` held and what has been read is held. -/
structure Retains (s t : WindowStream) : Prop where
  oldest_eq : t.oldest = s.oldest
  read : ∃ read, t.held.toList = s.held.toList ++ read ∧ s.unread = read ++ t.unread

theorem Retains.refl (s : WindowStream) : s.Retains s := ⟨rfl, [], by simp, rfl⟩

/-- Marks and the cursor say nothing about what is held. -/
theorem Retains.with_cursor (h : s.Retains t) (cursor marks : Nat) :
    s.Retains { t with cursor, marks } :=
  ⟨h.oldest_eq, h.read⟩

theorem Retains.fill (h : s.Retains t) (wanted : Nat) : s.Retains (t.fill wanted) where
  oldest_eq := h.oldest_eq
  read := by
    obtain ⟨read, hheld, hunread⟩ := h.read
    refine ⟨read ++ t.unread.take (wanted - t.held.size), ?_, ?_⟩
    · simp only [WindowStream.fill, Array.toList_appendList, hheld, List.append_assoc]
    · simp only [WindowStream.fill, List.append_assoc, List.take_append_drop, hunread]

theorem Retains.la (h : s.Retains t) (n : Int) : s.Retains (CharStream.la t n).2 := by
  show s.Retains (t.look n).2
  rcases look_eq t n with he | ⟨wanted, he⟩
  · rw [he]
    exact h
  · rw [he]
    exact h.fill wanted

/-- Under a mark the cursor may go anywhere and nothing is forgotten. -/
theorem discard_at (hm : 0 < s.marks) (cursor : Nat) :
    discard { s with cursor } = { s with cursor } :=
  discard_of_pinned (s := { s with cursor }) hm

/-- Under a mark a step only reads and moves the cursor. -/
theorem consume_pinned (hm : 0 < s.marks) (h : s.consume = (.ok (), t)) :
    t = { s.fill (s.cursor + 1) with cursor := s.cursor + 1 } := by
  rw [consume_eq h]
  exact discard_at (s := s.fill _) hm _

theorem Retains.consume (h : s.Retains t) (hm : 0 < t.marks) :
    s.Retains t.consume.2 ∧ t.consume.2.marks = t.marks := by
  rcases consume_cases t with hc | hc
  · rw [hc, discard_at (s := t.fill _) hm]
    exact ⟨(h.fill _).with_cursor _ _, rfl⟩
  · rw [hc]
    exact ⟨h.fill _, rfl⟩

/-- Giving the last mark back forgets all that was consumed. -/
theorem cursor_release (s : WindowStream) (mark : Mark) (hm : s.marks ≤ 1) :
    (CharStream.release s mark).cursor = 0 := by
  change WindowStream.cursor { s with marks := s.marks - 1 }.discard = 0
  rw [discard]
  split
  · rfl
  · rename_i h
    have hc : ¬ (s.marks - 1 = 0 ∧ 0 < s.cursor) := h
    change s.cursor = 0
    omega

end WindowStream

end ModalLex

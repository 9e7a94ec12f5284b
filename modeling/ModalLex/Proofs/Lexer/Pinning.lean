import ModalLex.Proofs.Lexer.Handling
import ModalLex.Proofs.Lexer.Watching
import ModalLex.Proofs.Stream.Marks

/-!
# The pin of a call

However a call ends, it gives back the mark that it took, and no other. While it holds the mark a
window forgets nothing, and without another mark the window begins at the cursor when the call is
over.
-/
namespace ModalLex

namespace WindowStream

/-- While a mark is outstanding, reading forgets nothing. -/
theorem retains_keeps (s : WindowStream) {depth : Nat} (hd : 0 < depth) :
    ReadingKeeps fun t => s.Retains t ∧ t.marks = depth where
  la {t} h n := ⟨h.1.la n, (MarkedView.outstanding_la t n).trans h.2⟩
  consume {t} h := by
    obtain ⟨hr, hm⟩ := h
    obtain ⟨hr', hm'⟩ := hr.consume (hm ▸ hd)
    exact ⟨hr', hm'.trans hm⟩

end WindowStream

/-- What reading keeps, every state that a watched stream has been read into has. -/
theorem ReadingKeeps.watched {σ : Type} [CharStream σ] {P : σ → Prop} (hP : ReadingKeeps P)
    (history : List (StreamUse × σ)) :
    ReadingKeeps fun w : Watched σ => P w.stream ∧ ∃ uses, w.history = uses ++ history ∧
      ∀ u ∈ uses, u.1.isReading = true ∧ P u.2 where
  la {w} h n := by
    obtain ⟨hs, uses, hh, hu⟩ := h
    have hl := hP.la hs n
    refine ⟨hl, (.looked n, (CharStream.la w.stream n).2) :: uses, congrArg (_ :: ·) hh, ?_⟩
    exact List.forall_mem_cons.mpr ⟨⟨rfl, hl⟩, hu⟩
  consume {w} h := by
    obtain ⟨hs, uses, hh, hu⟩ := h
    have hc := hP.consume hs
    refine ⟨hc, (.consumed, (CharStream.consume w.stream).2) :: uses, congrArg (_ :: ·) hh, ?_⟩
    exact List.forall_mem_cons.mpr ⟨⟨rfl, hc⟩, hu⟩

namespace ActiveLexer

variable {σ : Type} [CharStream σ]

/-- A call leaves as many marks outstanding as there were. -/
theorem outstanding_nextToken [MarkedView σ] (a : ActiveLexer σ RuleEngine) :
    MarkedView.outstanding a.nextToken.2.input = MarkedView.outstanding a.input := by
  have hkeeps : ReadingKeeps fun s : σ =>
      MarkedView.outstanding s = MarkedView.outstanding (CharStream.mark a.input).2 :=
    ⟨fun h n => (MarkedView.outstanding_la _ n).trans h,
      fun h => (MarkedView.outstanding_consume _).trans h⟩
  have hsearch := hkeeps.search (a := a.pinned) rfl
  rw [nextToken_eq]
  exact MarkedView.outstanding_release hsearch

/-- The pin of a call on a window, whatever the lexer, the state of its window and the answer. The
watched call answers as the call does, and its history is this: one mark is taken; then the stream
is only read, and as often as it is, nothing is forgotten of what the window held at the beginning
or has read since, and the call's mark stays the last one taken; in the end that mark is given
back. Then as many marks are outstanding as before, and if there are none the window begins at
the cursor. -/
theorem nextToken_pins (a : ActiveLexer WindowStream RuleEngine)
    (history : List (StreamUse × WindowStream)) :
    ∃ (answer : Except LexError Token) (b : ActiveLexer WindowStream RuleEngine) (mark : Mark)
      (uses : List (StreamUse × WindowStream)),
      a.toLexer.nextToken = (answer, b.toLexer) ∧
      (a.watched history).toLexer.nextToken = (answer, (b.watched
        ((.released mark, b.input) :: uses ++
          (.marked mark, { a.input with marks := mark.depth }) :: history)).toLexer) ∧
      (∀ u ∈ uses, u.1.isReading = true ∧ a.input.Retains u.2 ∧ u.2.marks = mark.depth) ∧
      mark.depth = a.input.marks + 1 ∧
      b.input.marks = a.input.marks ∧
      (a.input.marks = 0 → b.input.cursor = 0 ∧ b.input.oldest = b.toLexer.charIndex) := by
  let mark : Mark := ⟨a.input.marks + 1⟩
  let taken : List (StreamUse × WindowStream) :=
    (.marked mark, { a.input with marks := mark.depth }) :: history
  have hkeeps := WindowStream.retains_keeps a.input (Nat.succ_pos a.input.marks)
  have hpinned : a.input.Retains a.pinned.input ∧ a.pinned.input.marks = a.input.marks + 1 :=
    ⟨(WindowStream.Retains.refl a.input).with_cursor _ _, rfl⟩
  obtain ⟨history', hsearch, hcall⟩ := a.nextToken_watched history
  -- What was done to the stream is read off the lexer that the watched search leaves.
  have hdone := (hkeeps.watched taken).search (a := a.pinned.watched taken)
    ⟨hpinned, [], rfl, nofun⟩
  have hsearch' : (a.pinned.watched taken).search =
    (a.pinned.search.1, a.pinned.search.2.watched history') := hsearch
  rw [hsearch'] at hdone
  obtain ⟨⟨-, hmarks⟩, uses, rfl, huses⟩ := hdone
  refine ⟨a.nextToken.1, a.nextToken.2, mark, uses, Lexer.nextToken_toLexer a, ?_, huses, rfl,
    a.outstanding_nextToken, fun hm => ?_⟩
  · rw [Lexer.nextToken_toLexer, hcall]
    rfl
  · have hcursor : a.nextToken.2.input.cursor = 0 :=
      WindowStream.cursor_release a.pinned.search.2.input mark (by
        have h : a.pinned.search.2.input.marks = a.input.marks + 1 := hmarks
        omega)
    refine ⟨hcursor, ?_⟩
    change _ = a.nextToken.2.input.oldest + a.nextToken.2.input.cursor
    rw [hcursor, Nat.add_zero]

end ActiveLexer

end ModalLex

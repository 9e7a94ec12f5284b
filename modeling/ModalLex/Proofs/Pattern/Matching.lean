import ModalLex.Proofs.Pattern.Possessive
import ModalLex.Proofs.Stream.Lookahead

/-!
# Matching at an offset

A pattern is matched a number of characters ahead of the cursor of a stream that its user may have
moved, pinned and read ahead in. The answer is that of the text's characters from there on, and the
user cannot tell that a pattern was matched. The offset is a word of 64 bits, and the distance that
it stands for is a signed one: the statements hold of the offsets whose distance is not negative.
-/
namespace ModalLex

open TextView

namespace TextStream

variable {src : List Char}

/-- Every request leaves a text in memory as it is, with the cursor inside it. -/
theorem rests_perform (u : InUse TextStream) (r : StreamRequest) (h : Rests src u.stream) :
    Rests src (u.perform r).stream := by
  cases r with
  | consume => exact RoamingView.rests_consume h
  | release =>
    rw [InUse.perform]
    split <;> exact h
  | seek n => exact RoamingView.rests_seek h n
  | look n => exact h
  | mark => exact h
  | text start stop => exact h

/-- A text in memory is not changed by looking ahead in it. -/
theorem readsAhead_self {s : TextStream} (h : Rests src s) : ReadsAhead src (· = s) where
  extent_eq := by
    rintro t rfl
    exact (RestingView.readsOn_rests src).extent_eq h
  look := by
    rintro t rfl n
    obtain ⟨rfl, -⟩ := h
    exact ⟨t, la_ahead t n, rfl, rfl⟩

end TextStream

/-- Looking ahead in a window leaves one that is ahead of it. -/
theorem WindowStream.readsAhead_ahead {src : List Char} {s : WindowStream}
    (hs : Represents src s) : ReadsAhead src (Ahead s) where
  extent_eq h := (h.represents hs).total_eq
  look := by
    rintro t ⟨wanted, rfl⟩ n
    refine ⟨_, (hs.fill wanted).look n, ⟨_, fill_fill s wanted _⟩, rfl⟩

namespace Pattern

variable {src : List Char} {w : UInt64}

/-- The offsets below the largest signed word stand for themselves. -/
theorem offsetOfWord_eq (hw : w.toNat + 1 < 2 ^ 63) : offsetOfWord w = w.toNat := by
  have hs : (w + 1).toNat = w.toNat + 1 := by
    rw [UInt64.toNat_add]
    exact Nat.mod_eq_of_lt (by simp; omega)
  have hi : (w + 1).toInt64.toInt = ((w + 1).toNat : Int) := by
    show (w + 1).toBitVec.toInt = _
    rw [BitVec.toInt_eq_toNat_of_lt]
    · rfl
    · show 2 * (w + 1).toNat < _
      omega
  rw [offsetOfWord, hi, hs]
  omega

/-- What matching `p` at the offset `w` answers, and what it leaves its user with. After requests
that `spares` allows, every answer is what it would be had nothing been matched. -/
structure Matched {σ : Type} [CharStream σ] [MarkedView σ] (src : List Char) (p : Pattern)
    (w : UInt64) (u : InUse σ) (spares : InUse σ → List StreamRequest → Prop) : Prop where
  answer_eq : (matchLength u.stream (offsetOfWord w) p).1 =
    lengthOn (src.drop (CharStream.index u.stream + w.toNat)) p
  taken : ∀ n, (matchLength u.stream (offsetOfWord w) p).1 = some n →
    CharStream.index u.stream + w.toNat ≤ src.length →
      CharStream.index u.stream + w.toNat + n ≤ src.length ∧
      Takes p ((src.drop (CharStream.index u.stream + w.toNat)).take n)
        (src.drop (CharStream.index u.stream + w.toNat + n)) ∧
      (src.drop (CharStream.index u.stream + w.toNat)).take n ∈ p.language
  failed : (matchLength u.stream (offsetOfWord w) p).1 = none →
    Fails p (src.drop (CharStream.index u.stream + w.toNat))
  index_eq : CharStream.index (matchLength u.stream (offsetOfWord w) p).2 =
    CharStream.index u.stream
  outstanding_eq : MarkedView.outstanding (matchLength u.stream (offsetOfWord w) p).2 =
    MarkedView.outstanding u.stream
  later : ∀ requests,
    spares { u with stream := (matchLength u.stream (offsetOfWord w) p).2 } requests →
    AnswersAlike (u.performAll requests).stream
      (InUse.performAll { u with stream := (matchLength u.stream (offsetOfWord w) p).2 }
        requests).stream

/-- The answer of the matcher settles what it took or where it failed. -/
theorem Matched.of_answer {σ : Type} [CharStream σ] [MarkedView σ] {p : Pattern} {u : InUse σ}
    {spares : InUse σ → List StreamRequest → Prop} {t : σ}
    (hmatch : matchLength u.stream (offsetOfWord w) p =
      (lengthOn (src.drop (CharStream.index u.stream + w.toNat)) p, t))
    (hindex : CharStream.index t = CharStream.index u.stream)
    (hmarks : MarkedView.outstanding t = MarkedView.outstanding u.stream)
    (hlater : ∀ requests, spares { u with stream := t } requests →
      AnswersAlike (u.performAll requests).stream
        (InUse.performAll { u with stream := t } requests).stream) :
    Matched src p w u spares where
  answer_eq := by rw [hmatch]
  taken := by
    intro n hn hi
    rw [hmatch] at hn
    obtain ⟨hle, htakes⟩ := lengthOn_eq_some_iff.mp hn
    rw [List.length_drop] at hle
    rw [List.drop_drop] at htakes
    exact ⟨by omega, htakes, htakes.mem_language⟩
  failed := by
    intro hn
    rw [hmatch] at hn
    exact lengthOn_eq_none_iff.mp hn
  index_eq := by rw [hmatch]; exact hindex
  outstanding_eq := by rw [hmatch]; exact hmarks
  later := by rw [hmatch]; exact hlater

theorem matched_text {u : InUse TextStream} (h : Rests src u.stream) (p : Pattern)
    (hw : w.toNat + 1 < 2 ^ 63) : Matched src p w u fun _ _ => True := by
  obtain ⟨t, hmatch, rfl, -⟩ := matchLength_ahead (TextStream.readsAhead_self h) rfl w.toNat p
  rw [← offsetOfWord_eq hw] at hmatch
  exact .of_answer hmatch rfl rfl fun requests _ => .refl _

theorem matched_window {u : InUse WindowStream} (h : WindowStream.Represents src u.stream)
    (p : Pattern) (hw : w.toNat + 1 < 2 ^ 63) : Matched src p w u WindowStream.Spares := by
  obtain ⟨t, hmatch, hahead, hindex⟩ :=
    matchLength_ahead (WindowStream.readsAhead_ahead h) (.refl _) w.toNat p
  rw [← offsetOfWord_eq hw] at hmatch
  refine .of_answer hmatch hindex ?_ fun requests hspares => ?_
  · obtain ⟨wanted, rfl⟩ := hahead
    rfl
  · have hlater := WindowStream.Ahead.performAll (v := { u with stream := t }) hahead rfl h hspares
    exact hlater.answersAlike
      (InUse.performAll_invariant WindowStream.Represents.perform requests u h)

/-- Over a text in memory and over a window, whatever was asked of them before, a pattern takes at
an offset what reading it there takes, and the user does not notice. Of a window this holds until a
seek overruns it. -/
theorem matchLength_matched (source name : String) (before before' : List StreamRequest)
    (p : Pattern) (w : UInt64) (hw : w.toNat + 1 < 2 ^ 63) :
    (Matched source.toList p w (InUse.performAll ⟨TextStream.ofString source name, []⟩ before)
      fun _ _ => True) ∧
    Matched source.toList p w (WindowStream.asked source name before') WindowStream.Spares := by
  constructor
  · exact matched_text (InUse.performAll_invariant TextStream.rests_perform before _
      (TextStream.rests_ofString source name)) p hw
  · exact matched_window (InUse.performAll_invariant WindowStream.Represents.perform before' _
      (WindowStream.represents_ofString source name)) p hw

/-- Letters and then a full stop, one character ahead in a text that was pinned and looked at. -/
theorem matchLength_matched_stop :
    (1 : UInt64).toNat + 1 < 2 ^ 63 ∧
    (Matched "xab.".toList (.seq [.set ⟨[('a', 'z')], false⟩ 1 none, .literal ['.']]) 1
      (InUse.performAll ⟨TextStream.ofString "xab." "inline", []⟩ [.seek 3, .seek 0])
      fun _ _ => True) ∧
    Matched "xab.".toList (.seq [.set ⟨[('a', 'z')], false⟩ 1 none, .literal ['.']]) 1
      (WindowStream.asked "xab." "inline" [.mark, .look 3]) WindowStream.Spares :=
  ⟨by decide,
    matchLength_matched "xab." "inline" [.seek 3, .seek 0] [.mark, .look 3] _ 1 (by decide)⟩

/-- The largest offsets stand for distances behind the cursor: there a text in memory finds the
character before it, which a window has let go of. And a match that reads a text to its end shows:
an index past the end is sought, and then the start, which without the match is refused. -/
theorem matchLength_shows :
    (matchLength (InUse.performAll ⟨TextStream.ofString "ab" "inline", []⟩ [.seek 1]).stream
        (offsetOfWord 18446744073709551614) (.literal ['a'])).1 = some 1 ∧
      (matchLength (WindowStream.asked "ab" "inline" [.seek 1]).stream
        (offsetOfWord 18446744073709551614) (.literal ['a'])).1 = none ∧
      (CharStream.seek (InUse.performAll
          ⟨(matchLength (WindowStream.ofString "abc" "inline") (offsetOfWord 0)
            (.seq [.set ⟨[('a', 'c')], false⟩ 1 none, .literal ['x']])).2, []⟩
          [.seek 9]).stream 0).map id CharStream.index = (.ok (), 0) ∧
      (CharStream.seek (WindowStream.asked "abc" "inline" [.seek 9]).stream 0).map id
          CharStream.index = (.error (.illegalState (.seekBeforeWindow 0 3)), 3) := by
  refine ⟨?_, ?_, ?_, ?_⟩ <;> rfl

end Pattern

end ModalLex

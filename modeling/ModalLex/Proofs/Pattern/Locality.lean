import ModalLex.Proofs.Pattern.Matching
import ModalLex.Proofs.Stream.Sight

/-!
# How far a match depends on its text

A set reads on to the first character that it does not take, and no part of a pattern reads further.
Main statement: two streams that show the same characters from an offset on, as far as a pattern
matches on the first of them and one place further, are matched alike.
-/
namespace ModalLex

open TextView

namespace Pattern

variable {rest rest' : List Char} {n : Nat}

/-- A run ends where it does because of the next character alone. -/
theorem LongestRun.of_head? {members : CharSet} {max : Option Nat} {run : List Char}
    (h : LongestRun members max run rest) (hnext : rest'.head? = rest.head?) :
    LongestRun members max run rest' where
  contains := h.contains
  length_le := h.length_le
  longest := by
    intro word hfront hmem hlen
    by_contra hlong
    -- A longer word takes the next character, and the run could have taken it as well.
    obtain ⟨tail, rfl⟩ : run <+: word :=
      List.prefix_of_prefix_length_le (List.prefix_append run rest') hfront (by omega)
    cases tail with
    | nil => exact hlong (by rw [List.append_nil])
    | cons c tail =>
      obtain ⟨later, rfl⟩ := (List.prefix_append_right_inj run).mp hfront
      obtain ⟨after, rfl⟩ := List.head?_eq_some_iff.mp hnext.symm
      have hone (later : List Char) : run ++ [c] <+: run ++ c :: later :=
        (List.prefix_append_right_inj run).mpr ⟨later, rfl⟩
      have hmem' : ∀ d ∈ run ++ [c], members.contains d :=
        fun d hd => hmem d ((hone tail).subset hd)
      have hlen' : ∀ m ∈ max, (run ++ [c]).length ≤ m :=
        fun m hm => Nat.le_trans (hone tail).length_le (hlen m hm)
      have hle := h.longest (run ++ [c]) (hone after) hmem' hlen'
      rw [List.length_append, List.length_singleton] at hle
      omega

theorem head?_append_of_head? (first : List Char) (hnext : rest'.head? = rest.head?) :
    (first ++ rest').head? = (first ++ rest).head? := by
  rw [List.head?_append, List.head?_append, hnext]

mutual

/-- What reading a pattern takes depends on what it leaves by the first character of that alone. -/
theorem Takes.of_head? {taken rest rest' : List Char} (hnext : rest'.head? = rest.head?) :
    ∀ {p : Pattern}, Takes p taken rest → Takes p taken rest'
  | .literal chars, h => by
    cases h
    exact .literal taken rest'
  | .set members min max, h => by
    cases h with
    | set hrun hmin => exact .set (hrun.of_head? hnext) hmin
  | .seq parts, h => by
    cases h with
    | seq h => exact .seq (h.of_head? hnext)

theorem TakesAll.of_head? {taken rest rest' : List Char} (hnext : rest'.head? = rest.head?) :
    ∀ {parts : List Pattern}, TakesAll parts taken rest → TakesAll parts taken rest'
  | [], h => by
    cases h
    exact .nil rest'
  | p :: parts, h => by
    cases h with
    | @cons _ _ first later _ hp h =>
      exact .cons (hp.of_head? (head?_append_of_head? later hnext)) (h.of_head? hnext)

end

/-- A pattern takes as many characters of another text that agrees with the first on these and on
the character after them. -/
theorem lengthOn_of_agree {p : Pattern} (h : lengthOn rest p = some n)
    (hagree : ∀ k ≤ n, rest[k]? = rest'[k]?) : lengthOn rest' p = some n := by
  obtain ⟨hn, htakes⟩ := lengthOn_eq_some_iff.mp h
  have htake : rest'.take n = rest.take n := by
    refine List.ext_getElem? fun k => ?_
    rw [List.getElem?_take, List.getElem?_take]
    split
    · exact (hagree k (by omega)).symm
    · rfl
  have hn' : n ≤ rest'.length := by
    have hlen := congrArg List.length htake
    rw [List.length_take, List.length_take] at hlen
    omega
  have hnext : (rest'.drop n).head? = (rest.drop n).head? := by
    rw [List.head?_drop, List.head?_drop, hagree n (Nat.le_refl n)]
  rw [lengthOn_eq_some_iff, htake]
  exact ⟨hn', htakes.of_head? hnext⟩

/-- The characters of a match do not decide it without the one after them. -/
example : lengthOn ['i', 'f'] (.set ⟨[('a', 'z')], false⟩ 1 none) = some 2 ∧
    lengthOn ['i', 'f', 's'] (.set ⟨[('a', 'z')], false⟩ 1 none) = some 3 :=
  ⟨rfl, rfl⟩

variable {σ τ : Type} [CharStream σ] [CharStream τ] {s : σ} {t : τ} {offset : Int}

/-- Where two streams agree, so do the characters that they show. -/
theorem shown_agree {P : σ → Prop} {Q : τ → Prop} (hP : ShowsFrom rest offset P)
    (hQ : ShowsFrom rest' offset Q) (hs : P s) (ht : Q t) (hn : n ≤ rest.length)
    (hagree : ∀ k ≤ n, (CharStream.la s (offset + (k : Nat) + 1)).1 =
      (CharStream.la t (offset + k + 1)).1) :
    ∀ k ≤ n, rest[k]? = rest'[k]? := by
  have hleft {k : Nat} (hk : k ≤ n) : (CharStream.la s (offset + k + 1)).1 = rest[k]? := by
    obtain ⟨_, hla, -⟩ := hP.look hs k (by omega)
    rw [hla]
  have hright {k : Nat} (hk : k ≤ rest'.length) :
      (CharStream.la t (offset + k + 1)).1 = rest'[k]? := by
    obtain ⟨_, hla, -⟩ := hQ.look ht k hk
    rw [hla]
  have hn' : n ≤ rest'.length := by
    -- The second stream does not end before the match does, for the first shows a character there.
    by_contra hshort
    have hend := hagree rest'.length (by omega)
    rw [hleft (by omega), hright (Nat.le_refl _), List.getElem?_eq_getElem (by omega),
      List.getElem?_eq_none (Nat.le_refl _)] at hend
    contradiction
  intro k hk
  rw [← hleft hk, hagree k hk, hright (by omega)]

theorem matchLength_of_agree [GlancingView σ] [GlancingView τ] {src src' : List Char}
    (hs : Rests src s) (ht : Rests src' t) {p : Pattern}
    (h : (matchLength s offset p).1 = some n)
    (hagree : ∀ k ≤ n, (CharStream.la s (offset + (k : Nat) + 1)).1 =
      (CharStream.la t (offset + k + 1)).1) :
    (matchLength t offset p).1 = some n := by
  obtain ⟨P, hPs, hsees⟩ := GlancingView.sees hs
  obtain ⟨Q, hQt, hsees'⟩ := GlancingView.sees ht
  obtain ⟨rest, hrest⟩ := hsees.exists_showsFrom offset
  obtain ⟨rest', hrest'⟩ := hsees'.exists_showsFrom offset
  obtain ⟨_, hmatch, -⟩ := matchLength_shown hrest hPs p
  obtain ⟨_, hmatch', -⟩ := matchLength_shown hrest' hQt p
  rw [hmatch] at h
  rw [hmatch']
  exact lengthOn_of_agree h
    (shown_agree hrest hrest' hPs hQt (lengthOn_le p h) hagree)

/-- A match is decided by the characters that it takes and the one after them. Take two streams, each
at rest in some text, whatever either was asked before, and a pattern that matches `n` characters at
an offset of the first. If the second stream shows the same as the first at the `n + 1` distances
from that offset on, be it characters or the end, then the pattern matches `n` characters of it too,
whatever comes later. For an offset whose distance is not negative, these are the characters of the
texts that stand that far ahead of the cursors. -/
theorem matchLength_decided [GlancingView σ] [GlancingView τ] {src src' : List Char}
    (hs : Rests src s) (ht : Rests src' t) (p : Pattern) (w : UInt64)
    (hmatch : (matchLength s (offsetOfWord w) p).1 = some n) :
    ((∀ k ≤ n, (CharStream.la s (offsetOfWord w + (k : Nat) + 1)).1 =
        (CharStream.la t (offsetOfWord w + k + 1)).1) →
      (matchLength t (offsetOfWord w) p).1 = some n) ∧
    (w.toNat + 1 < 2 ^ 63 →
      (∀ k ≤ n, src[CharStream.index s + w.toNat + k]? = src'[CharStream.index t + w.toNat + k]?) →
      (matchLength t (offsetOfWord w) p).1 = some n) := by
  refine ⟨matchLength_of_agree hs ht hmatch, fun hw hagree => ?_⟩
  refine matchLength_of_agree hs ht hmatch fun k hk => ?_
  obtain ⟨_, hla, -⟩ := (RestingView.readsOn_rests src).look hs (w.toNat + k)
  obtain ⟨_, hla', -⟩ := (RestingView.readsOn_rests src').look ht (w.toNat + k)
  rw [offsetOfWord_eq hw, ← Int.natCast_add, hla, hla', ← Nat.add_assoc, ← Nat.add_assoc]
  exact hagree k hk

/-- Letters and a bracket, one character ahead. -/
def callPattern : Pattern := .seq [.set ⟨[('a', 'z')], false⟩ 1 none, .literal ['(']]

/-- Of the two texts one ends where the other goes on. -/
theorem matchLength_decided_call :
    Rests "xif(a".toList (TextStream.ofString "xif(a" "inline") ∧
      Rests "xyif(ab)".toList
        (WindowStream.asked "xyif(ab)" "inline" [.mark, .look 9, .consume]).stream ∧
      (matchLength (TextStream.ofString "xif(a" "inline") (offsetOfWord 1) callPattern).1 =
        some 3 ∧
      (matchLength (WindowStream.asked "xyif(ab)" "inline" [.mark, .look 9, .consume]).stream
        (offsetOfWord 1) callPattern).1 = some 3 := by
  have hs := TextStream.rests_ofString "xif(a" "inline"
  have ht := WindowStream.represents_asked "xyif(ab)" "inline" [.mark, .look 9, .consume]
  have hmatch : (matchLength (TextStream.ofString "xif(a" "inline") (offsetOfWord 1)
      callPattern).1 = some 3 := by rfl
  exact ⟨hs, ht, hmatch, (matchLength_decided hs ht callPattern 1 hmatch).1 (by decide)⟩

end Pattern

end ModalLex

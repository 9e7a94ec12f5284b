import Mathlib
import ModalLex.Token

/-!
# Reading a display back

The display of a token holds the text without quoting it, between numbers, so that a text may
imitate what stands around it. What is before the text is read from the left, and what is behind it
from the right, each number up to a mark that no number contains. Main statement: tokens with one
display differ in nothing that it shows, and a display stays on one line.
-/
namespace ModalLex

/-- What stands before the first of a mark is determined, and so is what stands behind it. -/
theorem cut_first {mark : Char} {xs ys xs' ys' : List Char} (hx : mark ∉ xs) (hy : mark ∉ ys)
    (h : xs ++ mark :: xs' = ys ++ mark :: ys') : xs = ys ∧ xs' = ys' := by
  induction xs generalizing ys with
  | nil =>
    cases ys with
    | nil => exact ⟨rfl, (List.cons.inj h).2⟩
    | cons y ys =>
      obtain ⟨rfl, -⟩ := List.cons.inj h
      exact absurd List.mem_cons_self hy
  | cons x xs ih =>
    cases ys with
    | nil =>
      obtain ⟨rfl, -⟩ := List.cons.inj h
      exact absurd List.mem_cons_self hx
    | cons y ys =>
      obtain ⟨rfl, hrest⟩ := List.cons.inj h
      rw [List.mem_cons, not_or] at hx hy
      obtain ⟨rfl, hbehind⟩ := ih hx.2 hy.2 hrest
      exact ⟨rfl, hbehind⟩

/-- The same from the right, for the last of a mark. -/
theorem cut_last {mark : Char} {xs ys xs' ys' : List Char} (hx : mark ∉ xs') (hy : mark ∉ ys')
    (h : xs ++ mark :: xs' = ys ++ mark :: ys') : xs = ys ∧ xs' = ys' := by
  have hreverse := congrArg List.reverse h
  simp only [List.reverse_append, List.reverse_cons, List.append_assoc, List.singleton_append]
    at hreverse
  obtain ⟨hbehind, hbefore⟩ := cut_first (by simpa using hx) (by simpa using hy) hreverse
  exact ⟨List.reverse_inj.mp hbefore, List.reverse_inj.mp hbehind⟩

/-- A number is written in digits. -/
theorem isDigit_of_mem_nat {n : Nat} {c : Char} (h : c ∈ (toString n).toList) :
    c.isDigit = true := by
  rw [Nat.toString_eq_repr, Nat.toList_repr] at h
  exact Nat.isDigit_of_mem_toDigits (by decide) (by decide) h

/-- A signed number is written in digits, with a sign before a negative one. -/
theorem isDigit_of_mem_int {i : Int} {c : Char} (h : c ∈ (toString i).toList) :
    c.isDigit = true ∨ c = '-' := by
  cases i with
  | ofNat n => exact .inl (isDigit_of_mem_nat h)
  | negSucc n =>
    change c ∈ ("-" ++ toString (n + 1)).toList at h
    rw [String.toList_append, List.mem_append] at h
    rcases h with h | h
    · exact .inr (List.mem_singleton.mp h)
    · exact .inl (isDigit_of_mem_nat h)

theorem notMem_nat {mark : Char} (n : Nat) (h : mark.isDigit = false) :
    mark ∉ (toString n).toList := by
  intro hm
  rw [isDigit_of_mem_nat hm] at h
  contradiction

theorem notMem_int {mark : Char} (i : Int) (h : mark.isDigit = false) (hs : mark ≠ '-') :
    mark ∉ (toString i).toList := by
  intro hm
  rcases isDigit_of_mem_int hm with hd | hd
  · rw [hd] at h
    contradiction
  · exact hs hd

theorem nat_of_toList {n m : Nat} (h : (toString n).toList = (toString m).toList) : n = m :=
  Nat.repr_injective (String.toList_inj.mp h)

theorem int_of_toList {i j : Int} (h : (toString i).toList = (toString j).toList) : i = j :=
  Int.repr_injective (String.toList_inj.mp h)

/-- Below 2^63 the signed word shows where a span ends. -/
theorem Span.lastWord_of_lt {s : Span} (h : s.stop < 2 ^ 63) : s.lastWord = (s.stop : Int) - 1 := by
  apply Int.bmod_eq_of_le
  · change -(((2 ^ 64 : Nat) : Int) / 2) ≤ (s.stop : Int) - 1
    omega
  · change (s.stop : Int) - 1 < (((2 ^ 64 : Nat) : Int) + 1) / 2
    omega

namespace Token

variable {t u : Token} {xs ys : List Char}

/-- What a display shows before the text. -/
def opening (t : Token) : List Char :=
  '[' :: '@' :: ((toString t.span.start).toList ++ ':' ::
    ((toString t.span.lastWord).toList ++ ['=', '\'']))

def kindPart (t : Token) : List Char :=
  ['\'', ','] ++ '<' :: (toString t.kind.code.toInt).toList

def channelPart (c : Channel) : List Char :=
  if c = .default then [] else ",channel".toList ++ '=' :: (toString c.number.toNat).toList

/-- What a display shows behind the text. -/
def closing (t : Token) : List Char :=
  t.kindPart ++ '>' :: channelPart t.channel ++ ',' :: (toString t.span.line).toList ++
    ':' :: (toString t.span.column).toList ++ [']']

theorem toList_displayChannel (t : Token) :
    t.displayChannel.toList = channelPart t.channel := by
  rw [displayChannel, channelPart]
  split
  · rfl
  · have hname : ",channel=".toList = ",channel".toList ++ ['='] := by decide
    rw [String.toList_append, hname, List.append_assoc, List.singleton_append]

theorem toList_display (t : Token) :
    t.display.toList = t.opening ++ (t.displayText.toList ++ t.closing) := by
  have hbefore : "[@".toList = ['[', '@'] ∧ ":".toList = [':'] ∧ "='".toList = ['=', '\''] := by
    decide
  have hbehind : "',<".toList = ['\'', ',', '<'] ∧ ">".toList = ['>'] ∧ ",".toList = [','] ∧
      "]".toList = [']'] := by
    decide
  unfold display
  simp only [opening, closing, kindPart, String.toList_append, toList_displayChannel, hbefore,
    hbehind, List.append_assoc, List.cons_append, List.nil_append]

/-- The numbers before the text are read from the left. -/
theorem opening_cut (h : t.opening ++ xs = u.opening ++ ys) :
    t.span.start = u.span.start ∧ t.span.lastWord = u.span.lastWord ∧ xs = ys := by
  simp only [opening, List.cons_append, List.append_assoc, List.nil_append, List.cons.injEq,
    true_and] at h
  obtain ⟨hstart, hrest⟩ := cut_first (notMem_nat _ rfl) (notMem_nat _ rfl) h
  obtain ⟨hlast, htext⟩ :=
    cut_first (notMem_int _ rfl (by decide)) (notMem_int _ rfl (by decide)) hrest
  exact ⟨nat_of_toList hstart, int_of_toList hlast, (List.cons.inj htext).2⟩

theorem notMem_channelPart (c : Channel) : '>' ∉ channelPart c := by
  unfold channelPart
  split
  · exact List.not_mem_nil
  · rw [List.mem_append, List.mem_cons]
    rintro (hname | hmark | hnumber)
    · exact absurd hname (by decide)
    · exact absurd hmark (by decide)
    · exact notMem_nat _ rfl hnumber

theorem channelPart_injective {c d : Channel} (h : channelPart c = channelPart d) : c = d := by
  unfold channelPart at h
  by_cases hc : c = .default <;> by_cases hd : d = .default
  · rw [hc, hd]
  · simp [hc, hd] at h
  · simp [hc, hd] at h
  · rw [if_neg hc, if_neg hd] at h
    have hnumber := (List.cons.inj (List.append_cancel_left h)).2
    exact congrArg Channel.mk (UInt32.toNat_inj.mp (nat_of_toList hnumber))

/-- What is behind the text is read from the right. -/
theorem closing_cut (h : xs ++ t.closing = ys ++ u.closing) :
    xs = ys ∧ t.kind = u.kind ∧ t.channel = u.channel ∧ t.span.line = u.span.line ∧
      t.span.column = u.span.column := by
  simp only [closing, ← List.append_assoc] at h
  have hnumbers := List.append_cancel_right h
  obtain ⟨hrest, hcolumn⟩ := cut_last (notMem_nat _ rfl) (notMem_nat _ rfl) hnumbers
  obtain ⟨hrest, hline⟩ := cut_last (notMem_nat _ rfl) (notMem_nat _ rfl) hrest
  obtain ⟨hrest, hchannel⟩ := cut_last (notMem_channelPart _) (notMem_channelPart _) hrest
  simp only [kindPart, ← List.append_assoc] at hrest
  obtain ⟨htext, hkind⟩ :=
    cut_last (notMem_int _ rfl (by decide)) (notMem_int _ rfl (by decide)) hrest
  have hcode := Int32.toInt_inj.mp (int_of_toList hkind)
  exact ⟨List.append_cancel_right htext, congrArg TokenKind.mk hcode,
    channelPart_injective hchannel, nat_of_toList hline, nat_of_toList hcolumn⟩

theorem displayText_of_not_eof (h : t.isEof = false) : t.displayText = showText t.text := by
  rw [displayText, h]
  rfl

/-- What tokens with one display have in common. The name of the source is not shown, and of an end
token neither is the text. -/
structure ShownAlike (t u : Token) : Prop where
  kind_eq : t.kind = u.kind
  channel_eq : t.channel = u.channel
  span_eq : t.span = u.span
  text_eq : t.isEof = false → showText t.text = showText u.text

theorem shownAlike_of_display (ht : t.span.stop < 2 ^ 63) (hu : u.span.stop < 2 ^ 63)
    (h : t.display = u.display) : t.ShownAlike u := by
  have hchars := congrArg String.toList h
  rw [toList_display, toList_display] at hchars
  obtain ⟨hstart, hword, hrest⟩ := opening_cut hchars
  obtain ⟨htext, hkind, hchannel, hline, hcolumn⟩ := closing_cut hrest
  rw [Span.lastWord_of_lt ht, Span.lastWord_of_lt hu] at hword
  have hstop : t.span.stop = u.span.stop := by omega
  refine ⟨hkind, hchannel, ?_, fun he => ?_⟩
  · calc
      t.span = ⟨t.span.start, t.span.stop, t.span.line, t.span.column⟩ := rfl
      _ = ⟨u.span.start, u.span.stop, u.span.line, u.span.column⟩ := by
        rw [hstart, hstop, hline, hcolumn]
      _ = u.span := rfl
  · have he' : u.isEof = false := by rwa [isEof, ← hkind]
    rw [← displayText_of_not_eof he, ← displayText_of_not_eof he']
    exact String.toList_inj.mp htext

theorem ShownAlike.display_eq (h : t.ShownAlike u) : t.display = u.display := by
  have heof : t.isEof = u.isEof := by rw [isEof, isEof, h.kind_eq]
  have htext : t.displayText = u.displayText := by
    cases he : t.isEof with
    | true => rw [displayText, displayText, ← heof, he]; rfl
    | false =>
      rw [displayText_of_not_eof he, displayText_of_not_eof (heof ▸ he)]
      exact h.text_eq he
  unfold display displayChannel
  rw [h.kind_eq, h.channel_eq, h.span_eq, htext]

end Token

/-- Neither a line break nor a tab. -/
def IsPlain (c : Char) : Prop := c ≠ '\n' ∧ c ≠ '\t' ∧ c ≠ '\r'

instance : DecidablePred IsPlain := fun c =>
  inferInstanceAs (Decidable (c ≠ '\n' ∧ c ≠ '\t' ∧ c ≠ '\r'))

theorem isPlain_of_all {cs : List Char} (h : cs.all (decide <| IsPlain ·) = true) :
    ∀ c ∈ cs, IsPlain c := by
  simpa using h

theorem isPlain_of_isDigit {c : Char} (h : c.isDigit = true) : IsPlain c := by
  refine ⟨?_, ?_, ?_⟩ <;> (rintro rfl; contradiction)

theorem isPlain_nat (n : Nat) : ∀ c ∈ (toString n).toList, IsPlain c :=
  fun _ hc => isPlain_of_isDigit (isDigit_of_mem_nat hc)

theorem isPlain_int (i : Int) : ∀ c ∈ (toString i).toList, IsPlain c := by
  intro c hc
  rcases isDigit_of_mem_int hc with h | rfl
  · exact isPlain_of_isDigit h
  · decide

theorem isPlain_of_mem_shown {c d : Char} (h : d ∈ shown c) : IsPlain d := by
  unfold shown at h
  split at h
  · exact isPlain_of_all rfl d h
  · exact isPlain_of_all rfl d h
  · exact isPlain_of_all rfl d h
  · rename_i hn ht hr
    rw [List.mem_singleton.mp h]
    exact ⟨hn, ht, hr⟩

theorem isPlain_showText (text : String) : ∀ c ∈ (showText text).toList, IsPlain c := by
  intro d hd
  rw [showText, String.toList_ofList] at hd
  obtain ⟨c, -, hc⟩ := List.mem_flatMap.mp hd
  exact isPlain_of_mem_shown hc

namespace Token

variable (t : Token)

theorem isPlain_opening : ∀ c ∈ t.opening, IsPlain c := by
  rw [opening, List.forall_mem_cons, List.forall_mem_cons, List.forall_mem_append,
    List.forall_mem_cons, List.forall_mem_append]
  exact ⟨by decide, by decide, isPlain_nat _, by decide, isPlain_int _, isPlain_of_all rfl⟩

theorem isPlain_displayText : ∀ c ∈ t.displayText.toList, IsPlain c := by
  unfold displayText
  split
  · exact isPlain_of_all rfl
  · exact isPlain_showText _

theorem isPlain_channelPart (c : Channel) : ∀ d ∈ channelPart c, IsPlain d := by
  unfold channelPart
  split
  · exact List.forall_mem_nil _
  · rw [List.forall_mem_append, List.forall_mem_cons]
    exact ⟨isPlain_of_all rfl, by decide, isPlain_nat _⟩

theorem isPlain_kindPart : ∀ c ∈ t.kindPart, IsPlain c := by
  unfold kindPart
  rw [List.forall_mem_append]
  exact ⟨isPlain_of_all rfl, List.forall_mem_cons.mpr ⟨by decide, isPlain_int _⟩⟩

theorem isPlain_closing : ∀ c ∈ t.closing, IsPlain c := by
  simp only [closing, List.forall_mem_append]
  refine ⟨⟨⟨⟨t.isPlain_kindPart, ?_⟩, ?_⟩, ?_⟩, isPlain_of_all rfl⟩
  · exact List.forall_mem_cons.mpr ⟨by decide, isPlain_channelPart _⟩
  · exact List.forall_mem_cons.mpr ⟨by decide, isPlain_nat _⟩
  · exact List.forall_mem_cons.mpr ⟨by decide, isPlain_nat _⟩

theorem isPlain_display : ∀ c ∈ t.display.toList, IsPlain c := by
  rw [toList_display, List.forall_mem_append, List.forall_mem_append]
  exact ⟨t.isPlain_opening, t.isPlain_displayText, t.isPlain_closing⟩

/-- Displays are unambiguous, whatever the texts contain. Of tokens whose spans end below 2^63 those
with the same kind, channel and span, and with texts that are shown alike if they are no end tokens,
have one display, and no others. No display contains a line break or a tab. -/
theorem display_unambiguous :
    (∀ t u : Token, t.span.stop < 2 ^ 63 → u.span.stop < 2 ^ 63 →
      (t.display = u.display ↔ t.ShownAlike u)) ∧
    ∀ t : Token, '\n' ∉ t.display.toList ∧ '\t' ∉ t.display.toList ∧ '\r' ∉ t.display.toList := by
  constructor
  · intro t u ht hu
    exact ⟨shownAlike_of_display ht hu, ShownAlike.display_eq⟩
  · intro t
    refine ⟨fun h => ?_, fun h => ?_, fun h => ?_⟩
    · exact (t.isPlain_display _ h).1 rfl
    · exact (t.isPlain_display _ h).2.1 rfl
    · exact (t.isPlain_display _ h).2.2 rfl

/-- Two texts that imitate what follows a text are shown alike: one ends in a line break, the other
in its escape. -/
theorem display_unambiguous_imitating :
    let t : Token := ⟨⟨3⟩, .hidden, "',<3>,1:0]\n", ⟨0, 11, 1, 0⟩, "inline"⟩
    let u : Token := ⟨⟨3⟩, .hidden, "',<3>,1:0]\\n", ⟨0, 11, 1, 0⟩, "demo"⟩
    t.span.stop < 2 ^ 63 ∧ u.span.stop < 2 ^ 63 ∧ t.display = u.display ∧ t.ShownAlike u := by
  intro t u
  have ht : t.span.stop < 2 ^ 63 := by decide
  have hu : u.span.stop < 2 ^ 63 := by decide
  have h : t.display = u.display := by decide +kernel
  exact ⟨ht, hu, h, (display_unambiguous.1 t u ht hu).mp h⟩

end Token

end ModalLex

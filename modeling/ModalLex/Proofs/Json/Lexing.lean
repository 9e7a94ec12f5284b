import Mathlib.Data.List.Basic
import ModalLex.Proofs.Json.Writing

/-!
# The lexemes of what is written

A text that writes a value is cut into the lexemes of that value, whatever its blanks and escapes.
A number or a word goes on as long as it can, so that it is read whole only before a character that
ends it: all that may follow a value do.
-/
namespace ModalLex.Json

/-! ## The lexemes of a value -/

mutual

def lexemes : Json → List Lexeme
  | .null => [.null]
  | .bool b => [.bool b]
  | .number n => [.number n]
  | .string s => [.string s]
  | .array items => .openArray :: (itemLexemes items ++ [.closeArray])
  | .object members => .openObject :: (memberLexemes members ++ [.closeObject])

def itemLexemes : List Json → List Lexeme
  | [] => []
  | [v] => v.lexemes
  | v :: w :: rest => v.lexemes ++ .comma :: itemLexemes (w :: rest)

def memberLexemes : List (Option String × Json) → List Lexeme
  | [] => []
  | [(key, v)] => .string key :: .colon :: v.lexemes
  | (key, v) :: m :: rest =>
    .string key :: .colon :: (v.lexemes ++ .comma :: memberLexemes (m :: rest))

end

theorem itemLexemes_cons {items : List Json} (h : items ≠ []) (v : Json) :
    itemLexemes (v :: items) = v.lexemes ++ .comma :: itemLexemes items := by
  cases items with
  | nil => contradiction
  | cons w items => rfl

theorem memberLexemes_cons {members : List (Option String × Json)} (h : members ≠ [])
    (key : Option String) (v : Json) :
    memberLexemes ((key, v) :: members) =
      .string key :: .colon :: (v.lexemes ++ .comma :: memberLexemes members) := by
  cases members with
  | nil => contradiction
  | cons m members => rfl

/-! ## Numbers -/

theorem digitsValue_toDigits (n : Nat) : digitsValue (Nat.toDigits 10 n) = n :=
  Nat.ofDigitChars_ten_toDigits

theorem all_isDigit_toDigits (n : Nat) : ∀ c ∈ Nat.toDigits 10 n, c.isDigit = true :=
  fun _ hc => Nat.isDigit_of_mem_toDigits (by decide) (by decide) hc

theorem head?_toDigits_ne {n : Nat} (h : 0 < n) : (Nat.toDigits 10 n).head? ≠ some '0' := by
  induction n using Nat.strongRecOn with
  | ind n ih =>
    by_cases hlt : n < 10
    · rw [Nat.toDigits_of_lt_base hlt, List.head?_cons, Ne, Option.some.injEq,
        Nat.digitChar_eq_zero]
      omega
    · rw [Nat.toDigits_of_base_le (by decide) (by omega),
        List.head?_append_of_ne_nil _ Nat.toDigits_ne_nil]
      exact ih (n / 10) (by omega) (by omega)

theorem isIntegerPart_toDigits (n : Nat) : isIntegerPart (Nat.toDigits 10 n) = true := by
  rcases Nat.eq_zero_or_pos n with rfl | hn
  · rfl
  · have hne : Nat.toDigits 10 n ≠ [] := Nat.toDigits_ne_nil
    have hhead := head?_toDigits_ne hn
    unfold isIntegerPart
    split
    · contradiction
    · rename_i heq
      rw [heq] at hhead
      exact absurd rfl hhead
    · rfl

/-- Where digits end, what follows the number's digits begins. -/
theorem span_digits {digits : List Char} (hd : ∀ c ∈ digits, c.isDigit = true) (tail : List Char)
    (ht : ∀ c, tail.head? = some c → c.isDigit = false) :
    (digits ++ tail).takeWhile Char.isDigit = digits ∧
      (digits ++ tail).dropWhile Char.isDigit = tail := by
  rw [List.takeWhile_append_of_pos hd, List.dropWhile_append_of_pos hd]
  cases tail with
  | nil => exact ⟨List.append_nil _, rfl⟩
  | cons c tail =>
    rw [List.takeWhile_cons, List.dropWhile_cons, ht c rfl]
    exact ⟨List.append_nil _, rfl⟩

theorem isDigits_of_digits {digits : List Char} (h : Digits digits) : isDigits digits = true := by
  obtain ⟨hne, hall⟩ := h
  rw [isDigits, List.all_eq_true.mpr hall, List.isEmpty_eq_false_iff.mpr hne]
  rfl

theorem isExponent_of_written {cs : List Char} (h : WrittenExponent cs) : isExponent cs = true := by
  obtain ⟨hm, hs, hd⟩ := h
  rename_i mark sign digits
  have hmark : (decide (mark = 'e') || decide (mark = 'E')) = true := by
    rcases hm with rfl | rfl <;> rfl
  have hdigits := isDigits_of_digits hd
  rcases hs with rfl | rfl | rfl
  · obtain ⟨hne, hall⟩ := hd
    cases digits with
    | nil => contradiction
    | cons d digits =>
      have hdig := hall d List.mem_cons_self
      rw [List.nil_append, isExponent]
      · rw [hmark, hdigits]; rfl
      · rintro rest heq
        obtain rfl := (List.cons.inj heq).1
        contradiction
      · rintro rest heq
        obtain rfl := (List.cons.inj heq).1
        contradiction
  · rw [List.singleton_append, isExponent, hmark, hdigits]; rfl
  · rw [List.singleton_append, isExponent, hmark, hdigits]; rfl

theorem isFractional_of_written {tail : List Char} (h : WrittenFraction tail) :
    isFractional tail = true := by
  have hexp {cs : List Char} (h : WrittenExponent cs) :
      ∃ c rest, cs = c :: rest ∧ c.isDigit = false ∧ c ≠ '.' := by
    obtain ⟨rfl | rfl, -, -⟩ := h
    · exact ⟨'e', _, rfl, rfl, by decide⟩
    · exact ⟨'E', _, rfl, rfl, by decide⟩
  cases h with
  | point hd =>
    rename_i digits
    obtain ⟨htake, hdrop⟩ := span_digits hd.2 [] nofun
    rw [List.append_nil] at htake hdrop
    rw [isFractional, htake, hdrop, isDigits_of_digits hd]
    rfl
  | exponent h =>
    obtain ⟨c, rest, rfl, -, hc⟩ := hexp h
    rw [isFractional]
    · exact isExponent_of_written h
    · rintro rest heq
      exact hc (List.cons.inj heq).1
  | pointExponent hd h =>
    obtain ⟨c, rest, rfl, hc, -⟩ := hexp h
    obtain ⟨htake, hdrop⟩ := span_digits hd.2 (c :: rest)
      fun d hd => Option.some.inj hd ▸ hc
    rw [isFractional, htake, hdrop, isDigits_of_digits hd, isExponent_of_written h]
    rfl

theorem readUnsigned_integer (negative : Bool) (n : Nat) :
    readUnsigned negative (Nat.toDigits 10 n) = some (.number
      (if negative then if n = 0 then none else some (-(n : Int)) else some n)) := by
  obtain ⟨htake, hdrop⟩ := span_digits (all_isDigit_toDigits n) [] nofun
  rw [List.append_nil] at htake hdrop
  rw [readUnsigned, htake, hdrop, isIntegerPart_toDigits, digitsValue_toDigits]
  rfl

theorem readUnsigned_fractional (negative : Bool) (n : Nat) {tail : List Char}
    (h : WrittenFraction tail) :
    readUnsigned negative (Nat.toDigits 10 n ++ tail) = some (.number none) := by
  have hfrac := isFractional_of_written h
  have hhead : tail ≠ [] ∧ ∀ c, tail.head? = some c → c.isDigit = false := by
    cases h with
    | point => exact ⟨List.cons_ne_nil _ _, fun c hc => Option.some.inj hc ▸ rfl⟩
    | exponent h =>
      obtain ⟨rfl | rfl, -, -⟩ := h
      · exact ⟨List.cons_ne_nil _ _, fun c hc => Option.some.inj hc ▸ rfl⟩
      · exact ⟨List.cons_ne_nil _ _, fun c hc => Option.some.inj hc ▸ rfl⟩
    | pointExponent => exact ⟨List.cons_ne_nil _ _, fun c hc => Option.some.inj hc ▸ rfl⟩
  obtain ⟨htake, hdrop⟩ := span_digits (all_isDigit_toDigits n) tail hhead.2
  rw [readUnsigned, htake, hdrop, isIntegerPart_toDigits, List.isEmpty_eq_false_iff.mpr hhead.1,
    hfrac]
  rfl

theorem readNumber_of_natural {cs : List Char} (h : cs.head? ≠ some '-') :
    readNumber cs = readUnsigned false cs := by
  rw [readNumber]
  rintro rest rfl
  exact h rfl

theorem head?_toDigits (n : Nat) : ∃ c, (Nat.toDigits 10 n).head? = some c ∧ c.isDigit = true := by
  cases hc : (Nat.toDigits 10 n).head? with
  | none => exact absurd (List.head?_eq_none_iff.mp hc) Nat.toDigits_ne_nil
  | some c => exact ⟨c, rfl, all_isDigit_toDigits n c (List.mem_of_head? hc)⟩

theorem readNumber_of_written {n : Option Int} {cs : List Char} (h : WrittenNumber n cs) :
    readNumber cs = some (.number n) := by
  have hplain (k : Nat) (tail : List Char) :
      readNumber (Nat.toDigits 10 k ++ tail) = readUnsigned false (Nat.toDigits 10 k ++ tail) := by
    obtain ⟨c, hc, hdigit⟩ := head?_toDigits k
    refine readNumber_of_natural ?_
    rw [List.head?_append, hc]
    rintro heq
    obtain rfl := Option.some.inj heq
    contradiction
  cases h with
  | natural k =>
    have heq := hplain k []
    rw [List.append_nil] at heq
    rw [heq, readUnsigned_integer]
    rfl
  | negative hk =>
    rw [readNumber, readUnsigned_integer, if_pos rfl, if_neg (Nat.ne_of_gt hk)]
  | minusZero => rfl
  | fractional k h => rw [hplain, readUnsigned_fractional false k h]
  | negativeFractional k h => rw [readNumber, readUnsigned_fractional true k h]

theorem isNumberChar_of_isDigit {c : Char} (h : c.isDigit = true) : isNumberChar c = true := by
  simp only [isNumberChar, h, Bool.true_or]

theorem WrittenExponent.all_isNumberChar {cs : List Char} (h : WrittenExponent cs) :
    ∀ c ∈ cs, isNumberChar c = true := by
  obtain ⟨hm, hs, -, hd⟩ := h
  rw [List.forall_mem_cons, List.forall_mem_append]
  refine ⟨?_, ?_, fun c hc => isNumberChar_of_isDigit (hd c hc)⟩
  · rcases hm with rfl | rfl <;> rfl
  · rcases hs with rfl | rfl | rfl
    · exact nofun
    · exact List.forall_mem_singleton.mpr rfl
    · exact List.forall_mem_singleton.mpr rfl

theorem WrittenFraction.all_isNumberChar {cs : List Char} (h : WrittenFraction cs) :
    ∀ c ∈ cs, isNumberChar c = true := by
  cases h with
  | point hd =>
    exact List.forall_mem_cons.mpr ⟨rfl, fun c hc => isNumberChar_of_isDigit (hd.2 c hc)⟩
  | exponent h => exact h.all_isNumberChar
  | pointExponent hd h =>
    rw [List.forall_mem_cons, List.forall_mem_append]
    exact ⟨rfl, fun c hc => isNumberChar_of_isDigit (hd.2 c hc), h.all_isNumberChar⟩

theorem WrittenNumber.exists_cons {n : Option Int} {cs : List Char} (h : WrittenNumber n cs) :
    ∃ c rest, cs = c :: rest ∧ (c.isDigit = true ∨ c = '-') ∧
      ∀ d ∈ rest, isNumberChar d = true := by
  have hdigits (n : Nat) : ∀ d ∈ Nat.toDigits 10 n, isNumberChar d = true :=
    fun d hd => isNumberChar_of_isDigit (all_isDigit_toDigits n d hd)
  have hnatural (n : Nat) (tail : List Char) (ht : ∀ d ∈ tail, isNumberChar d = true) :
      ∃ c rest, Nat.toDigits 10 n ++ tail = c :: rest ∧ (c.isDigit = true ∨ c = '-') ∧
        ∀ d ∈ rest, isNumberChar d = true := by
    obtain ⟨c, hc, hdigit⟩ := head?_toDigits n
    obtain ⟨rest, hrest⟩ := List.head?_eq_some_iff.mp hc
    refine ⟨c, rest ++ tail, by rw [hrest]; rfl, .inl hdigit, ?_⟩
    rw [List.forall_mem_append]
    exact ⟨fun d hd => hdigits n d (hrest ▸ List.mem_cons_of_mem c hd), ht⟩
  cases h with
  | natural n =>
    have h := hnatural n [] nofun
    rwa [List.append_nil] at h
  | negative => exact ⟨'-', _, rfl, .inr rfl, hdigits _⟩
  | minusZero => exact ⟨'-', _, rfl, .inr rfl, List.forall_mem_singleton.mpr rfl⟩
  | fractional n h => exact hnatural n _ h.all_isNumberChar
  | negativeFractional n h =>
    refine ⟨'-', _, rfl, .inr rfl, ?_⟩
    rw [List.forall_mem_append]
    exact ⟨hdigits n, h.all_isNumberChar⟩

/-! ## Words and numbers in a text -/

/-- Neither a word nor a number goes on into these characters. -/
def Delimited (cs : List Char) : Prop :=
  ∀ c, cs.head? = some c → c.isAlpha = false ∧ isNumberChar c = false

theorem Delimited.nil : Delimited [] := nofun

theorem delimited_blanks {blanks rest : List Char} (hb : Blanks blanks) (h : Delimited rest) :
    Delimited (blanks ++ rest) := by
  cases blanks with
  | nil => exact h
  | cons b blanks =>
    intro c hc
    obtain rfl := Option.some.inj hc
    rcases hb b List.mem_cons_self with rfl | rfl | rfl | rfl <;> exact ⟨rfl, rfl⟩

variable {out : List Lexeme} {rest : List Char}

theorem scan_word (letters : List Char) {l : Lexeme} (hl : readWord letters.reverse = some l)
    (hd : Delimited rest) : scan (.word letters) out rest = scan .between (l :: out) rest := by
  cases rest with
  | nil =>
    rw [scan, finish, hl]
    rfl
  | cons c rest =>
    rw [scan, step, (hd c rfl).1, hl]
    rfl

theorem scan_number {chars : List Char} {l : Lexeme} (hl : readNumber chars.reverse = some l)
    (hd : Delimited rest) : scan (.number chars) out rest = scan .between (l :: out) rest := by
  cases rest with
  | nil =>
    rw [scan, finish, hl]
    rfl
  | cons c rest =>
    rw [scan, step, (hd c rfl).2, hl]
    rfl

theorem step_digit {c : Char} (h : c.isDigit = true) :
    step .between out c = some (.number [c], out) := by
  have hblank : isBlank c = false := by
    refine Bool.eq_false_iff.mpr fun hb => ?_
    simp only [isBlank, Bool.or_eq_true, decide_eq_true_eq] at hb
    rcases hb with ((rfl | rfl) | rfl) | rfl <;> contradiction
  have hquote : c ≠ '"' := by
    rintro rfl
    contradiction
  rw [step, begin, hblank, if_neg hquote, h]
  rfl

theorem scan_numberChars {cs : List Char} (h : ∀ c ∈ cs, isNumberChar c = true)
    (chars : List Char) :
    scan (.number chars) out (cs ++ rest) = scan (.number (cs.reverse ++ chars)) out rest := by
  induction cs generalizing chars with
  | nil => rfl
  | cons c cs ih =>
    rw [List.cons_append, scan, step, h c List.mem_cons_self, if_pos rfl]
    dsimp only
    rw [ih (fun d hd => h d (List.mem_cons_of_mem _ hd)), List.reverse_cons, List.append_assoc]
    rfl

/-! ## Strings -/

def PartialText.add (t : PartialText) : Letter → PartialText
  | .char c => t.push c
  | .unit n => t.pushUnit n

namespace PartialText

variable {chars : List Char} {half : Option Nat} {broken : Bool} {n m : Nat}

theorem add_high (hn : IsHigh n) :
    add ⟨chars, none, broken⟩ (.unit n) = ⟨chars, some n, broken⟩ :=
  if_pos hn

theorem add_low (hhigh : ¬ IsHigh n) (hlow : IsLow n) :
    add ⟨chars, none, broken⟩ (.unit n) = ⟨chars, none, true⟩ :=
  (if_neg hhigh).trans (if_pos hlow)

theorem add_unit (hhigh : ¬ IsHigh n) (hlow : ¬ IsLow n) :
    add ⟨chars, none, broken⟩ (.unit n) = ⟨Char.ofNat n :: chars, none, broken⟩ :=
  (if_neg hhigh).trans (if_neg hlow)

theorem add_pair (hm : IsLow m) :
    add ⟨chars, some n, broken⟩ (.unit m) =
      ⟨Char.ofNat (0x10000 + (n - 0xD800) * 0x400 + (m - 0xDC00)) :: chars, none, broken⟩ :=
  if_pos hm

theorem add_half (hm : ¬ IsLow m) :
    add ⟨chars, some n, broken⟩ (.unit m) = ⟨chars, none, true⟩ :=
  if_neg hm

theorem broken_add (l : Letter) : (add ⟨chars, half, true⟩ l).broken = true := by
  cases l with
  | char c => rfl
  | unit n =>
    cases half with
    | some m =>
      by_cases hlow : IsLow n
      · rw [add_pair hlow]
      · rw [add_half hlow]
    | none =>
      by_cases hhigh : IsHigh n
      · rw [add_high hhigh]
      by_cases hlow : IsLow n
      · rw [add_low hhigh hlow]
      · rw [add_unit hhigh hlow]

theorem finish_broken (letters : List Letter) :
    (letters.foldl add ⟨chars, half, true⟩).finish = none := by
  induction letters generalizing chars half with
  | nil => rfl
  | cons l letters ih =>
    rw [List.foldl_cons]
    have hbroken : (add ⟨chars, half, true⟩ l).broken = true := broken_add l
    cases ht : add ⟨chars, half, true⟩ l with
    | mk chars' half' broken' =>
      rw [ht] at hbroken
      obtain rfl : broken' = true := hbroken
      exact ih

/-- The text of letters, when half of a pair may be waiting for the other before them. -/
theorem finish_foldl_add (h : ∀ n, half = some n → IsHigh n) (letters : List Letter) :
    (letters.foldl add ⟨chars, half, false⟩).finish =
      (decode (half.toList.map .unit ++ letters)).map fun cs =>
        String.ofList (chars.reverse ++ cs) := by
  have hmap (letters : List Letter) (chars : List Char) (c : Char) :
      ((decode letters).map fun cs => String.ofList ((c :: chars).reverse ++ cs)) =
        ((decode letters).map (c :: ·)).map fun cs => String.ofList (chars.reverse ++ cs) := by
    rw [Option.map_map, List.reverse_cons]
    simp only [Function.comp_def, List.append_assoc, List.singleton_append]
  have hnone : ∀ n, (none : Option Nat) = some n → IsHigh n := nofun
  induction letters generalizing chars half with
  | nil =>
    cases half with
    | none =>
      rw [List.foldl_nil, finish]
      exact congrArg (some <| String.ofList ·) (List.append_nil _).symm
    | some n => exact (Option.map_eq_none_iff.mpr (decode_half (h n rfl))).symm
  | cons l letters ih =>
    rw [List.foldl_cons]
    cases half with
    | none =>
      rw [Option.toList_none, List.map_nil, List.nil_append]
      cases l with
      | char c => exact (ih hnone).trans (hmap letters chars c)
      | unit m =>
        by_cases hhigh : IsHigh m
        · rw [add_high hhigh]
          exact ih fun n hn => Option.some.inj hn ▸ hhigh
        by_cases hlow : IsLow m
        · rw [add_low hhigh hlow, finish_broken, decode_low hlow]
          rfl
        · rw [add_unit hhigh hlow, ih hnone, decode_unit hhigh hlow]
          exact hmap letters chars _
    | some n =>
      have hn := h n rfl
      rw [Option.toList_some, List.map_singleton, List.singleton_append]
      cases l with
      | char c =>
        rw [decode_half_char hn]
        exact finish_broken letters
      | unit m =>
        by_cases hlow : IsLow m
        · rw [add_pair hlow, ih hnone, decode_pair hn hlow]
          exact hmap letters chars _
        · rw [add_half hlow, finish_broken, decode_half_unit hn hlow]
          rfl

end PartialText

theorem hexValue_of_mem {c : Char} {n : Nat} (h : (c, n) ∈ hexDigits) : hexValue c = some n := by
  have hall : ∀ p ∈ hexDigits, hexValue p.1 = some p.2 := by decide
  exact hall (c, n) h

theorem readEscape_of_mem {c d : Char} (h : (c, d) ∈ escapes) :
    c ≠ 'u' ∧ readEscape c = some d := by
  have hall : ∀ p ∈ escapes, p.1 ≠ 'u' ∧ readEscape p.1 = some p.2 := by decide
  exact hall (c, d) h

theorem step_unit {t : PartialText} {c : Char} {digit : Nat} (h : hexValue c = some digit)
    (missing value : Nat) :
    step (.unit t missing value) out c =
      if missing ≤ 1 then some (.string (t.pushUnit (16 * value + digit)), out)
      else some (.unit t (missing - 1) (16 * value + digit), out) := by
  rw [step, h]

theorem scan_letter {t : PartialText} {l : Letter} {cs : List Char} (h : WrittenLetter l cs) :
    scan (.string t) out (cs ++ rest) = scan (.string (t.add l)) out rest := by
  cases h with
  | plain hc hquote hbackslash =>
    rw [List.singleton_append, scan, step, stepString, if_neg hquote, if_neg hbackslash,
      if_neg (Nat.not_lt.mpr hc)]
    rfl
  | @escaped c d hesc =>
    obtain ⟨hu, hd⟩ := readEscape_of_mem hesc
    change scan (.escape t) out (c :: rest) = _
    rw [scan, step, if_neg hu, hd]
    rfl
  | @unit a b c d i j k l ha hb hc hd =>
    have hfirst : 16 * 0 + i = i := Nat.zero_add i
    change scan (.unit t 4 0) out (a :: b :: c :: d :: rest) = _
    rw [scan, step_unit (hexValue_of_mem ha), if_neg (by decide)]
    dsimp only
    rw [scan, step_unit (hexValue_of_mem hb), if_neg (by decide)]
    dsimp only
    rw [scan, step_unit (hexValue_of_mem hc), if_neg (by decide)]
    dsimp only
    rw [scan, step_unit (hexValue_of_mem hd), if_pos (by decide), hfirst]
    rfl

theorem scan_letters {letters : List Letter} {cs : List Char} (h : WrittenLetters letters cs)
    (t : PartialText) :
    scan (.string t) out (cs ++ rest) = scan (.string (letters.foldl .add t)) out rest := by
  induction h generalizing t with
  | nil => rfl
  | cons hl _ ih =>
    rw [List.append_assoc, scan_letter hl, ih]
    rfl

theorem scan_string {s : Option String} {cs : List Char} (h : WrittenString s cs) :
    scan .between out (cs ++ rest) = scan .between (.string s :: out) rest := by
  obtain ⟨hletters⟩ := h
  rename_i letters cs
  have hnone : ∀ n, PartialText.empty.half = some n → IsHigh n := nofun
  have hs : (letters.foldl PartialText.add .empty).finish =
      (decode letters).map String.ofList :=
    PartialText.finish_foldl_add hnone letters
  rw [List.cons_append, List.append_assoc]
  change scan (.string .empty) out (cs ++ _) = _
  rw [scan_letters hletters, List.singleton_append, scan, step, stepString, if_pos rfl, hs]

/-! ## Values -/

/-- Characters that are cut into these lexemes, when what follows delimits them. -/
def Reads (cs : List Char) (ls : List Lexeme) : Prop :=
  ∀ out rest, Delimited rest →
    scan .between out (cs ++ rest) = scan .between (ls.reverse ++ out) rest

theorem scan_blanks {blanks : List Char} (hb : Blanks blanks) :
    scan .between out (blanks ++ rest) = scan .between out rest := by
  induction blanks with
  | nil => rfl
  | cons b blanks ih =>
    have hrest := ih fun c hc => hb c (List.mem_cons_of_mem _ hc)
    rcases hb b List.mem_cons_self with rfl | rfl | rfl | rfl <;> exact hrest

/-- The characters that are lexemes of their own. -/
structure IsMark (c : Char) (l : Lexeme) : Prop where
  step_eq : ∀ out, step .between out c = some (.between, l :: out)
  notAlpha : c.isAlpha = false
  notNumber : isNumberChar c = false

theorem isMark_of_readMark {c : Char} {l : Lexeme} (h : readMark c = some l) : IsMark c l := by
  unfold readMark at h
  split at h
  case h_7 => contradiction
  all_goals
    obtain rfl := Option.some.inj h
    exact ⟨fun _ => rfl, rfl, rfl⟩

theorem isMark_comma : IsMark ',' .comma := isMark_of_readMark rfl

theorem isMark_colon : IsMark ':' .colon := isMark_of_readMark rfl

namespace Reads

variable {cs cs' : List Char} {ls ls' : List Lexeme} {c : Char} {l : Lexeme}

theorem nil : Reads [] [] := fun _ _ _ => rfl

theorem mark (hc : IsMark c l) (h : Reads cs ls) : Reads (c :: cs) (l :: ls) := by
  intro out rest hd
  rw [List.cons_append, scan, hc.step_eq, List.reverse_cons, List.append_assoc]
  exact h (l :: out) rest hd

theorem blanks {blanks : List Char} (hb : Blanks blanks) (h : Reads cs ls) :
    Reads (blanks ++ cs) ls := by
  intro out rest hd
  rw [List.append_assoc, scan_blanks hb]
  exact h out rest hd

/-- What is read before blanks. -/
theorem before_blanks {blanks : List Char} (h : Reads cs ls) (hb : Blanks blanks) :
    Reads (cs ++ blanks) ls := by
  intro out rest hd
  rw [List.append_assoc, h out _ (delimited_blanks hb hd), scan_blanks hb]

/-- What is read before a mark. -/
theorem before_mark (h : Reads cs ls) (hc : IsMark c l) (h' : Reads cs' ls') :
    Reads (cs ++ c :: cs') (ls ++ l :: ls') := by
  intro out rest hd
  have hdelimited : Delimited (c :: cs' ++ rest) := by
    intro d hd
    obtain rfl := Option.some.inj hd
    exact ⟨hc.notAlpha, hc.notNumber⟩
  rw [List.append_assoc, h out _ hdelimited, mark hc h' _ rest hd, List.reverse_append,
    List.append_assoc]

end Reads

/-- What is read between two marks. -/
theorem Reads.enclosed {cs : List Char} {ls : List Lexeme} {first last : Char} {l l' : Lexeme}
    (hfirst : readMark first = some l) (h : Reads cs ls) (hlast : readMark last = some l') :
    Reads (first :: (cs ++ [last])) (l :: (ls ++ [l'])) :=
  .mark (isMark_of_readMark hfirst) (h.before_mark (isMark_of_readMark hlast) .nil)

theorem reads_blanks {blanks : List Char} (hb : Blanks blanks) : Reads blanks [] := by
  have h := Reads.nil.blanks hb
  rwa [List.append_nil] at h

theorem reads_number {n : Option Int} {cs : List Char} (h : WrittenNumber n cs) :
    Reads cs [.number n] := by
  intro out rest hd
  have hread := readNumber_of_written h
  obtain ⟨c, cs, rfl, hc, hcs⟩ := h.exists_cons
  have hfirst : step .between out c = some (.number [c], out) := by
    rcases hc with hdigit | rfl
    · exact step_digit hdigit
    · rfl
  rw [List.cons_append, scan, hfirst]
  dsimp only
  rw [scan_numberChars hcs, scan_number _ hd]
  · rfl
  · rwa [List.reverse_append, List.reverse_reverse]

theorem reads_string {s : Option String} {cs : List Char} (h : WrittenString s cs) :
    Reads cs [.string s] :=
  fun _ _ _ => scan_string h

theorem WrittenItems.ne_nil {items : List Json} {cs : List Char} (h : WrittenItems items cs) :
    items ≠ [] := by
  cases h <;> exact List.cons_ne_nil _ _

theorem WrittenMembers.ne_nil {members : List (Option String × Json)} {cs : List Char}
    (h : WrittenMembers members cs) : members ≠ [] := by
  cases h <;> exact List.cons_ne_nil _ _

mutual

/-- The characters that write a value are cut into its lexemes. -/
theorem reads_value : ∀ {v : Json} {cs : List Char}, WrittenValue v cs → Reads cs v.lexemes
  | _, _, .null => fun _ _ hd => scan_word ['l', 'l', 'u', 'n'] rfl hd
  | _, _, .true => fun _ _ hd => scan_word ['e', 'u', 'r', 't'] rfl hd
  | _, _, .false => fun _ _ hd => scan_word ['e', 's', 'l', 'a', 'f'] rfl hd
  | _, _, .number h => reads_number h
  | _, _, .string h => reads_string h
  | _, _, .emptyArray hb => .enclosed rfl (reads_blanks hb) rfl
  | _, _, .array h => .enclosed rfl (reads_items h) rfl
  | _, _, .emptyObject hb => .enclosed rfl (reads_blanks hb) rfl
  | _, _, .object h => .enclosed rfl (reads_members h) rfl

theorem reads_element : ∀ {v : Json} {cs : List Char}, WrittenElement v cs → Reads cs v.lexemes
  | _, _, .mk hb h ha => ((reads_value h).before_blanks ha).blanks hb

theorem reads_items : ∀ {items : List Json} {cs : List Char},
    WrittenItems items cs → Reads cs (itemLexemes items)
  | _, _, .last h => reads_element h
  | _, _, .more h hrest => by
    rw [itemLexemes_cons hrest.ne_nil]
    exact (reads_element h).before_mark isMark_comma (reads_items hrest)

theorem reads_member : ∀ {m : Option String × Json} {cs : List Char},
    WrittenMember m cs → Reads cs (.string m.1 :: .colon :: m.2.lexemes)
  | _, _, .mk hb hkey ha h => by
    have hkey := (reads_string hkey).before_blanks ha
    have hmember := (hkey.before_mark isMark_colon (reads_element h)).blanks hb
    rw [List.append_assoc] at hmember
    exact hmember

theorem reads_members : ∀ {members : List (Option String × Json)} {cs : List Char},
    WrittenMembers members cs → Reads cs (memberLexemes members)
  | _, _, .last h => reads_member h
  | _, _, .more h hrest => by
    rw [memberLexemes_cons hrest.ne_nil]
    exact (reads_member h).before_mark isMark_comma (reads_members hrest)

end

theorem lexemes?_of_writes {text : String} {v : Json} (h : Writes text v) :
    lexemes? text = some v.lexemes := by
  have hscan := reads_element h [] [] .nil
  rw [List.append_nil, List.append_nil] at hscan
  rw [lexemes?, hscan, scan, finish, Option.map_some, List.reverse_reverse]

end ModalLex.Json

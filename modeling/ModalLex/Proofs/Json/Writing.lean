import ModalLex.Json

/-!
# How JSON is written

The grammar of JSON, as a relation between a value and the texts that write it. A value has many:
blanks stand where they like, and a letter of a string may be itself, an escape, or one or two code
units of 16 bits by number.
-/
namespace ModalLex.Json

def Blanks (cs : List Char) : Prop := ∀ c ∈ cs, c = ' ' ∨ c = '\t' ∨ c = '\n' ∨ c = '\r'

/-! ## Numbers -/

def Digits (cs : List Char) : Prop := cs ≠ [] ∧ ∀ c ∈ cs, c.isDigit = true

inductive WrittenExponent : List Char → Prop
  | mk {mark : Char} {sign digits : List Char} (hm : mark = 'e' ∨ mark = 'E')
      (hs : sign = [] ∨ sign = ['+'] ∨ sign = ['-']) (hd : Digits digits) :
      WrittenExponent (mark :: (sign ++ digits))

/-- What follows the integer part of a number that is not written as an integer. -/
inductive WrittenFraction : List Char → Prop
  | point {digits : List Char} (hd : Digits digits) : WrittenFraction ('.' :: digits)
  | exponent {cs : List Char} (h : WrittenExponent cs) : WrittenFraction cs
  | pointExponent {digits cs : List Char} (hd : Digits digits) (h : WrittenExponent cs) :
      WrittenFraction ('.' :: (digits ++ cs))

/-- A number, with its value if it is written as an integer; minus zero is none. -/
inductive WrittenNumber : Option Int → List Char → Prop
  | natural (n : Nat) : WrittenNumber (some n) (Nat.toDigits 10 n)
  | negative {n : Nat} (h : 0 < n) : WrittenNumber (some (-n)) ('-' :: Nat.toDigits 10 n)
  | minusZero : WrittenNumber none ['-', '0']
  | fractional (n : Nat) {tail : List Char} (h : WrittenFraction tail) :
      WrittenNumber none (Nat.toDigits 10 n ++ tail)
  | negativeFractional (n : Nat) {tail : List Char} (h : WrittenFraction tail) :
      WrittenNumber none ('-' :: (Nat.toDigits 10 n ++ tail))

/-! ## Strings -/

/-- A letter of a string: a character, or a code unit of 16 bits that is given by number. -/
inductive Letter where
  | char (c : Char)
  | unit (n : Nat)

/-- The characters that may stand behind a backslash, and what they then mean. -/
def escapes : List (Char × Char) :=
  [('"', '"'), ('\\', '\\'), ('/', '/'), ('b', '\x08'), ('f', '\x0c'), ('n', '\n'), ('r', '\r'),
    ('t', '\t')]

def hexDigits : List (Char × Nat) :=
  "0123456789abcdef".toList.zipIdx ++ "ABCDEF".toList.zipIdx 10

inductive WrittenLetter : Letter → List Char → Prop
  | plain {c : Char} (hc : 0x20 ≤ c.toNat) (hquote : c ≠ '"') (hbackslash : c ≠ '\\') :
      WrittenLetter (.char c) [c]
  | escaped {c d : Char} (h : (c, d) ∈ escapes) : WrittenLetter (.char d) ['\\', c]
  | unit {a b c d : Char} {i j k l : Nat} (ha : (a, i) ∈ hexDigits) (hb : (b, j) ∈ hexDigits)
      (hc : (c, k) ∈ hexDigits) (hd : (d, l) ∈ hexDigits) :
      WrittenLetter (.unit (16 * (16 * (16 * i + j) + k) + l)) ['\\', 'u', a, b, c, d]

inductive WrittenLetters : List Letter → List Char → Prop
  | nil : WrittenLetters [] []
  | cons {l : Letter} {letters : List Letter} {cs rest : List Char} (h : WrittenLetter l cs)
      (hrest : WrittenLetters letters rest) : WrittenLetters (l :: letters) (cs ++ rest)

def IsHigh (n : Nat) : Prop := 0xD800 ≤ n ∧ n < 0xDC00

def IsLow (n : Nat) : Prop := 0xDC00 ≤ n ∧ n < 0xE000

instance (n : Nat) : Decidable (IsHigh n) := inferInstanceAs (Decidable (_ ∧ _))

instance (n : Nat) : Decidable (IsLow n) := inferInstanceAs (Decidable (_ ∧ _))

/-- The characters of letters. Two units that make a pair stand for one character, and half of a
pair for none. -/
def decode : List Letter → Option (List Char)
  | [] => some []
  | .char c :: rest => (decode rest).map (c :: ·)
  | .unit n :: rest =>
    if IsHigh n then
      match rest with
      | .unit m :: rest =>
        if IsLow m then
          (decode rest).map (Char.ofNat (0x10000 + (n - 0xD800) * 0x400 + (m - 0xDC00)) :: ·)
        else none
      | _ => none
    else if IsLow n then none
    else (decode rest).map (Char.ofNat n :: ·)

section

variable {n m : Nat} {c : Char} {rest : List Letter}

theorem decode_pair (hn : IsHigh n) (hm : IsLow m) :
    decode (.unit n :: .unit m :: rest) =
      (decode rest).map (Char.ofNat (0x10000 + (n - 0xD800) * 0x400 + (m - 0xDC00)) :: ·) := by
  rw [decode, if_pos hn, if_pos hm]

theorem decode_half_unit (hn : IsHigh n) (hm : ¬ IsLow m) :
    decode (.unit n :: .unit m :: rest) = none := by
  rw [decode, if_pos hn, if_neg hm]

theorem decode_half_char (hn : IsHigh n) : decode (.unit n :: .char c :: rest) = none := by
  rw [decode, if_pos hn]
  exact nofun

theorem decode_half (hn : IsHigh n) : decode [.unit n] = none := by
  rw [decode, if_pos hn]
  exact nofun

theorem decode_low (hn : IsLow n) : decode (.unit n :: rest) = none := by
  have hhigh : ¬ IsHigh n := fun h => Nat.lt_irrefl _ (Nat.lt_of_lt_of_le h.2 hn.1)
  unfold decode
  rw [if_neg hhigh, if_pos hn]

theorem decode_unit (hhigh : ¬ IsHigh n) (hlow : ¬ IsLow n) :
    decode (.unit n :: rest) = (decode rest).map (Char.ofNat n :: ·) := by
  conv => lhs; unfold decode
  rw [if_neg hhigh, if_neg hlow]

end

/-- A string, with its text unless half of a pair stands alone in it. -/
inductive WrittenString : Option String → List Char → Prop
  | mk {letters : List Letter} {cs : List Char} (h : WrittenLetters letters cs) :
      WrittenString ((decode letters).map String.ofList) ('"' :: (cs ++ ['"']))

/-- Whether a character may stand in a string as it is. -/
def isPlain (c : Char) : Bool := 0x20 ≤ c.toNat && c ≠ '"' && c ≠ '\\'

theorem writtenLetter_plain {c : Char} (h : isPlain c = true) : WrittenLetter (.char c) [c] := by
  simp only [isPlain, Bool.and_eq_true, decide_eq_true_eq] at h
  exact .plain h.1.1 h.1.2 h.2

theorem writtenLetters_plain {cs : List Char} (h : cs.all isPlain = true) :
    WrittenLetters (cs.map .char) cs ∧ decode (cs.map .char) = some cs := by
  induction cs with
  | nil => exact ⟨.nil, rfl⟩
  | cons c cs ih =>
    rw [List.all_cons, Bool.and_eq_true] at h
    obtain ⟨hwritten, hdecode⟩ := ih h.2
    refine ⟨.cons (writtenLetter_plain h.1) hwritten, ?_⟩
    rw [List.map_cons, decode, hdecode]
    rfl

/-- A text of plain characters is written as it is. -/
theorem writtenString_plain {s : String} (h : s.toList.all isPlain = true) :
    WrittenString (some s) ('"' :: (s.toList ++ ['"'])) := by
  obtain ⟨hwritten, hdecode⟩ := writtenLetters_plain h
  have hs := WrittenString.mk hwritten
  rwa [hdecode, Option.map_some, String.ofList_toList] at hs

/-! ## Values -/

mutual

inductive WrittenValue : Json → List Char → Prop
  | null : WrittenValue .null ['n', 'u', 'l', 'l']
  | true : WrittenValue (.bool true) ['t', 'r', 'u', 'e']
  | false : WrittenValue (.bool false) ['f', 'a', 'l', 's', 'e']
  | number {n : Option Int} {cs : List Char} (h : WrittenNumber n cs) : WrittenValue (.number n) cs
  | string {s : Option String} {cs : List Char} (h : WrittenString s cs) :
      WrittenValue (.string s) cs
  | emptyArray {blanks : List Char} (hb : Blanks blanks) :
      WrittenValue (.array []) ('[' :: (blanks ++ [']']))
  | array {items : List Json} {cs : List Char} (h : WrittenItems items cs) :
      WrittenValue (.array items) ('[' :: (cs ++ [']']))
  | emptyObject {blanks : List Char} (hb : Blanks blanks) :
      WrittenValue (.object []) ('{' :: (blanks ++ ['}']))
  | object {members : List (Option String × Json)} {cs : List Char}
      (h : WrittenMembers members cs) : WrittenValue (.object members) ('{' :: (cs ++ ['}']))

/-- A value with blanks around it, as a whole text is. -/
inductive WrittenElement : Json → List Char → Prop
  | mk {v : Json} {before cs after : List Char} (hb : Blanks before) (h : WrittenValue v cs)
      (ha : Blanks after) : WrittenElement v (before ++ (cs ++ after))

inductive WrittenItems : List Json → List Char → Prop
  | last {v : Json} {cs : List Char} (h : WrittenElement v cs) : WrittenItems [v] cs
  | more {v : Json} {items : List Json} {cs rest : List Char} (h : WrittenElement v cs)
      (hrest : WrittenItems items rest) : WrittenItems (v :: items) (cs ++ ',' :: rest)

inductive WrittenMember : Option String × Json → List Char → Prop
  | mk {key : Option String} {v : Json} {before letters after cs : List Char} (hb : Blanks before)
      (hkey : WrittenString key letters) (ha : Blanks after) (h : WrittenElement v cs) :
      WrittenMember (key, v) (before ++ (letters ++ (after ++ ':' :: cs)))

inductive WrittenMembers : List (Option String × Json) → List Char → Prop
  | last {m : Option String × Json} {cs : List Char} (h : WrittenMember m cs) :
      WrittenMembers [m] cs
  | more {m : Option String × Json} {members : List (Option String × Json)}
      {cs rest : List Char} (h : WrittenMember m cs) (hrest : WrittenMembers members rest) :
      WrittenMembers (m :: members) (cs ++ ',' :: rest)

end

theorem blanks_nil : Blanks [] := nofun

theorem WrittenElement.plain {v : Json} {cs : List Char} (h : WrittenValue v cs) :
    WrittenElement v cs := by
  have he := WrittenElement.mk blanks_nil h blanks_nil
  rwa [List.nil_append, List.append_nil] at he

theorem WrittenMember.plain {key : Option String} {v : Json} {letters cs : List Char}
    (hkey : WrittenString key letters) (h : WrittenElement v cs) :
    WrittenMember (key, v) (letters ++ ':' :: cs) :=
  .mk blanks_nil hkey blanks_nil h

/-- A text writes a value, with blanks around it. -/
def Writes (text : String) (v : Json) : Prop := WrittenElement v text.toList

end ModalLex.Json

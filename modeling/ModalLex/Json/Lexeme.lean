/-!
# The lexemes of JSON

A JSON text is a sequence of marks, words, numbers and strings with blanks between them. It
is read character by character by a machine whose state says inside which lexeme it stands.
-/
namespace ModalLex.Json

inductive Lexeme where
  | openObject
  | closeObject
  | openArray
  | closeArray
  | comma
  | colon
  | null
  | bool (value : Bool)
  /-- A number, with its value if it is written as an integer. -/
  | number (value : Option Int)
  /-- A string, with its text unless an escape names half of a surrogate pair. -/
  | string (text : Option String)
  deriving DecidableEq, Repr

/-! ## Numbers -/

def digitsValue (digits : List Char) : Nat :=
  digits.foldl (fun n c => 10 * n + (c.toNat - '0'.toNat)) 0

/-- Digits with no needless zero before them. -/
def isIntegerPart : List Char → Bool
  | [] => false
  | '0' :: rest => rest.isEmpty
  | _ :: _ => true

def isDigits (cs : List Char) : Bool := !cs.isEmpty && cs.all Char.isDigit

/-- An exponent, from its letter on. -/
def isExponent : List Char → Bool
  | c :: '+' :: rest => (c = 'e' || c = 'E') && isDigits rest
  | c :: '-' :: rest => (c = 'e' || c = 'E') && isDigits rest
  | c :: rest => (c = 'e' || c = 'E') && isDigits rest
  | [] => false

/-- What may follow the integer part of a number that is not an integer: a fraction, an
exponent, or both. -/
def isFractional : List Char → Bool
  | '.' :: rest =>
    let exponent := rest.dropWhile Char.isDigit
    isDigits (rest.takeWhile Char.isDigit) && (exponent.isEmpty || isExponent exponent)
  | cs => isExponent cs

/-- A number without its sign. Minus zero is no integer. -/
def readUnsigned (negative : Bool) (cs : List Char) : Option Lexeme :=
  let digits := cs.takeWhile Char.isDigit
  let rest := cs.dropWhile Char.isDigit
  if !isIntegerPart digits then none
  else if rest.isEmpty then
    let value := digitsValue digits
    some <| .number <|
      if negative then if value = 0 then none else some (-(value : Int)) else some value
  else if isFractional rest then some (.number none)
  else none

def readNumber : List Char → Option Lexeme
  | '-' :: rest => readUnsigned true rest
  | cs => readUnsigned false cs

/-! ## Words and marks -/

def readWord (letters : List Char) : Option Lexeme :=
  if letters = ['n', 'u', 'l', 'l'] then some .null
  else if letters = ['t', 'r', 'u', 'e'] then some (.bool true)
  else if letters = ['f', 'a', 'l', 's', 'e'] then some (.bool false)
  else none

def readMark : Char → Option Lexeme
  | '{' => some .openObject
  | '}' => some .closeObject
  | '[' => some .openArray
  | ']' => some .closeArray
  | ',' => some .comma
  | ':' => some .colon
  | _ => none

/-- The characters that may stand between lexemes. -/
def isBlank (c : Char) : Bool := c = ' ' || c = '\t' || c = '\n' || c = '\r'

/-- The characters that a number may go on with. -/
def isNumberChar (c : Char) : Bool :=
  c.isDigit || c = '.' || c = 'e' || c = 'E' || c = '+' || c = '-'

/-! ## Strings -/

structure PartialText where
  /-- The characters, the last one first. -/
  chars : List Char
  /-- The first half of a surrogate pair, when an escape has just named it. -/
  half : Option Nat
  /-- Whether an escape has named half of a pair without the other half. -/
  broken : Bool
  deriving DecidableEq, Repr

namespace PartialText

def empty : PartialText := ⟨[], none, false⟩

/-- Add a character. A half before it stays alone. -/
def push (t : PartialText) (c : Char) : PartialText :=
  ⟨c :: t.chars, none, t.broken || t.half.isSome⟩

/-- Add a code unit of 16 bits, which may be half of a pair. -/
def pushUnit (t : PartialText) (unit : Nat) : PartialText :=
  let isHigh := 0xD800 ≤ unit ∧ unit < 0xDC00
  let isLow := 0xDC00 ≤ unit ∧ unit < 0xE000
  match t.half with
  | some high =>
    if isLow then
      { t with
        chars := Char.ofNat (0x10000 + (high - 0xD800) * 0x400 + (unit - 0xDC00)) :: t.chars
        half := none }
    else { t with half := none, broken := true }
  | none =>
    if isHigh then { t with half := some unit }
    else if isLow then { t with broken := true }
    else { t with chars := Char.ofNat unit :: t.chars }

/-- The text, unless half of a pair stands alone in it. -/
def finish (t : PartialText) : Option String :=
  if t.broken || t.half.isSome then none else some (String.ofList t.chars.reverse)

end PartialText

def readEscape : Char → Option Char
  | '"' => some '"'
  | '\\' => some '\\'
  | '/' => some '/'
  | 'b' => some '\x08'
  | 'f' => some '\x0c'
  | 'n' => some '\n'
  | 'r' => some '\r'
  | 't' => some '\t'
  | _ => none

def hexValue (c : Char) : Option Nat :=
  if c.isDigit then some (c.toNat - '0'.toNat)
  else if 'a' ≤ c ∧ c ≤ 'f' then some (c.toNat - 'a'.toNat + 10)
  else if 'A' ≤ c ∧ c ≤ 'F' then some (c.toNat - 'A'.toNat + 10)
  else none

/-! ## The machine -/

inductive State where
  | between
  /-- In a word; its letters, the last one first. -/
  | word (letters : List Char)
  /-- In a number; its characters, the last one first. -/
  | number (chars : List Char)
  | string (text : PartialText)
  | escape (text : PartialText)
  /-- In an escape by number: the digits missing and the value of those read. -/
  | unit (text : PartialText) (missing value : Nat)
  deriving DecidableEq, Repr

/-- One character between lexemes: a blank, a mark, or the first character of another
lexeme. -/
def begin (out : List Lexeme) (c : Char) : Option (State × List Lexeme) :=
  if isBlank c then some (.between, out)
  else if c = '"' then some (.string .empty, out)
  else if c.isDigit || c = '-' then some (.number [c], out)
  else if c.isAlpha then some (.word [c], out)
  else (readMark c).map fun l => (.between, l :: out)

/-- One character inside a string. The control characters may only be escaped. -/
def stepString (t : PartialText) (out : List Lexeme) (c : Char) :
    Option (State × List Lexeme) :=
  if c = '"' then some (.between, .string t.finish :: out)
  else if c = '\\' then some (.escape t, out)
  else if c.toNat < 0x20 then none
  else some (.string (t.push c), out)

/-- One character. `out` holds the lexemes read so far, the last one first. -/
def step (state : State) (out : List Lexeme) (c : Char) : Option (State × List Lexeme) :=
  match state with
  | .between => begin out c
  | .word letters =>
    if c.isAlpha then some (.word (c :: letters), out)
    else
      match readWord letters.reverse with
      | none => none
      | some l => begin (l :: out) c
  | .number chars =>
    if isNumberChar c then some (.number (c :: chars), out)
    else
      match readNumber chars.reverse with
      | none => none
      | some l => begin (l :: out) c
  | .string t => stepString t out c
  | .escape t =>
    if c = 'u' then some (.unit t 4 0, out)
    else (readEscape c).map fun d => (.string (t.push d), out)
  | .unit t missing value =>
    match hexValue c with
    | none => none
    | some digit =>
      let value := 16 * value + digit
      if missing ≤ 1 then some (.string (t.pushUnit value), out)
      else some (.unit t (missing - 1) value, out)

/-- The lexemes at the end of the text, the last one first. A lexeme may end here unless it
is a string. -/
def finish (state : State) (out : List Lexeme) : Option (List Lexeme) :=
  match state with
  | .between => some out
  | .word letters => (readWord letters.reverse).map (· :: out)
  | .number chars => (readNumber chars.reverse).map (· :: out)
  | .string _ | .escape _ | .unit _ _ _ => none

def scan (state : State) (out : List Lexeme) : List Char → Option (List Lexeme)
  | [] => finish state out
  | c :: rest =>
    match step state out c with
    | none => none
    | some (state, out) => scan state out rest

def lexemes? (text : String) : Option (List Lexeme) :=
  (scan .between [] text.toList).map List.reverse

end ModalLex.Json

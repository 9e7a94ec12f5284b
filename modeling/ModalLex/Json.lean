import ModalLex.Json.Lexeme

/-!
# JSON values

Values are built from lexemes by a machine with a stack of open arrays and objects, so that
nesting has no limit. Members of an object keep their order and may repeat a key; what that
means is for the reader of the object to say.
-/
namespace ModalLex

inductive Json where
  | null
  | bool (value : Bool)
  /-- A number, with its value if it is written as an integer. -/
  | number (value : Option Int)
  /-- A string, with its text unless an escape names half of a surrogate pair. -/
  | string (text : Option String)
  | array (items : List Json)
  | object (members : List (Option String × Json))
  deriving Repr

namespace Json

/-- An open array or object with what was read of it, the last part first. -/
inductive Frame where
  | array (items : List Json)
  /-- An object before a key. -/
  | object (members : List (Option String × Json))
  /-- An object after a key. -/
  | member (members : List (Option String × Json)) (key : Option String)
  deriving Repr

/-- What has to come next. -/
inductive Need where
  | value
  /-- A value, or the end of an array that has just been opened. -/
  | firstItem
  | key
  /-- A key, or the end of an object that has just been opened. -/
  | firstKey
  | colon
  /-- A comma, or the end of what was opened last. -/
  | separator
  /-- Nothing: this is the value of the text. -/
  | done (value : Json)
  deriving Repr

/-- What the machine has open, the innermost first, and what it needs. -/
structure Builder where
  frames : List Frame
  need : Need

namespace Builder

def initial : Builder := ⟨[], .value⟩

/-- Put a finished value where it belongs. -/
def deliver (value : Json) : List Frame → Option Builder
  | [] => some ⟨[], .done value⟩
  | .array items :: frames => some ⟨.array (value :: items) :: frames, .separator⟩
  | .member members key :: frames =>
    some ⟨.object ((key, value) :: members) :: frames, .separator⟩
  | .object _ :: _ => none

/-- Close what was opened last with the mark `l`. -/
def close (frames : List Frame) (l : Lexeme) : Option Builder :=
  match l, frames with
  | .closeArray, .array items :: frames => deliver (.array items.reverse) frames
  | .closeObject, .object members :: frames => deliver (.object members.reverse) frames
  | _, _ => none

/-- Begin a value with the lexeme `l`. -/
def beginValue (frames : List Frame) (l : Lexeme) : Option Builder :=
  match l with
  | .null => deliver .null frames
  | .bool b => deliver (.bool b) frames
  | .number n => deliver (.number n) frames
  | .string s => deliver (.string s) frames
  | .openArray => some ⟨.array [] :: frames, .firstItem⟩
  | .openObject => some ⟨.object [] :: frames, .firstKey⟩
  | .closeArray | .closeObject | .comma | .colon => none

def readKey (frames : List Frame) (l : Lexeme) : Option Builder :=
  match l, frames with
  | .string key, .object members :: frames => some ⟨.member members key :: frames, .colon⟩
  | _, _ => none

def step (b : Builder) (l : Lexeme) : Option Builder :=
  match b.need with
  | .value => beginValue b.frames l
  | .firstItem => if l = .closeArray then close b.frames l else beginValue b.frames l
  | .key => readKey b.frames l
  | .firstKey => if l = .closeObject then close b.frames l else readKey b.frames l
  | .colon => if l = .colon then some { b with need := .value } else none
  | .separator =>
    if l = .comma then
      match b.frames with
      | .array _ :: _ => some { b with need := .value }
      | .object _ :: _ => some { b with need := .key }
      | _ => none
    else close b.frames l
  | .done _ => none

def run (b : Builder) : List Lexeme → Option Builder
  | [] => some b
  | l :: rest =>
    match b.step l with
    | none => none
    | some b => run b rest

end Builder

/-- The value that lexemes spell, if they spell exactly one. -/
def ofLexemes? (ls : List Lexeme) : Option Json :=
  match Builder.initial.run ls with
  | some ⟨_, .done value⟩ => some value
  | _ => none

def parse? (text : String) : Option Json :=
  match lexemes? text with
  | none => none
  | some ls => ofLexemes? ls

end Json

end ModalLex

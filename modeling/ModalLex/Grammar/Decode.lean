import ModalLex.Json
import ModalLex.Grammar.Compile

/-!
# Grammars in JSON

A record is an object of its fields or an array of them in order. In an object, members with
other keys are ignored; in an array, fields with a default may be missing at the end. What
is ignored may nest without limit, and the rest at most `maxNesting` deep.
-/
namespace ModalLex

/-- How deep the arrays and objects of a specification may nest. -/
def maxNesting : Nat := 127

namespace Json

/-- The value of a key; no key may be repeated. -/
def member? (key : String) (members : List (Option String × Json)) :
    Option (Option Json) :=
  match members.filter fun m => m.1 = some key with
  | [] => some none
  | [m] => some (some m.2)
  | _ => none

/-- The fields of a record in order, with nothing for one that is missing. -/
def fields? (names : List String) : Json → Option (List (Option Json))
  | .array items =>
    if items.length ≤ names.length then
      some (items.map some ++ List.replicate (names.length - items.length) none)
    else none
  | .object members =>
    if members.all fun m => m.1.isSome then names.mapM fun name => member? name members
    else none
  | _ => none

def text? : Json → Option String
  | .string text => text
  | _ => none

def bool? : Json → Option Bool
  | .bool b => some b
  | _ => none

def integer? (lo hi : Int) : Json → Option Int
  | .number (some n) => if lo ≤ n ∧ n ≤ hi then some n else none
  | _ => none

def int32? (v : Json) : Option Int32 :=
  (v.integer? Int32.minValue.toInt Int32.maxValue.toInt).map Int32.ofInt

def uint32? (v : Json) : Option UInt32 :=
  (v.integer? 0 (UInt32.size - 1)).map fun n => UInt32.ofNat n.toNat

def uint64? (v : Json) : Option UInt64 :=
  (v.integer? 0 (UInt64.size - 1)).map fun n => UInt64.ofNat n.toNat

/-- What `read` makes of a value, or nothing where the value is `null`. -/
def nullable? {α : Type} (read : Json → Option α) : Json → Option (Option α)
  | .null => some none
  | v => (read v).map some

/-- What `read` makes of a field, or the default where it is missing. -/
def orDefault? {α : Type} (read : Json → Option α) (default : α) :
    Option Json → Option α
  | none => some default
  | some v => read v

/-- An array whose items `read` reads, one level deeper. -/
def items? {α : Type} (read : (levels : Nat) → Json → Option α) :
    (levels : Nat) → Json → Option (List α)
  | levels + 1, .array items => items.mapM (read levels)
  | _, _ => none

end Json

open Json

def SetSpec.ofJson? : (levels : Nat) → Json → Option SetSpec
  | 0, _ => none
  | _ + 1, v => do
    let [some chars, negated, min, max] ← v.fields? ["chars", "negated", "min", "max"] | none
    let chars ← chars.text?
    let negated ← orDefault? bool? false negated
    let min ← orDefault? uint64? 1 min
    let max ← orDefault? (nullable? uint64?) none max
    return ⟨chars, negated, min, max⟩

/-- A pattern is an object with one member, whose key says what the pattern is. -/
def PatternSpec.ofJson? : (levels : Nat) → Json → Option PatternSpec
  | 0, _ => none
  | levels + 1, v =>
    match v with
    | .object [(some key, v)] =>
      if key = "literal" then v.text?.map .literal
      else if key = "set" then (SetSpec.ofJson? levels v).map .set
      else if key = "seq" then
        match levels, v with
        | levels + 1, .array parts => (parts.mapM (PatternSpec.ofJson? levels)).map .seq
        | _, _ => none
      else none
    | _ => none

def ActionSpec.ofName? (name : String) : Option ActionSpec :=
  if name = "skip" then some .skip
  else if name = "more" then some .more
  else if name = "pop_mode" then some .popMode
  else none

def ActionSpec.ofMember? (key : String) (v : Json) : Option ActionSpec :=
  if key = "type" then v.int32?.map fun n => .kind ⟨n⟩
  else if key = "channel" then v.uint32?.map fun n => .channel ⟨n⟩
  else if key = "text" then v.text?.map .text
  else if key = "push_mode" then v.text?.map .pushMode
  else if key = "mode" then v.text?.map .mode
  else
    match v with
    | .null => ofName? key
    | _ => none

/-- An action is a name, or an object with one member. -/
def ActionSpec.ofJson? : (levels : Nat) → Json → Option ActionSpec
  | _, .string (some name) => ofName? name
  | _ + 1, .object [(some key, v)] => ofMember? key v
  | _, _ => none

def RuleSpec.ofJson? : (levels : Nat) → Json → Option RuleSpec
  | 0, _ => none
  | levels + 1, v => do
    let [some name, kind, some pattern, actions] ←
      v.fields? ["name", "type", "pattern", "actions"] | none
    let name ← name.text?
    let kind ← orDefault? (nullable? int32?) none kind
    let pattern ← PatternSpec.ofJson? levels pattern
    let actions ← orDefault? (items? ActionSpec.ofJson? levels) [] actions
    return ⟨name, kind.map TokenKind.mk, pattern, actions⟩

def ModeSpec.ofJson? : (levels : Nat) → Json → Option ModeSpec
  | 0, _ => none
  | levels + 1, v => do
    let [some name, rules] ← v.fields? ["name", "rules"] | none
    let name ← name.text?
    let rules ← orDefault? (items? RuleSpec.ofJson? levels) [] rules
    return ⟨name, rules⟩

def GrammarSpec.ofJson? : (levels : Nat) → Json → Option GrammarSpec
  | 0, _ => none
  | levels + 1, v => do
    let [some name, some modes] ← v.fields? ["name", "modes"] | none
    let name ← name.text?
    let modes ← items? ModeSpec.ofJson? levels modes
    return ⟨name, modes⟩

def GrammarSpec.ofText? (text : String) : Option GrammarSpec :=
  (Json.parse? text).bind (GrammarSpec.ofJson? maxNesting)

/-- The grammar that a text spells, or why there is none. -/
def Grammar.ofText (text : String) : Except GrammarError Grammar :=
  match GrammarSpec.ofText? text with
  | none => .error .json
  | some spec => spec.compile

end ModalLex

import ModalLex.Grammar

/-!
# Grammars as their authors write them

A specification names modes by name and describes sets by text. It is checked and turned
into a grammar by `GrammarSpec.compile`.
-/
namespace ModalLex

/-- A set, repeated between `min` and `max` times; without `max`, as often as it can be. The counts
are machine words of 64 bits. Where a machine word has 32 bits, as in a browser, a grammar is refused
if a count in its text is larger. -/
structure SetSpec where
  chars : String
  negated : Bool
  min : UInt64
  max : Option UInt64
  deriving DecidableEq, Repr

inductive PatternSpec where
  | literal (text : String)
  | set (set : SetSpec)
  | seq (parts : List PatternSpec)
  deriving Repr

namespace PatternSpec

/-- Members of a set, between `min` and `max` of them. -/
def repeated (chars : String) (negated : Bool) (min : UInt64) (max : Option UInt64) :
    PatternSpec :=
  .set ⟨chars, negated, min, max⟩

def oneOrMore (chars : String) : PatternSpec := repeated chars false 1 none

def noneOf (chars : String) : PatternSpec := repeated chars true 1 none

def oneOf (chars : String) : PatternSpec := repeated chars false 1 (some 1)

end PatternSpec

/-- An action of a rule, with modes by name. -/
inductive ActionSpec where
  | skip
  | more
  | popMode
  | kind (kind : TokenKind)
  | channel (channel : Channel)
  | text (text : String)
  | pushMode (mode : String)
  | mode (mode : String)
  deriving DecidableEq, Repr

structure RuleSpec where
  name : String
  kind : Option TokenKind
  pattern : PatternSpec
  actions : List ActionSpec
  deriving Repr

namespace RuleSpec

/-- A rule with a kind of its own. -/
def token (name : String) (kind : TokenKind) (pattern : PatternSpec) : RuleSpec :=
  ⟨name, some kind, pattern, []⟩

/-- A rule without a kind, whose actions skip or go on. -/
def fragment (name : String) (pattern : PatternSpec) : RuleSpec :=
  ⟨name, none, pattern, []⟩

def withAction (r : RuleSpec) (a : ActionSpec) : RuleSpec :=
  { r with actions := r.actions ++ [a] }

end RuleSpec

structure ModeSpec where
  name : String
  rules : List RuleSpec
  deriving Repr

structure GrammarSpec where
  name : String
  modes : List ModeSpec
  deriving Repr

namespace GrammarSpec

def empty (name : String) : GrammarSpec := ⟨name, []⟩

/-- Declare a mode; the rules added next belong to it. -/
def addMode (g : GrammarSpec) (name : String) : GrammarSpec :=
  { g with modes := g.modes ++ [⟨name, []⟩] }

/-- Add a rule to the last of the modes, declaring a mode `DEFAULT` if there is none. -/
def addRule (g : GrammarSpec) (rule : RuleSpec) : GrammarSpec :=
  match g.modes.getLast? with
  | none => { g with modes := [⟨"DEFAULT", [rule]⟩] }
  | some last =>
    { g with modes := g.modes.dropLast ++ [{ last with rules := last.rules ++ [rule] }] }

end GrammarSpec

end ModalLex

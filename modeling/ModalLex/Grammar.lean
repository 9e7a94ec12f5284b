import ModalLex.Pattern
import ModalLex.Context

/-!
# Grammars

A grammar is a list of modes, each an ordered list of rules; the first mode is the one that
lexing starts in. A rule is a pattern, a kind of token, and actions that run when the
pattern has matched.
-/
namespace ModalLex

inductive Action where
  | skip
  | more
  | popMode
  | kind (kind : TokenKind)
  | channel (channel : Channel)
  | text (text : String)
  | pushMode (mode : ModeId)
  | mode (mode : ModeId)
  deriving DecidableEq, Repr

namespace Action

def apply (c : Context) : Action → Except LexError Unit × Context
  | .skip => (.ok (), c.skip)
  | .more => (.ok (), c.more)
  | .popMode =>
    let (r, c) := c.popMode
    (r.map fun _ => (), c)
  | .kind k => (.ok (), c.setKind k)
  | .channel ch => (.ok (), c.setChannel ch)
  | .text t => (.ok (), c.setText t)
  | .pushMode m => (.ok (), c.pushMode m)
  | .mode m => (.ok (), c.setMode m)

/-- Run actions in order up to the first that fails. What the ones before it did stays. -/
def applyAll (c : Context) : List Action → Except LexError Unit × Context
  | [] => (.ok (), c)
  | a :: rest =>
    match apply c a with
    | (.error e, c) => (.error e, c)
    | (.ok (), c) => applyAll c rest

end Action

/-- A rule. Without a kind of its own, its actions say what becomes of a match. -/
structure Rule where
  name : String
  kind : Option TokenKind
  pattern : Pattern
  actions : List Action
  deriving Repr

/-- A mode: rules in order of priority. -/
structure Mode where
  name : String
  rules : List Rule
  deriving Repr

/-- The names of token kinds by their code; a kind without a name has an empty one. -/
structure KindNames where
  slots : Array String
  deriving DecidableEq, Repr

namespace KindNames

/-- The names before any rule: kind 0 is none that a rule may have. -/
def initial : KindNames := ⟨#["<INVALID>"]⟩

/-- Name the kind of a rule after it, unless the kind has a name already. -/
def addRule (names : KindNames) (rule : Rule) : KindNames :=
  match rule.kind with
  | none => names
  | some kind =>
    let slot := kind.code.toInt.toNat
    let slots := names.slots ++ List.replicate (slot + 1 - names.slots.size) ""
    if slots[slot]? = some "" then ⟨slots.setIfInBounds slot rule.name⟩ else ⟨slots⟩

def name? (names : KindNames) (kind : TokenKind) : Option String :=
  if kind = .eof then some "EOF"
  else if kind.code.toInt < 0 then none
  else
    match names.slots[kind.code.toInt.toNat]? with
    | none => none
    | some name => if name = "" then none else some name

end KindNames

/-- A grammar ready for use: modes are named by their places. -/
structure Grammar where
  name : String
  modes : List Mode
  deriving Repr

namespace Grammar

def mode? (g : Grammar) (id : ModeId) : Option Mode := g.modes[id.index]?

def modeNames (g : Grammar) : List String := g.modes.map Mode.name

/-- The id of a mode by its name: its place, among at most 2^32 modes. -/
def modeId? (g : Grammar) (name : String) : Option ModeId :=
  (g.modeNames.idxOf? name).map ModeId.mk

/-- The rules of all modes, in the order of their declaration. -/
def rules (g : Grammar) : List Rule := g.modes.flatMap Mode.rules

def kindNames (g : Grammar) : KindNames := g.rules.foldl KindNames.addRule .initial

end Grammar

end ModalLex

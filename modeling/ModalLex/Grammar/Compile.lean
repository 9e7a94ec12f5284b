import ModalLex.Grammar.Spec

/-!
# From a specification to a grammar

Modes are checked first, then the rules in the order of their declaration. Of a rule the
modes that its actions name are checked first, then its kind, then the sets of its pattern
from the left. The first violation is the answer.
-/
namespace ModalLex

inductive GrammarError where
  /-- The text is not JSON, or not that of a specification. What is wrong with it, and at which line
  and column, is not kept, so that the message ends after its colon. -/
  | json
  | noModes
  | duplicateMode (name : String)
  | unknownMode (rule mode : String)
  /-- A rule with no kind whose actions do not say what becomes of a match. -/
  | missingKind (rule : String)
  /-- A rule with a kind below `TokenKind.minUser`. -/
  | reservedKind (rule : String) (kind : TokenKind)
  | invalidSet (description : String) (cause : CharSetError)
  deriving DecidableEq, Repr

def GrammarError.message : GrammarError → String
  | .json => "invalid grammar JSON: "
  | .noModes => "grammar declares no modes"
  | .duplicateMode name => s!"mode `{name}` is declared twice"
  | .unknownMode rule mode => s!"rule `{rule}` refers to unknown mode `{mode}`"
  | .missingKind rule => s!"rule `{rule}` has no token type and neither skips nor continues"
  | .reservedKind rule kind => s!"rule `{rule}` uses reserved token type {kind.code.toInt}"
  | .invalidSet description cause =>
    s!"invalid character set `{description}`: {cause.message}"

mutual

def PatternSpec.compile : PatternSpec → Except GrammarError Pattern
  | .literal text => .ok (.literal text.toList)
  | .set spec =>
    match CharSet.parse spec.chars spec.negated with
    | .error cause => .error (.invalidSet spec.chars cause)
    | .ok members => .ok (.set members spec.min.toNat (spec.max.map UInt64.toNat))
  | .seq parts => (PatternSpec.compileAll parts).map .seq

/-- The patterns of specifications, or the error of the first that has none. -/
def PatternSpec.compileAll : List PatternSpec → Except GrammarError (List Pattern)
  | [] => .ok []
  | p :: rest =>
    match p.compile with
    | .error e => .error e
    | .ok p => (PatternSpec.compileAll rest).map (p :: ·)

end

/-- The place of a mode that a rule names; it fits an id among at most 2^32 modes. -/
def resolveMode (modes : List String) (rule mode : String) : Except GrammarError ModeId :=
  match modes.idxOf? mode with
  | none => .error (.unknownMode rule mode)
  | some index => .ok ⟨index⟩

/-- The action of a specification, in a grammar with these modes. -/
def ActionSpec.compile (modes : List String) (rule : String) :
    ActionSpec → Except GrammarError Action
  | .skip => .ok .skip
  | .more => .ok .more
  | .popMode => .ok .popMode
  | .kind k => .ok (.kind k)
  | .channel ch => .ok (.channel ch)
  | .text t => .ok (.text t)
  | .pushMode m => (resolveMode modes rule m).map .pushMode
  | .mode m => (resolveMode modes rule m).map .mode

def ActionSpec.settles : ActionSpec → Bool
  | .skip | .more | .kind _ => true
  | .popMode | .channel _ | .text _ | .pushMode _ | .mode _ => false

namespace RuleSpec

/-- A rule has a kind from `TokenKind.minUser` on, or none and an action that settles. -/
def checkKind (r : RuleSpec) : Except GrammarError Unit :=
  match r.kind with
  | none => if r.actions.any ActionSpec.settles then .ok () else .error (.missingKind r.name)
  | some kind =>
    if kind.code < TokenKind.minUser.code then .error (.reservedKind r.name kind) else .ok ()

/-- The rule of a specification, in a grammar with these modes. -/
def compile (modes : List String) (r : RuleSpec) : Except GrammarError Rule := do
  let actions ← r.actions.mapM (ActionSpec.compile modes r.name)
  r.checkKind
  let pattern ← r.pattern.compile
  return ⟨r.name, r.kind, pattern, actions⟩

end RuleSpec

def ModeSpec.compile (modes : List String) (m : ModeSpec) : Except GrammarError Mode := do
  let rules ← m.rules.mapM (RuleSpec.compile modes)
  return ⟨m.name, rules⟩

/-- The first name that stands among `seen` or earlier in the list. -/
def firstRepeated? (seen : List String) : List String → Option String
  | [] => none
  | name :: rest =>
    if seen.contains name then some name else firstRepeated? (name :: seen) rest

/-- The grammar of a specification, or the first violation. -/
def GrammarSpec.compile (g : GrammarSpec) : Except GrammarError Grammar :=
  let names := g.modes.map ModeSpec.name
  if g.modes.isEmpty then .error .noModes
  else
    match firstRepeated? [] names with
    | some name => .error (.duplicateMode name)
    | none => do
      let modes ← g.modes.mapM (ModeSpec.compile names)
      return ⟨g.name, modes⟩

end ModalLex

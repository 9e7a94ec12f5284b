import ModalLex.Tokenization
import ModalLex.Grammar.Decode
import ModalLex.Command.Calculator

/-!
# The commands of the command line

A command reads a grammar and, except for the listing of the grammar, a source file. What it
prints and its exit code are a function of the invocation and of the files.
-/
namespace ModalLex

/-- What the command line is asked to do. -/
inductive Command where
  /-- Print the tokens of a file, those on other channels only with `all`. -/
  | tokens (path : String) (all : Bool)
  | check (path : String)
  | grammar
  deriving DecidableEq, Repr

/-- A command and the grammar file to use instead of the calculator grammar. -/
structure Invocation where
  command : Command
  grammarPath : Option String
  deriving DecidableEq, Repr

inductive FileContent where
  | missing
  | unreadable (reason : String)
  | bytes (content : ByteArray)

structure CommandResult where
  code : UInt32
  stdout : String
  stderr : String
  deriving DecidableEq, Repr

namespace Command

/-- Each line with its end. -/
def unlines (lines : List String) : String := String.join (lines.map (· ++ "\n"))

def failure (lines : List String) : CommandResult := ⟨1, "", unlines lines⟩

/-- The text of a file, or the line that reports why there is none. -/
def readText (path : String) : FileContent → Except String String
  | .missing => .error s!"Error: file not found: {path}"
  | .unreadable reason => .error s!"Error reading {path}: {reason}"
  | .bytes content =>
    match String.fromUTF8? content with
    | none => .error s!"Error reading {path}: stream did not contain valid UTF-8"
    | some text => .ok text

/-- The grammar to use, or the line that reports why there is none. -/
def loadGrammar (files : String → FileContent) : Option String → Except String Grammar
  | none =>
    match Calculator.spec.compile with
    | .ok g => .ok g
    | .error e => .error s!"Grammar error in <bundled calc>: {e.message}"
  | some path =>
    match readText path (files path) with
    | .error line => .error line
    | .ok text =>
      match Grammar.ofText text with
      | .ok g => .ok g
      | .error e => .error s!"Grammar error in {path}: {e.message}"

def padRight (width : Nat) (text : String) : String :=
  text ++ String.ofList (List.replicate (width - text.length) ' ')

def padLeft (width : Nat) (text : String) : String :=
  String.ofList (List.replicate (width - text.length) ' ') ++ text

def tokenLine (names : KindNames) (t : Token) : String :=
  padRight 14 ((names.name? t.kind).getD "?") ++ " " ++ t.display

/-- A diagnostic after the file and the place it is about. -/
def diagnosticLine (d : Diagnostic) : String :=
  s!"{d.sourceName}:{d.line}:{d.column}: {d.message}"

def numberedLine (number : Nat) (name : String) : String :=
  "  " ++ padLeft 3 (toString number) ++ " " ++ name

/-- Lex a file and print what `print` makes of its tokens and diagnostics. -/
def withTokens (g : Grammar) (files : String → FileContent) (path : String)
    (print : List Token → List Diagnostic → CommandResult) : CommandResult :=
  match readText path (files path) with
  | .error line => failure [line]
  | .ok source =>
    match lexText g source path with
    | (.error e, diagnostics) =>
      failure (diagnostics.map diagnosticLine ++ [s!"Lexer error: {e.message}"])
    | (.ok ts, diagnostics) => print ts diagnostics

def runTokens (g : Grammar) (all : Bool) (tokens : List Token)
    (diagnostics : List Diagnostic) : CommandResult where
  code := if diagnostics.isEmpty then 0 else 1
  stdout :=
    let printed := tokens.filter fun t => all || t.channel = .default
    let names := g.kindNames
    unlines (printed.map (tokenLine names))
  stderr := unlines (diagnostics.map diagnosticLine)

/-- The malformed input of a file, or the number of its tokens. -/
def runCheck (path : String) (tokens : List Token) (diagnostics : List Diagnostic) :
    CommandResult :=
  if diagnostics.isEmpty then ⟨0, "", s!"OK: {path} ({tokens.length} tokens)\n"⟩
  else
    failure (diagnostics.map diagnosticLine
      ++ [s!"{path}: {diagnostics.length} recognition error(s)"])

def runGrammar (g : Grammar) : CommandResult :=
  let modes := g.modeNames.zipIdx.map fun (name, i) => numberedLine i name
  let kinds := (g.kindNames.slots.toList.zipIdx.drop 1).filter fun (name, _) => name ≠ ""
  let lines := [s!"grammar {g.name}", "modes:"] ++ modes ++ ["tokens:"]
    ++ kinds.map fun (name, i) => numberedLine i name
  ⟨0, unlines lines, ""⟩

end Command

def Invocation.run (i : Invocation) (files : String → FileContent) : CommandResult :=
  match Command.loadGrammar files i.grammarPath with
  | .error line => Command.failure [line]
  | .ok g =>
    match i.command with
    | .tokens path all => Command.withTokens g files path (Command.runTokens g all)
    | .check path => Command.withTokens g files path (Command.runCheck path)
    | .grammar => Command.runGrammar g

end ModalLex

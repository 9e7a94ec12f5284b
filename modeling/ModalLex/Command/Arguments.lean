import ModalLex.Command

/-!
# Arguments of the command line

A command comes with its path; options may stand anywhere.
-/
namespace ModalLex

/-- What was understood of the arguments so far. -/
structure Arguments where
  /-- Words that are no options, in order. -/
  words : List String
  grammarPath : Option String
  all : Bool
  deriving DecidableEq, Repr

namespace Arguments

/-- Whether an argument is `--verbose` or `-v`, `-vv` and so on, which change no output. -/
def isVerbose (arg : String) : Bool :=
  arg = "--verbose" ||
    match arg.toList with
    | '-' :: 'v' :: rest => rest.all (· = 'v')
    | _ => false

/-- Read arguments from the left, or refuse an unknown option. -/
def read (a : Arguments) : List String → Option Arguments
  | [] => some a
  | "--grammar" :: path :: rest => read { a with grammarPath := some path } rest
  | "-g" :: path :: rest => read { a with grammarPath := some path } rest
  | "--all" :: rest => read { a with all := true } rest
  | arg :: rest =>
    if isVerbose arg then read a rest
    else if arg.startsWith "-" then none
    else read { a with words := a.words ++ [arg] } rest

end Arguments

def Invocation.ofArguments? (args : List String) : Option Invocation :=
  match Arguments.read ⟨[], none, false⟩ args with
  | some ⟨["tokens", path], grammarPath, all⟩ => some ⟨.tokens path all, grammarPath⟩
  | some ⟨["check", path], grammarPath, false⟩ => some ⟨.check path, grammarPath⟩
  | some ⟨["grammar"], grammarPath, false⟩ => some ⟨.grammar, grammarPath⟩
  | _ => none

def Invocation.paths (i : Invocation) : List String :=
  let source := match i.command with
    | .tokens path _ => [path]
    | .check path => [path]
    | .grammar => []
  i.grammarPath.toList ++ source

def usage : String :=
  "usage: modallex [--grammar FILE] tokens FILE [--all] | check FILE | grammar\n"

end ModalLex

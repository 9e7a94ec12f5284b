import ModalLex.Command.Arguments

/-!
# The command line

Reads the files that an invocation names, runs it, and prints what it leaves behind.
-/
namespace ModalLex

def readFile (path : String) : IO FileContent := do
  try
    return .bytes (← IO.FS.readBinFile path)
  catch
    | .noFileOrDirectory .. => return .missing
    | error => return .unreadable (toString error)

def readFiles (paths : List String) : IO (String → FileContent) := do
  let contents ← paths.mapM fun path => do return (path, ← readFile path)
  return fun path => (contents.lookup path).getD .missing

end ModalLex

open ModalLex in
def main (args : List String) : IO UInt32 := do
  match Invocation.ofArguments? args with
  | none =>
    (← IO.getStderr).putStr usage
    return 2
  | some invocation =>
    let result := invocation.run (← readFiles invocation.paths)
    (← IO.getStdout).putStr result.stdout
    (← IO.getStderr).putStr result.stderr
    return result.code

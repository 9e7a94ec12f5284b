/-!
# Characters as reports show them

Line breaks and tabs are written as escapes, so that a report stays on one line; every
other character stands for itself, and end of input has a name of its own.
-/
namespace ModalLex

/-- A character as a report shows it. -/
def shown : Char → List Char
  | '\n' => ['\\', 'n']
  | '\t' => ['\\', 't']
  | '\r' => ['\\', 'r']
  | c => [c]

/-- A text as a report shows it, character by character. -/
def showText (text : String) : String :=
  String.ofList (text.toList.flatMap shown)

/-- A character, or end of input, as a report shows it. -/
def showCharOrEof : Option Char → String
  | none => "<EOF>"
  | some c => String.ofList (shown c)

/-- A character, or end of input, between quotes, for use inside a sentence. -/
def quoteCharOrEof (c : Option Char) : String :=
  "'" ++ showCharOrEof c ++ "'"

end ModalLex

import ModalLex.Quoted.Invisible

/-!
# Quoted characters

A character between single quotes, written so that it can be told from every other one: the
usual escapes, and the code point in hexadecimal for what has no visible form.
-/
namespace ModalLex

def codePointEscape (c : Char) : String :=
  "\\u\x7b" ++ String.ofList (Nat.toDigits 16 c.toNat) ++ "\x7d"

def quotedBody (c : Char) : String :=
  match c with
  | '\x00' => "\\0"
  | '\t' => "\\t"
  | '\r' => "\\r"
  | '\n' => "\\n"
  | '\'' => "\\'"
  | '\\' => "\\\\"
  | c => if isInvisible c then codePointEscape c else String.ofList [c]

def quoted (c : Char) : String := "'" ++ quotedBody c ++ "'"

end ModalLex

import ModalLex.Grammar.Spec

/-!
# The calculator grammar

The grammar that the command line uses when it is given none: numbers, names and operators,
strings in a mode of their own, and comments on the hidden channel.
-/
namespace ModalLex.Calculator

def literalRule (name : String) (code : Int32) (text : String) : RuleSpec :=
  .token name ⟨code⟩ (.literal text)

def identifier : RuleSpec :=
  .token "ID" ⟨2⟩ (.seq [.oneOf "a-zA-Z_", .repeated "a-zA-Z_0-9" false 0 none])

def lineComment : RuleSpec :=
  (RuleSpec.token "LINE_COMMENT" ⟨14⟩
    (.seq [.literal "//", .repeated "\\n" true 0 none])).withAction (.channel .hidden)

def commentStart : RuleSpec :=
  ((RuleSpec.fragment "COMMENT_START" (.literal "/*")).withAction .more).withAction
    (.pushMode "COMMENT")

def blanks : RuleSpec :=
  (RuleSpec.fragment "WS" (.oneOrMore " \\t\\r\\n")).withAction .skip

def defaultMode : ModeSpec where
  name := "DEFAULT"
  rules :=
    [.token "INT" ⟨1⟩ (.oneOrMore "0-9"),
      identifier,
      literalRule "PLUS" 3 "+",
      literalRule "MINUS" 4 "-",
      literalRule "STAR" 5 "*",
      literalRule "SLASH" 6 "/",
      literalRule "LPAREN" 7 "(",
      literalRule "RPAREN" 8 ")",
      literalRule "ASSIGN" 9 "=",
      (literalRule "STRING_START" 10 "\"").withAction (.pushMode "STRING"),
      lineComment,
      commentStart,
      blanks]

def stringMode : ModeSpec where
  name := "STRING"
  rules :=
    [.token "STRING_BODY" ⟨11⟩ (.noneOf "\"\\\\\\n"),
      .token "ESCAPE" ⟨12⟩ (.seq [.literal "\\", .repeated "" true 1 (some 1)]),
      (literalRule "STRING_END" 13 "\"").withAction .popMode]

def commentMode : ModeSpec where
  name := "COMMENT"
  rules :=
    [((literalRule "COMMENT" 15 "*/").withAction .popMode).withAction (.channel .hidden),
      (RuleSpec.fragment "COMMENT_STAR" (.literal "*")).withAction .more,
      (RuleSpec.fragment "COMMENT_TEXT" (.noneOf "*")).withAction .more]

def spec : GrammarSpec where
  name := "calc"
  modes := [defaultMode, stringMode, commentMode]

end ModalLex.Calculator

import ModalLex.Command
import ModalLex.Proofs.Lexer.Ascription
import ModalLex.Proofs.Tokenization.Safety
import ModalLex.View

/-!
# The front ends agree

The view and the commands of the command line each lex a text under a source name of their own.
What they show is what tokenizing the text under any name returns: the name of the source reaches
nothing but the name on a token or on a diagnostic.
-/
namespace ModalLex

def Tokenization.ascribed (name : String) (out : Tokenization) : Tokenization where
  tokens := out.tokens.map (Token.ascribed name)
  diagnostics := out.diagnostics.map (Diagnostic.ascribed name)

theorem Tokenization.active_ascribed (g : Grammar) (source name other : String) :
    ((active g source name).ascribed other).onto (TextStream.ofString source other) =
      active g source other := by
  have hlog : Log.empty.ascribed other = .empty := by
    rw [Log.ascribed, Log.empty, Array.map_empty]
  have hlisteners : (lexer g source name).listeners.ascribed other =
      (lexer g source other).listeners :=
    congrArg (Listeners.mk [.collector inbox]) hlog
  simp only [ActiveLexer.ascribed, ActiveLexer.onto, active, hlisteners]
  rfl

/-- A text is lexed alike under any source name, also where it ends in an error: the tokens and the
diagnostics are the same but for the name that they bear. -/
theorem lexText_ascribed (g : Grammar) (source name other : String) :
    lexText g source other =
      ((lexText g source name).1.map (List.map (Token.ascribed other)),
        (lexText g source name).2.map (Diagnostic.ascribed other)) := by
  have hidle := Tokenization.idle_active g source name
  have hbeside : ActiveLexer.Beside source.toList (Tokenization.active g source name)
      (TextStream.ofString source other) :=
    ⟨hidle.rests, TextStream.rests_ofString source other, rfl, rfl⟩
  have hblind : (Tokenization.active g source name).listeners.Blind :=
    List.forall_mem_singleton.mpr (Listener.blind_collector Tokenization.inbox)
  obtain ⟨hanswer, hlisteners⟩ := Tokens.drain_ascribed other hidle hbeside hblind
    (Tokenization.lexer g source name).patience
  rw [Tokenization.active_ascribed] at hanswer hlisteners
  have htokens (n : String) : (Tokenization.lexer g source n).tokens =
      ⟨(Tokenization.active g source n).toLexer, false⟩ := rfl
  have hpatience : (Tokenization.lexer g source other).patience =
      (Tokenization.lexer g source name).patience := rfl
  rw [lexText, lexText, Lexer.allTokens, Lexer.allTokens, htokens, htokens, hpatience]
  dsimp only
  rw [hanswer, hlisteners, Listeners.ascribed, Log.received_ascribed]

theorem tokenize_ascribed (g : Grammar) (source name other : String) :
    tokenize g source other = (tokenize g source name).map (Tokenization.ascribed other) := by
  rw [tokenize, tokenize, lexText_ascribed g source name other]
  rcases lexText g source name with ⟨e | tokens, diagnostics⟩ <;> rfl

/-- The plain record of a token under these kind names. -/
structure TokenView.Shows (names : KindNames) (t : Token) (v : TokenView) : Prop where
  kind_eq : v.kind = t.kind
  name_eq : v.name = (names.name? t.kind).getD ""
  text_eq : v.text = t.text
  channel_eq : v.channel = t.channel
  start_eq : v.start = t.span.start
  stop_eq : v.stop = t.span.stop
  line_eq : v.line = t.span.line
  column_eq : v.column = t.span.column

structure DiagnosticView.Shows (d : Diagnostic) (v : DiagnosticView) : Prop where
  line_eq : v.line = d.line
  column_eq : v.column = d.column
  message_eq : v.message = d.message

/-- The view of a source against its tokens under the source name `name`. -/
structure ViewAgrees (grammarText source name : String) : Prop where
  succeeds_iff : (∃ view, viewTokens grammarText source = .ok view) ↔
    ∃ g out, Grammar.ofText grammarText = .ok g ∧ tokenize g source name = .ok out
  grammar_error : ∀ e, Grammar.ofText grammarText = .error e →
    viewTokens grammarText source = .error e.message
  lex_error : ∀ g e, Grammar.ofText grammarText = .ok g → tokenize g source name = .error e →
    viewTokens grammarText source = .error e.message
  /-- One record per token and per diagnostic, in their order. -/
  records : ∀ g out, Grammar.ofText grammarText = .ok g → tokenize g source name = .ok out →
    ∃ tokens diagnostics, viewTokens grammarText source = .ok (tokens, diagnostics) ∧
      List.Forall₂ (TokenView.Shows g.kindNames) out.tokens tokens ∧
      List.Forall₂ DiagnosticView.Shows out.diagnostics diagnostics

theorem viewTokens_of_ok {grammarText : String} {g : Grammar}
    (hg : Grammar.ofText grammarText = .ok g) (source name : String) :
    viewTokens grammarText source =
      match tokenize g source name with
      | .error e => .error e.message
      | .ok out => .ok (out.tokens.map (TokenView.ofToken g.kindNames),
          out.diagnostics.map DiagnosticView.ofDiagnostic) := by
  simp only [viewTokens, hg, tokenize_ascribed g source name "<input>"]
  cases tokenize g source name with
  | error e => rfl
  | ok out =>
    simp only [Except.map, Tokenization.ascribed, List.map_map]
    rfl

theorem view_agrees (grammarText source name : String) : ViewAgrees grammarText source name where
  succeeds_iff := by
    cases hg : Grammar.ofText grammarText with
    | error e => simp [viewTokens, hg]
    | ok g =>
      rw [viewTokens_of_ok hg source name]
      cases ht : tokenize g source name <;> simp [ht]
  grammar_error e he := by simp only [viewTokens, he]
  lex_error g e hg he := by rw [viewTokens_of_ok hg source name, he]
  records g out hg hout := by
    refine ⟨_, _, by rw [viewTokens_of_ok hg source name, hout], ?_, ?_⟩
    · rw [List.forall₂_map_right_iff, List.forall₂_same]
      exact fun t _ => ⟨rfl, rfl, rfl, rfl, rfl, rfl, rfl, rfl⟩
    · rw [List.forall₂_map_right_iff, List.forall₂_same]
      exact fun d _ => ⟨rfl, rfl, rfl⟩

namespace Command

/-- The commands that lex a file. -/
def lexing (path : String) : List Command := [.tokens path true, .tokens path false, .check path]

/-- The lines that report diagnostics on a file. -/
def reportLines (path : String) (ds : List Diagnostic) : List String :=
  ds.map fun d => s!"{path}:{d.line}:{d.column}: {d.message}"

/-- What the commands do with a file that holds `source`, against the tokens of the source under
the grammar `g` and the source name `name`. -/
structure Agree (g : Grammar) (source name path : String) (run : Command → CommandResult) :
    Prop where
  failed : ∀ e, tokenize g source name = .error e → ∀ c ∈ lexing path,
    run c = failure (reportLines path (lexText g source name).2 ++
      [s!"Lexer error: {e.message}"])
  /-- Every token is printed with `all`, and those on the default channel without it. -/
  printed : ∀ out, tokenize g source name = .ok out → ∀ all,
    (run (.tokens path all)).stdout = unlines
      ((if all then out.tokens else out.tokens.filter fun t => t.channel = .default).map
        (tokenLine g.kindNames))
  reported : ∀ out, tokenize g source name = .ok out → ∀ all,
    (run (.tokens path all)).stderr = unlines (reportLines path out.diagnostics)
  checked : ∀ out, tokenize g source name = .ok out →
    (run (.check path)).stdout = "" ∧
      (run (.check path)).stderr =
        if out.diagnostics = [] then s!"OK: {path} ({out.tokens.length} tokens)\n"
        else unlines (reportLines path out.diagnostics ++
          [s!"{path}: {out.diagnostics.length} recognition error(s)"])
  exits : ∀ out, tokenize g source name = .ok out → ∀ c ∈ lexing path,
    (run c).code = if out.diagnostics = [] then 0 else 1

variable {files : String → FileContent} {path text : String}

theorem readText_of_bytes (h : files path = .bytes text.toUTF8) :
    readText path (files path) = .ok text := by
  have hutf : String.fromUTF8? text.toUTF8 = some text := dif_pos text.isValidUTF8
  simp only [readText, h, hutf]

theorem loadGrammar_of_bytes (h : files path = .bytes text.toUTF8) :
    loadGrammar files (some path) =
      match Grammar.ofText text with
      | .ok g => .ok g
      | .error e => .error s!"Grammar error in {path}: {e.message}" := by
  cases hg : Grammar.ofText text <;> simp only [loadGrammar, readText_of_bytes h, hg]

theorem withTokens_of_bytes (h : files path = .bytes text.toUTF8) (g : Grammar) (name : String)
    (print : List Token → List Diagnostic → CommandResult) :
    withTokens g files path print =
      match tokenize g text name with
      | .error e => failure (reportLines path (lexText g text name).2 ++
          [s!"Lexer error: {e.message}"])
      | .ok out => print (out.ascribed path).tokens (out.ascribed path).diagnostics := by
  rw [withTokens, readText_of_bytes h, tokenize]
  simp only [lexText_ascribed g text name path]
  rcases lexText g text name with ⟨e | tokens, diagnostics⟩
  · simp only [Except.map, List.map_map]
    rfl
  · rfl

theorem lines_ascribed (path : String) (out : Tokenization) :
    (out.ascribed path).diagnostics.map diagnosticLine = reportLines path out.diagnostics := by
  rw [Tokenization.ascribed, List.map_map]
  rfl

theorem isEmpty_ascribed (path : String) (out : Tokenization) :
    (out.ascribed path).diagnostics.isEmpty = true ↔ out.diagnostics = [] := by
  rw [Tokenization.ascribed, List.isEmpty_map, List.isEmpty_iff]

theorem tokenLines_ascribed (names : KindNames) (all : Bool) (path : String)
    (out : Tokenization) :
    ((out.ascribed path).tokens.filter fun t => all || t.channel = .default).map
        (tokenLine names) =
      (if all then out.tokens else out.tokens.filter fun t => t.channel = .default).map
        (tokenLine names) := by
  cases all with
  | true =>
    have hall : (out.ascribed path).tokens.filter
        (fun t => true || decide (t.channel = .default)) = (out.ascribed path).tokens :=
      List.filter_eq_self.mpr fun _ _ => rfl
    rw [hall, Tokenization.ascribed, List.map_map]
    rfl
  | false =>
    rw [Tokenization.ascribed, List.filter_map, List.map_map]
    rfl

theorem runTokens_ascribed (g : Grammar) (all : Bool) (path : String) (out : Tokenization) :
    runTokens g all (out.ascribed path).tokens (out.ascribed path).diagnostics =
      ⟨if out.diagnostics = [] then 0 else 1,
        unlines
          ((if all then out.tokens else out.tokens.filter fun t => t.channel = .default).map
            (tokenLine g.kindNames)),
        unlines (reportLines path out.diagnostics)⟩ := by
  simp only [runTokens, isEmpty_ascribed, lines_ascribed, tokenLines_ascribed]

theorem runCheck_ascribed (path : String) (out : Tokenization) :
    runCheck path (out.ascribed path).tokens (out.ascribed path).diagnostics =
      ⟨if out.diagnostics = [] then 0 else 1, "",
        if out.diagnostics = [] then s!"OK: {path} ({out.tokens.length} tokens)\n"
        else unlines (reportLines path out.diagnostics ++
          [s!"{path}: {out.diagnostics.length} recognition error(s)"])⟩ := by
  have htokens : (out.ascribed path).tokens.length = out.tokens.length := List.length_map _
  have hdiagnostics : (out.ascribed path).diagnostics.length = out.diagnostics.length :=
    List.length_map _
  simp only [runCheck, isEmpty_ascribed, lines_ascribed, htokens, hdiagnostics]
  by_cases he : out.diagnostics = []
  · simp only [he, ↓reduceIte]
  · simp only [he, ↓reduceIte, failure]

/-- With the grammar loaded, the commands agree on a file. -/
theorem agree_of_load {chosen : Option String} {g : Grammar}
    (hload : loadGrammar files chosen = .ok g) (h : files path = .bytes text.toUTF8)
    (name : String) :
    Agree g text name path fun c => Invocation.run ⟨c, chosen⟩ files := by
  have htokens (all : Bool) : Invocation.run ⟨.tokens path all, chosen⟩ files =
      withTokens g files path (runTokens g all) := by
    rw [Invocation.run, hload]
  have hcheck : Invocation.run ⟨.check path, chosen⟩ files =
      withTokens g files path (runCheck path) := by
    rw [Invocation.run, hload]
  simp only [withTokens_of_bytes h g name] at htokens hcheck
  constructor
  case failed =>
    intro e he
    simp only [he] at htokens hcheck
    simp [lexing, htokens, hcheck]
  case printed =>
    intro out hout all
    simp only [hout] at htokens
    rw [htokens, runTokens_ascribed]
  case reported =>
    intro out hout all
    simp only [hout] at htokens
    rw [htokens, runTokens_ascribed]
  case checked =>
    intro out hout
    simp only [hout] at hcheck
    rw [hcheck, runCheck_ascribed]
    exact ⟨rfl, rfl⟩
  case exits =>
    intro out hout
    simp only [hout] at htokens hcheck
    simp [lexing, htokens, hcheck, runTokens_ascribed, runCheck_ascribed]

end Command

/-- The source has tokens under the grammar that a text spells, and no diagnostic. -/
def LexesCleanly (grammarText source name : String) : Prop :=
  ∃ g out, Grammar.ofText grammarText = .ok g ∧ tokenize g source name = .ok out ∧
    out.diagnostics = []

/-- The front ends on a grammar text and a source, against tokenizing the source under the source
name `name`. The command line finds the grammar at `grammarPath` and the source at `path`. -/
structure FrontEndsAgree (files : String → FileContent)
    (grammarText source grammarPath path name : String) : Prop where
  /-- A source name shows in the names alone. -/
  named : ∀ g other, lexText g source other =
    ((lexText g source name).1.map (List.map (Token.ascribed other)),
      (lexText g source name).2.map (Diagnostic.ascribed other))
  view : ViewAgrees grammarText source name
  refused : ∀ e, Grammar.ofText grammarText = .error e → ∀ c ∈ Command.lexing path,
    Invocation.run ⟨c, some grammarPath⟩ files =
      Command.failure [s!"Grammar error in {grammarPath}: {e.message}"]
  commands : ∀ g, Grammar.ofText grammarText = .ok g →
    Command.Agree g source name path fun c => Invocation.run ⟨c, some grammarPath⟩ files
  /-- Likewise under the grammar that comes with the command line. -/
  bundled : ∀ g, Calculator.spec.compile = .ok g →
    Command.Agree g source name path fun c => Invocation.run ⟨c, none⟩ files
  exits : ∀ c ∈ Command.lexing path,
    LexesCleanly grammarText source name ∧
        (Invocation.run ⟨c, some grammarPath⟩ files).code = 0 ∨
      ¬LexesCleanly grammarText source name ∧
        (Invocation.run ⟨c, some grammarPath⟩ files).code = 1

/-- The front ends agree on every grammar text and every source. -/
theorem frontEnds_agree {files : String → FileContent} {grammarText source : String}
    {grammarPath path : String} (hgrammar : files grammarPath = .bytes grammarText.toUTF8)
    (hsource : files path = .bytes source.toUTF8) (name : String) :
    FrontEndsAgree files grammarText source grammarPath path name := by
  have hload := Command.loadGrammar_of_bytes hgrammar
  have hrefused (e : GrammarError) (he : Grammar.ofText grammarText = .error e) (c : Command) :
      Invocation.run ⟨c, some grammarPath⟩ files =
        Command.failure [s!"Grammar error in {grammarPath}: {e.message}"] := by
    simp only [Invocation.run, hload, he]
  have hcommands (g : Grammar) (hg : Grammar.ofText grammarText = .ok g) :
      Command.Agree g source name path fun c => Invocation.run ⟨c, some grammarPath⟩ files :=
    Command.agree_of_load (by rw [hload, hg]) hsource name
  constructor
  case named => exact fun g other => lexText_ascribed g source name other
  case view => exact view_agrees grammarText source name
  case refused => exact fun e he c _ => hrefused e he c
  case commands => exact hcommands
  case bundled =>
    intro g hg
    exact Command.agree_of_load (by simp only [Command.loadGrammar, hg]) hsource name
  case exits =>
    intro c hc
    rcases hg : Grammar.ofText grammarText with e | g
    · refine .inr ⟨?_, congrArg CommandResult.code (hrefused e hg c)⟩
      simp [LexesCleanly, hg]
    · rcases ht : tokenize g source name with e | out
      · refine .inr ⟨?_, congrArg CommandResult.code ((hcommands g hg).failed e ht c hc)⟩
        simp [LexesCleanly, hg, ht]
      · have hclean : LexesCleanly grammarText source name ↔ out.diagnostics = [] := by
          simp [LexesCleanly, hg, ht]
        have hcode := (hcommands g hg).exits out ht c hc
        by_cases hd : out.diagnostics = []
        · exact .inl ⟨hclean.mpr hd, hcode.trans (if_pos hd)⟩
        · exact .inr ⟨mt hclean.mp hd, hcode.trans (if_neg hd)⟩

/-- A grammar of words, each part of it an array but the set. -/
def wordsText : String :=
  "[\"Words\",[[\"MAIN\",[[\"WORD\",1,\x7b\"set\":[\"a-z\",false,1]\x7d]]]]]"

def wordFiles (path : String) : FileContent :=
  if path = "words.json" then .bytes wordsText.toUTF8
  else if path = "words.txt" then .bytes "ab?".toUTF8
  else .missing

theorem frontEnds_agree_words :
    (Grammar.ofText wordsText).isOk = true ∧
      wordFiles "words.json" = .bytes wordsText.toUTF8 ∧
      wordFiles "words.txt" = .bytes "ab?".toUTF8 ∧
      FrontEndsAgree wordFiles wordsText "ab?" "words.json" "words.txt" "inline" :=
  have hgrammar : wordFiles "words.json" = .bytes wordsText.toUTF8 := if_pos rfl
  have hsource : wordFiles "words.txt" = .bytes "ab?".toUTF8 :=
    (if_neg (by decide)).trans (if_pos rfl)
  ⟨by decide +kernel, hgrammar, hsource, frontEnds_agree hgrammar hsource "inline"⟩

end ModalLex

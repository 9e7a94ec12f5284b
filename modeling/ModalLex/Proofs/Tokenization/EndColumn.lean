import ModalLex.Proofs.Lexer.EndOfInput
import ModalLex.Proofs.Tokenization.Reports

/-!
# The column of the end token

The line of an end token on nothing is the engine's, but its column is the remembered token's, moved
by the characters of that token, or else the engine's. An attempt forgets the token before it, so
that it counts how the end was reached. Main statement: the column is that of the end of the text
unless the last attempt made a token with a line break, and then it is larger.
-/
namespace ModalLex

open TextView

namespace Position

theorem takeWhile_line {line : List Char} (h : '\n' ∉ line) (rest : List Char) :
    (line ++ rest).takeWhile (· ≠ '\n') = line ++ rest.takeWhile (· ≠ '\n') := by
  apply List.takeWhile_append_of_pos
  intro c hc
  rw [decide_eq_true_eq]
  rintro rfl
  exact h hc

/-- Characters without a line break move the column. -/
theorem column_behind_append {chars : List Char} (h : '\n' ∉ chars) (before : List Char) :
    (behind (before ++ chars)).column = (behind before).column + chars.length := by
  have hline : '\n' ∉ chars.reverse := fun hmem => h (List.mem_reverse.mp hmem)
  change ((before ++ chars).reverse.takeWhile (· ≠ '\n')).length = _
  rw [List.reverse_append, takeWhile_line hline, List.length_append, List.length_reverse,
    Nat.add_comm]
  rfl

/-- Behind a line break the column counts fewer characters than there are. -/
theorem column_behind_lt {chars : List Char} (h : '\n' ∈ chars) (before : List Char) :
    (behind (before ++ chars)).column < chars.length := by
  obtain ⟨line, rest, hsplit, hline⟩ := List.eq_append_cons_of_mem (List.mem_reverse.mpr h)
  have hlength := congrArg List.length hsplit
  rw [List.length_reverse, List.length_append, List.length_cons] at hlength
  change ((before ++ chars).reverse.takeWhile (· ≠ '\n')).length < _
  rw [List.reverse_append, hsplit, List.append_assoc, takeWhile_line hline, List.cons_append,
    List.takeWhile_cons_of_neg (by decide), List.append_nil]
  omega

end Position

/-- The characters of a text that a span covers. -/
def Span.chars (src : List Char) (s : Span) : List Char := (src.drop s.start).take s.length

/-- The attempt came to nothing: a rule skipped it, or none matched. -/
def Attempt.isDropped (t : Attempt) : Bool :=
  match t.ending with
  | .skipped | .unmatched => true
  | .token _ | .unfinished _ | .failed _ => false

/-- A token of the characters before an index, at the position of the first of them. -/
structure Token.EndsAt (src : List Char) (index : Nat) (token : Token) : Prop where
  position_eq : token.span.position = .behind (src.take token.span.start)
  start_lt : token.span.start < token.span.stop
  stop_eq : token.span.stop = index

section

variable {src : List Char} {token : Token}

theorem Token.EndsAt.take_chars (h : token.EndsAt src src.length) :
    src.take token.span.start ++ token.span.chars src = src := by
  have hlength : (src.drop token.span.start).length ≤ token.span.length := by
    rw [List.length_drop, Span.length, h.stop_eq]
  rw [Span.chars, List.take_of_length_le hlength, List.take_append_drop]

theorem Token.EndsAt.length_chars (h : token.EndsAt src src.length) :
    (token.span.chars src).length = token.span.length := by
  have hstop := h.stop_eq
  rw [Span.chars, List.length_take, List.length_drop, Span.length]
  omega

/-- The column behind a token, as its span gives it, is that of the end of the text if the token has
no line break, and larger if it has one. -/
theorem Token.EndsAt.column (h : token.EndsAt src src.length) :
    ('\n' ∉ token.span.chars src →
      token.span.column + token.span.length = (Position.behind src).column) ∧
    ('\n' ∈ token.span.chars src →
      (Position.behind src).column < token.span.column + token.span.length) := by
  have hcolumn : token.span.column = (Position.behind (src.take token.span.start)).column :=
    congrArg Position.column h.position_eq
  have hlength := h.length_chars
  constructor
  · intro hnone
    have happend := Position.column_behind_append hnone (src.take token.span.start)
    rw [h.take_chars, hlength, ← hcolumn] at happend
    exact happend.symm
  · intro hsome
    have hlt := Position.column_behind_lt hsome (src.take token.span.start)
    rw [h.take_chars, hlength] at hlt
    omega

end

/-- The column of an end token, by how the end of the text was reached. -/
inductive EndColumn (src : List Char) (attempts : List Attempt) (tokens : List Token) :
    Nat → Prop
  | dropped {t : Attempt} (last : attempts.getLast? = some t) (isDropped : t.isDropped = true) :
      EndColumn src attempts tokens (Position.behind src).column
  | nothing (src_eq : src = []) : EndColumn src attempts tokens (Position.behind src).column
  | token {t : Attempt} {token : Token} (last : attempts.getLast? = some t)
      (ending_eq : t.ending = .token token) (lastToken : tokens.getLast? = some token)
      (ends : token.EndsAt src src.length) :
      EndColumn src attempts tokens (token.span.column + token.span.length)

/-- The end is reached with a dropped attempt, in a text without characters, or with a token that
has no line break. -/
def EndsInLine (src : List Char) (attempts : List Attempt) (tokens : List Token) : Prop :=
  (∃ t, attempts.getLast? = some t ∧ t.isDropped = true) ∨ src = [] ∨
    ∃ token, tokens.getLast? = some token ∧ '\n' ∉ token.span.chars src

namespace EndColumn

variable {src : List Char} {attempts : List Attempt} {tokens : List Token} {column : Nat}

theorem eq_iff (h : EndColumn src attempts tokens column) :
    column = (Position.behind src).column ↔ EndsInLine src attempts tokens := by
  cases h with
  | dropped last isDropped => exact ⟨fun _ => .inl ⟨_, last, isDropped⟩, fun _ => rfl⟩
  | nothing src_eq => exact ⟨fun _ => .inr (.inl src_eq), fun _ => rfl⟩
  | @token t token last ending_eq lastToken ends =>
    obtain ⟨hsame, hlarger⟩ := ends.column
    constructor
    · intro hcolumn
      refine .inr (.inr ⟨token, lastToken, fun hmem => ?_⟩)
      exact absurd hcolumn (Nat.ne_of_gt (hlarger hmem))
    · rintro (⟨t', hlast, hdropped⟩ | hnil | ⟨token', hlast, hnone⟩)
      · obtain rfl := Option.some.inj (last.symm.trans hlast)
        rw [Attempt.isDropped, ending_eq] at hdropped
        contradiction
      · have hlt := ends.start_lt
        rw [ends.stop_eq, hnil] at hlt
        exact absurd hlt (Nat.not_lt_zero _)
      · obtain rfl := Option.some.inj (lastToken.symm.trans hlast)
        exact hsame hnone

theorem of_break (h : EndColumn src attempts tokens column)
    (hbreak : ¬ EndsInLine src attempts tokens) :
    ∃ token, tokens.getLast? = some token ∧ column = token.span.column + token.span.length ∧
      (Position.behind src).column < column := by
  cases h with
  | dropped last isDropped => exact absurd (.inl ⟨_, last, isDropped⟩) hbreak
  | nothing src_eq => exact absurd (.inr (.inl src_eq)) hbreak
  | @token _ token _ _ lastToken ends =>
    refine ⟨token, lastToken, rfl, ends.column.2 ?_⟩
    by_contra hnone
    exact hbreak (.inr (.inr ⟨token, lastToken, hnone⟩))

end EndColumn

section

variable {σ ε : Type} [CharStream σ] [RecognitionEngine ε]

/-- The lexer with another text on the token that it remembers. -/
def Lexer.retext {σ ε : Type} (l : Lexer σ ε) (text : String) : Lexer σ ε :=
  { l with token := l.token.map fun t => { t with text } }

/-- The text of the remembered token has no part in what a call answers. -/
theorem Lexer.nextToken_retext (l : Lexer σ ε) (text : String) :
    (l.retext text).nextToken.1 = l.nextToken.1 := by
  obtain ⟨state, input⟩ := l
  cases input with
  | none => rfl
  | some input =>
    let a : ActiveLexer σ ε := { state with input }
    let b : ActiveLexer σ ε := { a with token := a.token.map fun t => { t with text } }
    change b.pinned.search.1 = a.pinned.search.1
    have hbegin : b.pinned.begin = a.pinned.begin := rfl
    have hhere : b.pinned.here = a.pinned.here := rfl
    have hpatience : b.pinned.patience = a.pinned.patience := rfl
    have hflag : b.pinned.hitEof = a.pinned.hitEof := rfl
    have hcolumn : b.pinned.eofColumn = a.pinned.eofColumn := by
      have htoken : b.pinned.token = a.pinned.token.map fun t => { t with text } := rfl
      rw [ActiveLexer.eofColumn, ActiveLexer.eofColumn, htoken]
      cases a.pinned.token <;> rfl
    rw [ActiveLexer.search, ActiveLexer.search, hflag, hbegin, hhere, hpatience]
    split
    · rw [ActiveLexer.emitEof, ActiveLexer.emitEof, hcolumn]
      rfl
    · rfl

end

namespace ActiveLexer

section

variable {σ : Type} [CharStream σ]

/-- What a call comes to that was made before the end had been seen: a token, the end after a
dropped attempt, the end of a text that is over, or an end token of characters. -/
inductive Yields (src : List Char) (start : Nat) (attempts : List Attempt)
    (c : Except LexError Token × ActiveLexer σ RuleEngine) : Prop
  | token {t : Attempt} {token : Token} (answer_eq : c.1 = .ok token)
      (isEof_eq : token.isEof = false) (last : attempts.getLast? = some t)
      (ending_eq : t.ending = .token token) (remembered : c.2.token = some token)
      (ends : token.EndsAt src (CharStream.index c.2.input))
      (hitEof_iff : c.2.hitEof = true ↔ CharStream.index c.2.input = src.length)
  | dropped {t : Attempt} {e : Token} (answer_eq : c.1 = .ok e) (isEof_eq : e.isEof = true)
      (last : attempts.getLast? = some t) (isDropped : t.isDropped = true)
      (index_eq : CharStream.index c.2.input = src.length)
      (column_eq : e.span.column = (Position.behind src).column)
  | nothing {e : Token} (answer_eq : c.1 = .ok e) (isEof_eq : e.isEof = true)
      (start_eq : start = src.length)
      (index_eq : CharStream.index c.2.input = src.length)
      (column_eq : e.span.column = (Position.behind src).column)
  | covering {e : Token} (answer_eq : c.1 = .ok e) (isEof_eq : e.isEof = true)
      (nonempty : e.span.isEmpty = false)

variable {src : List Char} {start : Nat} {attempts : List Attempt}
  {c : Except LexError Token × ActiveLexer σ RuleEngine}

theorem Yields.cons (h : Yields src start attempts c) (hstart : start ≠ src.length)
    (t : Attempt) (start' : Nat) : Yields src start' (t :: attempts) c := by
  cases h with
  | token answer_eq isEof_eq last ending_eq remembered ends hitEof_iff =>
    exact .token answer_eq isEof_eq (List.mem_getLast?_cons last) ending_eq remembered ends
      hitEof_iff
  | dropped answer_eq isEof_eq last isDropped index_eq column_eq =>
    exact .dropped answer_eq isEof_eq (List.mem_getLast?_cons last) isDropped index_eq column_eq
  | nothing _ _ start_eq => exact absurd start_eq hstart
  | covering answer_eq isEof_eq nonempty => exact .covering answer_eq isEof_eq nonempty

/-- Giving a mark back changes nothing of it but the stream. -/
theorem Yields.unpinned {mark : Mark} (h : Yields src start attempts c)
    (hi : CharStream.index (c.2.unpinned mark).input = CharStream.index c.2.input) :
    Yields src start attempts (c.1, c.2.unpinned mark) := by
  cases h with
  | token answer_eq isEof_eq last ending_eq remembered ends hitEof_iff =>
    rw [← hi] at ends hitEof_iff
    exact .token answer_eq isEof_eq last ending_eq remembered ends hitEof_iff
  | dropped answer_eq isEof_eq last isDropped index_eq column_eq =>
    exact .dropped answer_eq isEof_eq last isDropped (hi.trans index_eq) column_eq
  | nothing answer_eq isEof_eq start_eq index_eq column_eq =>
    exact .nothing answer_eq isEof_eq start_eq (hi.trans index_eq) column_eq
  | covering answer_eq isEof_eq nonempty => exact .covering answer_eq isEof_eq nonempty

variable [LawfulView σ] {kept : Nat} {l m : ActiveLexer σ RuleEngine} {o : Begun} {v : Verdict}
  {modes : ModeId × List ModeId}

/-- A firing that does not fail finds out whether the text has ended. -/
theorem Fired.hitEof_iff_end {start : TokenStart} (hf : Fired src kept start l v m)
    (hv : ∀ e, v ≠ .failed e) :
    m.hitEof = true ↔ CharStream.index m.input = src.length := by
  cases hf with
  | ended hend took _ hitEof_eq =>
    exact ⟨fun _ => took.index_eq.trans hend, fun _ => hitEof_eq⟩
  | won _ _ _ _ hitEof_iff => exact hitEof_iff
  | unmatched _ _ _ _ _ _ hitEof_iff => exact hitEof_iff
  | undeclared | underflow | refused => exact absurd rfl (hv _)

/-- Without a rule the engine matches where the text has ended only. -/
theorem Working.matched_index (h : Working src kept l) {start : TokenStart} {kind : TokenKind}
    (hf : Fired src kept start l (.matched kind) m) (hpick : l.pick = none) :
    CharStream.index m.input = src.length := by
  rcases Nat.lt_or_eq_of_le h.index_le with hi | hend
  · generalize hv : Verdict.matched kind = v at hf
    rw [h.pick_eq] at hpick
    cases hf with
    | ended hend took => exact took.index_eq.trans hend
    | won hw =>
      rw [hw] at hpick
      contradiction
    | undeclared | underflow | refused | unmatched => contradiction
  · obtain ⟨-, took, -⟩ := hf.of_end hend
    exact took.index_eq.trans hend

/-- The answer of an attempt that matched a kind. -/
theorem Pursues.yields_matched (hu : Pursues src modes o l) (h : Working src kept l)
    (hcommon : l.factory = TokenFactory.common) {kind : TokenKind}
    (hfire : l.fire o.start = (.matched kind, m)) (extra : Nat) :
    Yields src o.start.index (runAttempts (extra + 1) o l)
      (m.record (m.build kind o.start)) := by
  have hf := h.fired hfire
  have hfactory := hf.factory_eq.trans hcommon
  have hspan := build_span hfactory kind o.start
  have hend := hf.hitEof_iff_end nofun
  cases hp : l.pick with
  | some r =>
    obtain ⟨-, hleads⟩ := hu.picked h hf nofun hp
    have hlt := hleads.start_lt (List.append_ne_nil_of_right_ne_nil _ (List.cons_ne_nil _ _))
    rw [runAttempts_token extra hp hfire]
    cases he : (m.build kind o.start).isEof with
    | true =>
      refine .covering rfl he ?_
      rw [Span.isEmpty, Span.length, hspan, beq_eq_false_iff_ne]
      exact Nat.ne_of_gt (Nat.sub_pos_of_lt hlt)
    | false =>
      refine .token rfl he rfl rfl rfl ⟨?_, ?_, ?_⟩ hend
      · rw [hspan]
        exact hu.start_eq
      · rw [hspan]
        exact hlt
      · rw [hspan]
        rfl
  | none =>
    obtain rfl := h.matched_eof hf hp
    obtain ⟨-, hleads⟩ := hu.matched h hf hp
    have hindex := h.matched_index hf hp
    have heof : (m.build .eof o.start).isEof = true := beq_iff_eq.mpr (build_kind hfactory _ _)
    by_cases hfired : o.fired = []
    · have hstart := (hleads.start_eq hfired).trans hindex
      refine .nothing rfl heof hstart hindex ?_
      have hposition := hu.start_eq
      rw [hstart, List.take_length] at hposition
      rw [hspan]
      exact congrArg Position.column hposition
    · have hlt := hleads.start_lt hfired
      refine .covering rfl heof ?_
      rw [Span.isEmpty, Span.length, hspan, beq_eq_false_iff_ne]
      exact Nat.ne_of_gt (Nat.sub_pos_of_lt hlt)

omit [LawfulView σ] in
theorem isDropped_ended (o : Begun) (m : ActiveLexer σ RuleEngine) (picked : Option Rule) :
    (o.ended m (if picked.isSome then .skipped else .unmatched)).isDropped = true := by
  cases picked <;> rfl

omit [LawfulView σ] in
/-- After a dropped attempt that reached the end, the engine's column counts: nothing has been
remembered since the attempt began. -/
theorem emitEof_yields (hplace : m.toLexer.AtPlace src) (hcommon : m.factory = TokenFactory.common)
    (htoken : m.token = none) (hindex : CharStream.index m.input = src.length) {t : Attempt}
    (ht : t.isDropped = true) (start : Nat) : Yields src start [t] m.emitEof := by
  have hposition : m.engine.position = .behind (src.take (CharStream.index m.input)) := hplace
  rw [hindex, List.take_length] at hposition
  rw [emitEof_eq hcommon]
  refine .dropped rfl rfl rfl ht hindex ?_
  change m.eofColumn = _
  rw [eofColumn, htoken, ← hposition]
  rfl

/-- By induction on the run, where nothing is remembered and the position follows the text. -/
theorem Runs.yields {start : TokenStart} {firings : List (ActiveLexer σ RuleEngine)}
    (hr : Runs start l firings c) (h : Working src kept l) (hp : l.toLexer.AtPlace src)
    (hcommon : l.factory = TokenFactory.common) (htoken : l.token = none)
    (hu : Pursues src modes o l) (hstart : o.start = start) (extra : Nat) {token : Token}
    (hc : c.1 = .ok token) :
    Yields src o.start.index (runAttempts (extra + firings.length) o l) c := by
  induction hr generalizing o modes with
  | failed => contradiction
  | injected hfire => exact (h.fired hfire).not_injected.elim
  | matched hfire =>
    subst hstart
    exact hu.yields_matched h hcommon hfire extra
  | @more start l m _ _ hfire hruns ih =>
    subst hstart
    have hf := h.fired hfire
    obtain ⟨n, htook⟩ := hf.took
    obtain ⟨r, hpick⟩ := h.more_pick hf
    obtain ⟨-, hleads⟩ := hu.picked h hf nofun hpick
    have hkept := l.fire_token o.start
    rw [hfire] at hkept
    rw [List.length_cons, ← Nat.add_assoc, runAttempts_more _ hpick hfire]
    exact ih (o := o.after (some r)) (hf.working h) (htook.atPlace hp)
      (hf.factory_eq.trans hcommon) (hkept.trans htoken)
      ⟨hu.toUnderway.more hf (some r), hleads⟩ rfl hc
  | @ended _ l m hfire hflag =>
    subst hstart
    have hf := h.fired hfire
    obtain ⟨n, htook⟩ := hf.took
    have hkept := l.fire_token o.start
    rw [hfire] at hkept
    rw [List.length_singleton, runAttempts_dropped extra hfire, if_pos hflag]
    exact emitEof_yields (htook.atPlace hp) (hf.factory_eq.trans hcommon)
      (hkept.trans htoken) ((hf.hitEof_iff_end nofun).mp hflag) (isDropped_ended _ _ _) _
  | @onward _ l m _ _ hfire hflag hruns ih =>
    subst hstart
    have hf := h.fired hfire
    have hm := hf.working h
    obtain ⟨n, htook⟩ := hf.took
    have hplace := htook.atPlace hp
    have hbegun : Pursues src m.context.modes m.begun m.begin := ⟨⟨hplace, rfl⟩, .nothing _ _⟩
    have hgoes : ¬ m.hitEof = true := hflag ▸ Bool.false_ne_true
    have hmore : m.begun.start.index ≠ src.length := mt (hf.hitEof_iff_end nofun).mpr hgoes
    have hrest := ih (.begin hm.shows hm.eof_imp) hplace (hf.factory_eq.trans hcommon) rfl hbegun
      rfl hc
    rw [List.length_cons, ← Nat.add_assoc, runAttempts_dropped _ hfire, if_neg hgoes]
    exact hrest.cons hmore _ _

end

section

variable {σ : Type} [CharStream σ] [RoamingView σ] {src : List Char}
  {a b : ActiveLexer σ RuleEngine}

/-- What a call answers that is made between others, before the end has been seen. -/
theorem Idle.yields (h : a.Idle src) (hp : a.toLexer.AtPlace src)
    (hcommon : a.factory = TokenFactory.common) (hflag : a.hitEof = false) {token : Token}
    (hc : a.nextToken.1 = .ok token) :
    Yields src (CharStream.index a.input) a.toLexer.attempts a.nextToken := by
  obtain ⟨firings, hs, hlen⟩ := h.exists_searches
  have hp' : a.pinned.toLexer.AtPlace src := by
    change a.engine.position = .behind (src.take (CharStream.index a.pinned.input))
    rw [h.index_pinned]
    exact hp
  have hsearch : Yields src (CharStream.index a.pinned.input) a.pinned.searchAttempts
      a.pinned.search := by
    change a.pinned.search.1 = .ok token at hc
    generalize a.pinned.search = c at hs hc
    cases hs with
    | ended hseen => exact absurd (hflag.symm.trans hseen) Bool.false_ne_true
    | begun hnot hruns =>
      have hbegun : Pursues src a.pinned.context.modes a.pinned.begun a.pinned.begin :=
        ⟨⟨hp', rfl⟩, .nothing _ _⟩
      have hrun := hruns.yields (.begin h.pinned h.eof_pinned) hp' hcommon rfl hbegun rfl
        (a.pinned.patience - firings.length) hc
      rw [Nat.sub_add_cancel (by rw [h.patience_pinned]; omega)] at hrun
      rw [searchAttempts, if_neg (hnot ▸ Bool.false_ne_true)]
      exact hrun
  rw [h.index_pinned] at hsearch
  exact hsearch.unpinned h.index_nextToken

/-- A lexer from which these tokens were drawn, with these attempts. Once it has seen the end it
remembers the last of the tokens, which the last attempt made. -/
structure Drawn (src : List Char) (attempts : List Attempt) (tokens : List Token)
    (a : ActiveLexer σ RuleEngine) : Prop where
  idle : a.Idle src
  atPlace : a.toLexer.AtPlace src
  common : a.factory = TokenFactory.common
  going : a.hitEof = false → CharStream.index a.input = src.length → src = []
  seen : a.hitEof = true → ∃ t token, attempts.getLast? = some t ∧ t.ending = .token token ∧
    tokens.getLast? = some token ∧ a.token = some token ∧ token.EndsAt src src.length

variable {attempts : List Attempt} {tokens : List Token} {token e : Token}

/-- Once the end has been seen a call makes no attempt. -/
theorem Drawn.spent (h : Drawn src attempts tokens a) (hflag : a.hitEof = true) :
    a.Spent src a.endToken ∧ a.toLexer.attempts = [] := by
  refine ⟨⟨h.idle, hflag, h.common, rfl⟩, ?_⟩
  change a.pinned.searchAttempts = []
  rw [searchAttempts]
  exact if_pos hflag

theorem Drawn.next (h : Drawn src attempts tokens a) (hc : a.nextToken = (.ok token, b))
    (he : token.isEof = false) :
    Drawn src (attempts ++ a.toLexer.attempts) (tokens ++ [token]) b := by
  cases hflag : a.hitEof with
  | true =>
    rw [(h.spent hflag).1.nextToken_eq] at hc
    obtain rfl := Except.ok.inj (Prod.mk.inj hc).1
    contradiction
  | false =>
    have hyields := h.idle.yields h.atPlace h.common hflag (congrArg Prod.fst hc)
    obtain ⟨n, hw⟩ := h.idle.nextToken.went
    have hidle := h.idle.nextToken.idle
    have hplace := hw.atPlace h.atPlace
    have hcommon := hw.factory_eq.trans h.common
    rw [hc] at hyields hidle hplace hcommon
    cases hyields with
    | token answer_eq _ last ending_eq remembered ends hitEof_iff =>
      obtain rfl := Except.ok.inj answer_eq
      refine ⟨hidle, hplace, hcommon, fun hnot hend => ?_, fun hseen => ?_⟩
      · exact absurd (hnot.symm.trans (hitEof_iff.mpr hend)) Bool.false_ne_true
      · exact ⟨_, _, List.mem_getLast?_append_of_mem_getLast? last, ending_eq,
          List.getLast?_concat, remembered, hitEof_iff.mp hseen ▸ ends⟩
    | dropped answer_eq isEof_eq | nothing answer_eq isEof_eq | covering answer_eq isEof_eq =>
      obtain rfl := Except.ok.inj answer_eq
      exact absurd (he.symm.trans isEof_eq) Bool.false_ne_true

/-- An end token on nothing, after the tokens that were drawn. -/
theorem Drawn.ends (h : Drawn src attempts tokens a) (hc : a.nextToken.1 = .ok e)
    (he : e.isEof = true) (hempty : e.span.isEmpty = true) :
    e.span.start = src.length ∧ e.span.stop = src.length ∧
      e.span.line = (Position.behind src).line ∧
      EndColumn src (attempts ++ a.toLexer.attempts) tokens e.span.column := by
  have hreached : CharStream.index a.nextToken.2.input = src.length ∧
      EndColumn src (attempts ++ a.toLexer.attempts) tokens e.span.column := by
    cases hflag : a.hitEof with
    | true =>
      obtain ⟨hspent, hnone⟩ := h.spent hflag
      obtain ⟨t, token, last, ending_eq, lastToken, remembered, ends⟩ := h.seen hflag
      rw [hspent.nextToken_eq] at hc
      obtain rfl := Except.ok.inj hc
      have hcolumn : a.endToken.span.column = token.span.column + token.span.length := by
        change a.eofColumn = _
        rw [eofColumn, remembered]
      rw [hcolumn, hnone, List.append_nil]
      exact ⟨hspent.nextToken.index_eq, .token last ending_eq lastToken ends⟩
    | false =>
      cases h.idle.yields h.atPlace h.common hflag hc with
      | token answer_eq isEof_eq =>
        obtain rfl := Except.ok.inj (hc.symm.trans answer_eq)
        exact absurd (isEof_eq.symm.trans he) Bool.false_ne_true
      | dropped answer_eq _ last isDropped index_eq column_eq =>
        obtain rfl := Except.ok.inj (hc.symm.trans answer_eq)
        rw [column_eq]
        exact ⟨index_eq, .dropped (List.mem_getLast?_append_of_mem_getLast? last) isDropped⟩
      | nothing answer_eq _ start_eq index_eq column_eq =>
        obtain rfl := Except.ok.inj (hc.symm.trans answer_eq)
        rw [column_eq]
        exact ⟨index_eq, .nothing (h.going hflag start_eq)⟩
      | covering answer_eq _ nonempty =>
        obtain rfl := Except.ok.inj (hc.symm.trans answer_eq)
        exact absurd (nonempty.symm.trans hempty) Bool.false_ne_true
  obtain ⟨hindex, hcolumn⟩ := hreached
  obtain ⟨n, hw⟩ := h.idle.nextToken.went
  have hplace : a.nextToken.2.engine.position =
      .behind (src.take (CharStream.index a.nextToken.2.input)) := hw.atPlace h.atPlace
  rw [hindex, List.take_length] at hplace
  have hend := h.idle.end_of_empty h.common hc hempty
  have hstart : e.span.start = CharStream.index a.nextToken.2.input := congrArg (·.span.start) hend
  have hstop : e.span.stop = CharStream.index a.nextToken.2.input := congrArg (·.span.stop) hend
  have hline : e.span.line = a.nextToken.2.engine.position.line := congrArg (·.span.line) hend
  rw [hplace] at hline
  exact ⟨hstart.trans hindex, hstop.trans hindex, hline, hcolumn⟩

end

end ActiveLexer

namespace Lexer

variable {σ : Type} [CharStream σ] [RoamingView σ] {g : Grammar} {src : List Char} {input : σ}
  {listeners : Listeners} {tokens : List Token} {l' : Lexer σ RuleEngine}

/-- Where the end token stands. For every grammar, stream and text, and whatever listens: where a
lexer at the start of its input is drained without an error, and the end token that follows covers
nothing, that token stands behind the last character, on the line of the end of the text. Its column
is that of the end exactly where the last attempt was dropped, the text has no characters, or the
last token has no line break; else it is the column of the last token and the number of its
characters, and too large. The text that the last token carries never counts. -/
theorem end_token_column (hrests : Rests src input) (hstart : CharStream.index input = 0)
    (hd : (fresh input g listeners).allTokens = (.ok tokens, l')) :
    let l := fresh input g listeners
    ∃ e, (l.calls (tokens.length + 1)).map Prod.fst = tokens.map .ok ++ [.ok e] ∧
      (∀ t ∈ tokens, t.isEof = false) ∧ e.isEof = true ∧
      (e.span.isEmpty = true →
        e.span.start = src.length ∧ e.span.stop = src.length ∧
        e.span.line = (Position.behind src).line ∧
        (e.span.column = (Position.behind src).column ↔
          EndsInLine src (l.tokens.attempts l.patience) tokens) ∧
        (¬ EndsInLine src (l.tokens.attempts l.patience) tokens →
          ∃ token, tokens.getLast? = some token ∧
            e.span.column = token.span.column + token.span.length ∧
            (Position.behind src).column < e.span.column) ∧
        ∀ text, ((after tokens.length l).retext text).nextToken.1 = .ok e) := by
  intro l
  let a : ActiveLexer σ RuleEngine :=
    { detached (.ofGrammar g) TokenFactory.common with
      sourceName := CharStream.sourceName input, listeners, input }
  have hfirst : (l.tokens.drain l.patience).1 = .ok tokens := congrArg Prod.fst hd
  have hdrain : Tokens.drain l.patience ⟨a.toLexer, false⟩ =
      (.ok tokens, (l.tokens.drain l.patience).2) := Prod.ext hfirst rfl
  have hinitial : a.Drawn src [] [] := by
    refine ⟨⟨hrests, nofun⟩, ?_, rfl, fun _ hend => ?_, nofun⟩
    · change Position.initial = .behind (src.take (CharStream.index input))
      rw [hstart, List.take_zero, Position.behind_nil]
    · exact List.eq_nil_of_length_eq_zero (hend.symm.trans hstart)
  obtain ⟨b, c, e, before, hafter, hb, heof, hts, hdrawn, hattempts⟩ :=
    Tokens.drained (fun _ _ _ _ _ h hc he => h.next hc he) [] [] hinitial hdrain
  obtain ⟨e', -, hlast, hnone, hcalls⟩ := Tokens.drain_calls hdrain
  -- The end token that the sequence remembers is the one that this call returns.
  obtain rfl : e' = e := by
    have hremembered : c.toLexer.token = some e :=
      nextToken_token (l := b.toLexer) (by rw [nextToken_toLexer, hb])
    rw [hts] at hlast
    exact Option.some.inj (hlast.symm.trans hremembered)
  refine ⟨e', hcalls 0, hnone, heof, fun hempty => ?_⟩
  have hanswer := congrArg Prod.fst hb
  obtain ⟨hs, hstop, hline, hcolumn⟩ := hdrawn.ends hanswer heof hempty
  rw [← hattempts] at hcolumn
  refine ⟨hs, hstop, hline, hcolumn.eq_iff, hcolumn.of_break, fun text => ?_⟩
  change after tokens.length l = b.toLexer at hafter
  rw [nextToken_retext, hafter]
  exact hanswer

/-- The lexer before a word and a quotation of two lines. -/
def beforeTwoLines : Lexer TextStream RuleEngine :=
  fresh (TextStream.ofString "x\"a\nb\"" "inline") Tokenization.quoting .empty

/-- The word and the quotation. -/
def twoLines : List Token :=
  [⟨⟨1⟩, .default, "x", ⟨0, 1, 1, 0⟩, "inline"⟩,
    ⟨⟨2⟩, .default, "\"a\nb\"", ⟨1, 6, 1, 1⟩, "inline"⟩]

/-- Behind a quotation of two lines the end token stands in column 6, four too far. -/
theorem end_token_column_quotation :
    Rests "x\"a\nb\"".toList (TextStream.ofString "x\"a\nb\"" "inline") ∧
      CharStream.index (TextStream.ofString "x\"a\nb\"" "inline") = 0 ∧
      (∃ l', beforeTwoLines.allTokens = (.ok twoLines, l')) ∧
      (beforeTwoLines.calls 3).map Prod.fst =
        twoLines.map .ok ++ [.ok ⟨.eof, .default, "", ⟨6, 6, 2, 6⟩, "inline"⟩] ∧
      ¬ EndsInLine "x\"a\nb\"".toList
        (beforeTwoLines.tokens.attempts beforeTwoLines.patience) twoLines := by
  have hrests := TextStream.rests_ofString "x\"a\nb\"" "inline"
  have hfirst : beforeTwoLines.allTokens.1 = .ok twoLines := by cbv
  have hd : beforeTwoLines.allTokens = (.ok twoLines, beforeTwoLines.allTokens.2) := by
    rw [← hfirst]
  have hcalls : (beforeTwoLines.calls 3).map Prod.fst =
      twoLines.map .ok ++ [.ok ⟨.eof, .default, "", ⟨6, 6, 2, 6⟩, "inline"⟩] := by cbv
  obtain ⟨e, hanswers, -, -, hplaced⟩ := end_token_column hrests rfl hd
  have he := List.append_cancel_left (hanswers.symm.trans hcalls)
  obtain rfl := Except.ok.inj (List.cons.inj he).1
  obtain ⟨-, -, -, hiff, -, -⟩ := hplaced rfl
  refine ⟨hrests, rfl, ⟨_, hd⟩, hcalls, fun hline => ?_⟩
  exact absurd (hiff.mpr hline) (by decide)

end Lexer

end ModalLex

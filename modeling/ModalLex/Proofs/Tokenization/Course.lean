import ModalLex.Proofs.Engine.Recognition
import ModalLex.Proofs.Grammar.Effects
import ModalLex.Proofs.Tokenization.Attempts

/-!
# The course of lexing

What becomes of a text, as a recursion over the characters that are left. Where some are left,
the first of the rules that take the most is taken and decides; where none takes any, one
character is reported and dropped with the attempt; where none are left, lexing ends. There is
no stream, no driver and no budget here.
-/
namespace ModalLex

/-- An attempt under way: where it began, what it has taken, and the rules that took it. -/
structure OpenAttempt where
  start : Nat
  position : Position
  taken : List Char
  fired : List Rule

namespace OpenAttempt

def stop (o : OpenAttempt) : Nat := o.start + o.taken.length

/-- The attempt after one more rule has taken some characters. -/
def extend (o : OpenAttempt) (r : Rule) (chars : List Char) : OpenAttempt :=
  { o with taken := o.taken ++ chars, fired := o.fired ++ [r] }

def actions (o : OpenAttempt) : List Action := o.fired.flatMap Rule.actions

def channel (o : OpenAttempt) : Channel :=
  (Action.last? Action.channel? o.actions).getD .default

def text? (o : OpenAttempt) : Option String := Action.last? Action.text? o.actions

def token (o : OpenAttempt) (sourceName : String) (kind : TokenKind) : Token where
  kind
  channel := o.channel
  text := o.text?.getD (String.ofList o.taken)
  span := ⟨o.start, o.stop, o.position.line, o.position.column⟩
  sourceName

@[simp]
theorem stop_extend (o : OpenAttempt) (r : Rule) (chars : List Char) :
    (o.extend r chars).stop = o.stop + chars.length := by
  rw [stop, stop, extend, List.length_append, Nat.add_assoc]

@[simp]
theorem channel_extend (o : OpenAttempt) (r : Rule) (chars : List Char) :
    (o.extend r chars).channel = (Action.last? Action.channel? r.actions).getD o.channel := by
  simp only [channel, actions, extend, List.flatMap_append, List.flatMap_singleton,
    Action.last?_append, Option.getD_or]

@[simp]
theorem text?_extend (o : OpenAttempt) (r : Rule) (chars : List Char) :
    (o.extend r chars).text? = (Action.last? Action.text? r.actions).or o.text? := by
  simp only [text?, actions, extend, List.flatMap_append, List.flatMap_singleton,
    Action.last?_append]

/-- The report on an attempt that no rule continues, through the character that none took. -/
def diagnostic (o : OpenAttempt) (sourceName : String) (c : Char) : Diagnostic where
  sourceName
  line := o.position.line
  column := o.position.column
  message :=
    "token recognition error at: '" ++ showText (String.ofList (o.taken ++ [c])) ++ "'"

/-- The attempt, ended by a rule or by the end of the text. -/
def ended (o : OpenAttempt) (ending : Ending) : Attempt := ⟨o.start, o.stop, o.fired, [], ending⟩

/-- The attempt, ended by a character that no rule takes. -/
def unmatched (o : OpenAttempt) (sourceName : String) (c : Char) : Attempt :=
  ⟨o.start, o.stop + 1, o.fired, [o.diagnostic sourceName c], .unmatched⟩

end OpenAttempt

/-- Where lexing stands: the modes, the place in the text, and the attempt under way. -/
structure Scan where
  mode : ModeId
  stack : List ModeId
  index : Nat
  position : Position
  attempt : Option OpenAttempt

namespace Scan

def initial : Scan := ⟨.default, [], 0, .initial, none⟩

/-- The attempt under way, or else the one that begins here. -/
def current (s : Scan) : OpenAttempt := s.attempt.getD ⟨s.index, s.position, [], []⟩

/-- Lexing past some characters, in these modes and with this attempt. -/
def past (s : Scan) (chars : List Char) (mode : ModeId) (stack : List ModeId)
    (attempt : Option OpenAttempt) : Scan :=
  ⟨mode, stack, s.index + chars.length, s.position.advance chars, attempt⟩

/-- What is left of `src` lies behind the attempt under way, and what that attempt has taken is
what lies between its start and the index. -/
structure Placed (src rest : List Char) (s : Scan) : Prop where
  stop_eq : s.current.stop = s.index
  drop_eq : src.drop s.current.start = s.current.taken ++ rest
  length_eq : s.index + rest.length = src.length
  begun : ∀ o, s.attempt = some o → o.taken ≠ [] ∧ o.fired ≠ []

/-- The modes that lexing is in and will return to are declared. -/
structure Declared (g : Grammar) (s : Scan) : Prop where
  mode_lt : s.mode.index < g.modes.length
  stack_lt : ∀ m ∈ s.stack, m.index < g.modes.length

variable {src rest chars : List Char} {s : Scan} {mode : ModeId} {stack : List ModeId}

@[simp]
theorem current_past_some (o : OpenAttempt) :
    (s.past chars mode stack (some o)).current = o := rfl

theorem current_none (h : s.attempt = none) : s.current = ⟨s.index, s.position, [], []⟩ := by
  rw [current, h, Option.getD_none]

theorem current_some {o : OpenAttempt} (h : s.attempt = some o) : s.current = o := by
  rw [current, h, Option.getD_some]

theorem placed_initial (src : List Char) : Placed src src initial where
  stop_eq := rfl
  drop_eq := rfl
  length_eq := Nat.zero_add _
  begun _ h := nomatch h

theorem Placed.rest_eq (h : Placed src rest s) : rest = src.drop s.index := by
  rw [← h.stop_eq, OpenAttempt.stop, ← List.drop_drop, h.drop_eq, List.drop_left]

theorem Placed.index_lt (h : Placed src rest s) (hr : rest ≠ []) : s.index < src.length := by
  have hl := h.length_eq
  have hpos := List.length_pos_iff.mpr hr
  omega

theorem Placed.stop_extend (h : Placed src rest s) (r : Rule) (chars : List Char) :
    (s.current.extend r chars).stop = s.index + chars.length := by
  rw [OpenAttempt.stop_extend, h.stop_eq]

theorem Placed.cut (h : Placed src rest s) (n : Nat) :
    Placed src (rest.take n ++ rest.drop n) s := by
  rwa [List.take_append_drop]

/-- Between attempts nothing but the index matters. -/
theorem Placed.past_none (h : Placed src (chars ++ rest) s) :
    Placed src rest (s.past chars mode stack none) where
  stop_eq := rfl
  drop_eq := by
    have hd : src.drop (s.index + chars.length) = rest := by
      rw [← List.drop_drop, ← h.rest_eq, List.drop_left]
    exact hd
  length_eq := by
    have hl := h.length_eq
    rw [List.length_append] at hl
    simp only [past]
    omega
  begun _ ho := nomatch ho

theorem Placed.past_one {c : Char} (h : Placed src (c :: rest) s) :
    Placed src rest (s.past [c] mode stack none) :=
  past_none (List.singleton_append ▸ h)

theorem Placed.past_extend (h : Placed src (chars ++ rest) s) (hc : chars ≠ []) (r : Rule) :
    Placed src rest (s.past chars mode stack (some (s.current.extend r chars))) where
  stop_eq := h.stop_extend r chars
  drop_eq := by
    rw [current_past_some, OpenAttempt.extend, List.append_assoc]
    exact h.drop_eq
  length_eq := by
    have hl := h.length_eq
    rw [List.length_append] at hl
    simp only [past]
    omega
  begun o ho := by
    obtain rfl := Option.some.inj ho
    exact ⟨List.append_ne_nil_of_right_ne_nil _ hc,
      List.append_ne_nil_of_right_ne_nil _ (List.cons_ne_nil _ _)⟩

theorem declared_initial {g : Grammar} (hg : g.Sound) : Declared g initial where
  mode_lt := hg.start_declared
  stack_lt _ hm := absurd hm List.not_mem_nil

theorem Declared.past {g : Grammar} (hg : g.Sound) (h : Declared g s) {r : Rule}
    (hr : r ∈ g.rules) (hm : Action.modesAfter? s.mode s.stack r.actions = some (mode, stack))
    (attempt : Option OpenAttempt) : Declared g (s.past chars mode stack attempt) := by
  obtain ⟨hmode, hstack⟩ := Action.modesAfter?_all hm h.mode_lt h.stack_lt (hg.target_declared r hr)
  exact ⟨hmode, hstack⟩

end Scan

/-- The attempts on the characters that are left. -/
def course (g : Grammar) (sourceName : String) (rest : List Char) (s : Scan) : List Attempt :=
  match rest with
  | [] =>
    match s.attempt with
    | none => []
    | some o => [o.ended (.unfinished (o.token sourceName .eof))]
  | c :: cs =>
    match _hw : winner? (g.rulesOf s.mode) (c :: cs) with
    | none =>
      s.current.unmatched sourceName c ::
        course g sourceName cs (s.past [c] s.mode s.stack none)
    | some (r, n) =>
      let chars := (c :: cs).take n
      let o := s.current.extend r chars
      match Action.modesAfter? s.mode s.stack r.actions with
      | none => [o.ended (.failed .emptyModeStack)]
      | some (mode, stack) =>
        match r.decision with
        | .token kind =>
          o.ended (.token (o.token sourceName kind)) ::
            course g sourceName ((c :: cs).drop n) (s.past chars mode stack none)
        | .more => course g sourceName ((c :: cs).drop n) (s.past chars mode stack (some o))
        | .skip =>
          o.ended .skipped ::
            course g sourceName ((c :: cs).drop n) (s.past chars mode stack none)
  termination_by rest.length
  decreasing_by
    · exact Nat.lt_succ_self cs.length
    all_goals exact winner?_drop_lt _hw

section

variable {g : Grammar} (sourceName : String) {s : Scan} {c : Char} {cs : List Char} {r : Rule}
  {n : Nat} {mode : ModeId} {stack : List ModeId}

theorem course_none (h : s.attempt = none) : course g sourceName [] s = [] := by
  rw [course, h]

theorem course_open {o : OpenAttempt} (h : s.attempt = some o) :
    course g sourceName [] s = [o.ended (.unfinished (o.token sourceName .eof))] := by
  rw [course, h]

theorem course_unmatched (hw : winner? (g.rulesOf s.mode) (c :: cs) = none) :
    course g sourceName (c :: cs) s =
      s.current.unmatched sourceName c ::
        course g sourceName cs (s.past [c] s.mode s.stack none) := by
  rw [course]
  split <;> simp_all

theorem course_underflow (hw : winner? (g.rulesOf s.mode) (c :: cs) = some (r, n))
    (hm : Action.modesAfter? s.mode s.stack r.actions = none) :
    course g sourceName (c :: cs) s =
      [(s.current.extend r ((c :: cs).take n)).ended (.failed .emptyModeStack)] := by
  rw [course]
  split <;> simp_all

theorem course_winner (hw : winner? (g.rulesOf s.mode) (c :: cs) = some (r, n))
    (hm : Action.modesAfter? s.mode s.stack r.actions = some (mode, stack)) :
    course g sourceName (c :: cs) s =
      let o := s.current.extend r ((c :: cs).take n)
      let go := fun attempt =>
        course g sourceName ((c :: cs).drop n) (s.past ((c :: cs).take n) mode stack attempt)
      match r.decision with
      | .token kind => o.ended (.token (o.token sourceName kind)) :: go none
      | .more => go (some o)
      | .skip => o.ended .skipped :: go none := by
  rw [course]
  split <;> simp_all

end

end ModalLex

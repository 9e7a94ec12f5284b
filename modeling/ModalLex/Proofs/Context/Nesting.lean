import ModalLex.Engine.Playback
import ModalLex.Proofs.Grammar.Effects
import ModalLex.Proofs.Lexer.Leftovers

/-!
# Nested modes

Calls on a context, in any order. A pop that fails leaves the context alone, so that whoever calls
may go on. Between a push and its pop the suspended modes below stay as they are, whatever is
pushed, popped or set there. Main statement: pops undo the pushes they match at any depth, and a pop
fails exactly when nothing is suspended, which the numbers of pushes and pops tell.
-/
namespace ModalLex

namespace Edit

@[match_pattern]
abbrev push (mode : ModeId) : Edit := .action (.pushMode mode)

@[match_pattern]
abbrev pop : Edit := .action .popMode

/-- Calls that have nothing to do with modes. -/
def isPassing : Edit → Bool
  | .action a => a.isPassing
  | .emit _ => true

def isPush : Edit → Bool
  | .push _ => true
  | _ => false

variable {c : Context}

theorem apply_passing {e : Edit} (he : e.isPassing = true) (c : Context) :
    ∃ d, e.apply c = (.ok (), d) ∧ d.mode = c.mode ∧ d.modeStack = c.modeStack := by
  cases e with
  | emit token => exact ⟨c.emit token, rfl, rfl, rfl⟩
  | action a =>
    obtain ⟨x, hx⟩ := Action.apply_passing he c
    exact ⟨c.leaving x, hx, rfl, rfl⟩

theorem apply_pop {top : ModeId} {below : List ModeId} (h : c.modeStack.modes = top :: below) :
    pop.apply c = (.ok (), { c with mode := top, modeStack := ⟨below⟩ }) :=
  Action.apply_popMode h

theorem apply_pop_empty (h : c.modeStack.modes = []) : pop.apply c = (.error .emptyModeStack, c) :=
  Action.apply_popMode_empty h

end Edit

namespace Context

/-- The context after some calls, those that failed included. -/
def after (c : Context) (calls : List Edit) : Context := calls.foldl (fun c e => (e.apply c).2) c

/-- The number of pops among some calls that succeed. -/
def returns (c : Context) : List Edit → Nat
  | [] => 0
  | e :: rest =>
    (if e = .pop ∧ (e.apply c).1.isOk = true then 1 else 0) + (e.apply c).2.returns rest

theorem after_cons (c : Context) (e : Edit) (rest : List Edit) :
    c.after (e :: rest) = (e.apply c).2.after rest := rfl

theorem after_append (c : Context) (before rest : List Edit) :
    c.after (before ++ rest) = (c.after before).after rest :=
  List.foldl_append

variable {c : Context}

/-- A pop fails for one reason only, and a failed pop changes nothing. -/
theorem popMode_error {c' : Context} {error : LexError} (h : c.popMode = (.error error, c')) :
    error = .emptyModeStack ∧ c.modeStack.size = 0 ∧ c' = c := by
  cases hs : c.modeStack.modes with
  | nil =>
    cases (popMode_empty hs).symm.trans h
    exact ⟨rfl, congrArg List.length hs, rfl⟩
  | cons top below => cases (popMode_cons hs).symm.trans h

theorem popMode_error_iff : c.popMode.1 = .error .emptyModeStack ↔ c.modeStack.size = 0 := by
  constructor
  · intro h
    exact (popMode_error (Prod.ext h rfl)).2.1
  · intro h
    exact congrArg Prod.fst (popMode_empty (List.eq_nil_of_length_eq_zero h))

/-- A push adds to the depth, a pop that succeeds takes from it, and nothing else counts. -/
theorem size_apply (c : Context) (e : Edit) :
    (e.apply c).2.modeStack.size + (if e = .pop ∧ (e.apply c).1.isOk = true then 1 else 0) =
      c.modeStack.size + (if e.isPush = true then 1 else 0) := by
  by_cases hpassing : e.isPassing = true
  · obtain ⟨d, hcall, -, hstack⟩ := Edit.apply_passing hpassing c
    have hpush : e.isPush = false := by
      cases e with
      | emit => rfl
      | action a => cases a <;> first | rfl | contradiction
    have hpop : e ≠ .pop := by
      rintro rfl
      contradiction
    rw [hcall, hstack, hpush, if_neg (fun h => hpop h.1)]
    rfl
  · cases e with
    | emit => contradiction
    | action a =>
      cases a with
      | popMode =>
        cases hs : c.modeStack.modes with
        | nil => simp [Edit.apply_pop_empty hs, Edit.isPush, Except.isOk, Except.toBool]
        | cons top below =>
          simp [Edit.apply_pop hs, Edit.isPush, ModeStack.size, hs, Except.isOk, Except.toBool]
      | pushMode mode => rfl
      | mode mode => rfl
      | skip | more | kind | channel | text => contradiction

theorem size_after (c : Context) (calls : List Edit) :
    (c.after calls).modeStack.size + c.returns calls =
      c.modeStack.size + calls.countP Edit.isPush := by
  induction calls generalizing c with
  | nil => rfl
  | cons e rest ih =>
    have hstep := size_apply c e
    have hrest := ih (e.apply c).2
    rw [after_cons, returns, List.countP_cons]
    omega

end Context

/-- Every push with its pop, at any depth. Only inside of one may the current mode be set; what has
nothing to do with modes may stand anywhere. -/
inductive Bracketed : Bool → List Edit → Prop
  | nil {inside : Bool} : Bracketed inside []
  | passing {inside : Bool} {e : Edit} {rest : List Edit} (he : e.isPassing = true)
      (hrest : Bracketed inside rest) : Bracketed inside (e :: rest)
  | set (mode : ModeId) {rest : List Edit} (hrest : Bracketed true rest) :
      Bracketed true (.action (.mode mode) :: rest)
  | bracket (mode : ModeId) {inside : Bool} {inner rest : List Edit} (hinner : Bracketed true inner)
      (hrest : Bracketed inside rest) : Bracketed inside (.push mode :: (inner ++ .pop :: rest))

/-- A pop that comes after the calls `before` matches the push that comes after `opening`. -/
def Closes (opening before : List Edit) : Prop :=
  ∃ mode inner, before = opening ++ .push mode :: inner ∧ Bracketed true inner

theorem Closes.prepend {opening before : List Edit} (earlier : List Edit)
    (h : Closes opening before) : Closes (earlier ++ opening) (earlier ++ before) := by
  obtain ⟨mode, inner, rfl, hinner⟩ := h
  exact ⟨mode, inner, (List.append_assoc ..).symm, hinner⟩

namespace Bracketed

variable {inside : Bool} {calls : List Edit}

/-- The suspended modes are restored, and so is the current one where it is not set. -/
theorem restores (h : Bracketed inside calls) (c : Context) :
    (c.after calls).modeStack = c.modeStack ∧
      (inside = false → (c.after calls).mode = c.mode) := by
  induction h generalizing c with
  | nil => exact ⟨rfl, fun _ => rfl⟩
  | passing he _ ih =>
    obtain ⟨d, hcall, hmode, hstack⟩ := Edit.apply_passing he c
    rw [Context.after_cons, hcall, ← hmode, ← hstack]
    exact ih d
  | set mode _ ih =>
    obtain ⟨hstack, -⟩ := ih (c.setMode mode)
    exact ⟨hstack, fun h => absurd h (by decide)⟩
  | bracket mode _ _ ihinner ihrest =>
    rename_i inner rest _ _
    obtain ⟨hstack, -⟩ := ihinner (c.pushMode mode)
    have hmodes : ((c.pushMode mode).after inner).modeStack.modes =
        c.mode :: c.modeStack.modes := congrArg ModeStack.modes hstack
    change ((c.pushMode mode).after (inner ++ .pop :: rest)).modeStack = c.modeStack ∧
      (_ → ((c.pushMode mode).after (inner ++ .pop :: rest)).mode = c.mode)
    rw [Context.after_append, Context.after_cons, Edit.apply_pop hmodes]
    exact ihrest _

/-- What comes before a pop goes on from whatever else comes first. -/
theorem cons_of_split {e : Edit} {tail before rest : List Edit} (he : e ≠ .pop)
    (h : e :: tail = before ++ .pop :: rest) :
    ∃ earlier, before = e :: earlier ∧ tail = earlier ++ .pop :: rest := by
  rcases List.cons_eq_append_iff.mp h with ⟨-, hpop⟩ | ⟨earlier, hbefore, htail⟩
  · exact absurd (List.cons.inj hpop).1.symm he
  · exact ⟨earlier, hbefore, htail⟩

/-- Every pop matches a push. -/
theorem closes (h : Bracketed inside calls) {before rest : List Edit}
    (hcalls : calls = before ++ .pop :: rest) : ∃ opening, Closes opening before := by
  induction h generalizing before rest with
  | nil => simp at hcalls
  | @passing _ e _ he _ ih =>
    have hne : e ≠ .pop := by
      rintro rfl
      contradiction
    obtain ⟨earlier, rfl, htail⟩ := cons_of_split hne hcalls
    obtain ⟨opening, hopening⟩ := ih htail
    exact ⟨_, hopening.prepend [e]⟩
  | set mode _ ih =>
    obtain ⟨earlier, rfl, htail⟩ := cons_of_split (by simp) hcalls
    obtain ⟨opening, hopening⟩ := ih htail
    exact ⟨_, hopening.prepend [.action (.mode mode)]⟩
  | bracket mode hinner _ ihinner ihrest =>
    rename_i _ inner _ _
    obtain ⟨earlier, rfl, htail⟩ := cons_of_split (by simp) hcalls
    have hclosed (h : earlier = inner) : ∃ opening, Closes opening (.push mode :: earlier) :=
      ⟨[], mode, inner, by rw [h, List.nil_append], hinner⟩
    -- The pop closes this bracket or comes later, or it closes it or stands inside.
    rcases List.append_eq_append_iff.mp htail with
      ⟨_ | ⟨p, between⟩, hearlier, hsplit⟩ | ⟨_ | ⟨p, between⟩, hinside, hsplit⟩
    · exact hclosed (hearlier.trans (List.append_nil inner))
    · obtain ⟨rfl, hlater⟩ := List.cons.inj hsplit
      obtain ⟨opening, hopening⟩ := ihrest hlater
      have hprepend := hopening.prepend (.push mode :: (inner ++ [.pop]))
      rw [hearlier]
      exact ⟨_, by simpa using hprepend⟩
    · exact hclosed (hinside.trans (List.append_nil earlier)).symm
    · obtain ⟨rfl, -⟩ := List.cons.inj hsplit
      obtain ⟨opening, hopening⟩ := ihinner hinside
      exact ⟨_, hopening.prepend [.push mode]⟩

end Bracketed

/-- A pop returns to the mode that the push it matches suspended. -/
theorem Closes.popMode {opening before : List Edit} (h : Closes opening before) (c : Context) :
    (c.after before).popMode.1 = .ok (c.after opening).mode := by
  obtain ⟨mode, inner, rfl, hinner⟩ := h
  obtain ⟨hstack, -⟩ := hinner.restores ((c.after opening).pushMode mode)
  rw [Context.after_append, Context.after_cons]
  exact congrArg Prod.fst (Context.popMode_cons (congrArg ModeStack.modes hstack))

/-- Modes nest. Of bracketed calls every pop succeeds and returns the mode that was current before
the push it matches, and together they leave the current and the suspended modes as they were. After
calls of any kind a pop fails exactly when as many pops succeeded as there were modes to suspend,
for no other reason, and then changes nothing. -/
theorem Context.modes_nest (c : Context) :
    (∀ calls, Bracketed false calls →
      (∀ before rest, calls = before ++ .pop :: rest → (∃ opening, Closes opening before) ∧
        ∀ opening, Closes opening before →
          (c.after before).popMode.1 = .ok (c.after opening).mode) ∧
      (c.after calls).mode = c.mode ∧ (c.after calls).modeStack = c.modeStack) ∧
    ∀ calls,
      ((c.after calls).popMode.1 = .error .emptyModeStack ↔
        c.modeStack.size + calls.countP Edit.isPush = c.returns calls) ∧
      ∀ error c', (c.after calls).popMode = (.error error, c') →
        error = .emptyModeStack ∧ c' = c.after calls := by
  refine ⟨fun calls hcalls => ⟨fun before rest hsplit => ?_, ?_⟩, fun calls => ⟨?_, ?_⟩⟩
  · exact ⟨hcalls.closes hsplit, fun _ hopening => hopening.popMode c⟩
  · obtain ⟨hstack, hmode⟩ := hcalls.restores c
    exact ⟨hmode rfl, hstack⟩
  · rw [popMode_error_iff]
    have hsize := c.size_after calls
    omega
  · intro error c' herror
    obtain ⟨hreason, -, hsame⟩ := popMode_error herror
    exact ⟨hreason, hsame⟩

/-- Two pushes, one inside of the other, from a context with a suspended mode. The mode set between
them is what the inner pop returns to; two more pops find one mode, then none. -/
theorem Context.modes_nest_inner :
    let c : Context := { initial with mode := ⟨4⟩, modeStack := ⟨[⟨2⟩]⟩ }
    let opening : List Edit := [.action .skip, .push ⟨7⟩, .action (.mode ⟨9⟩)]
    let before := opening ++ [.push ⟨8⟩, .action (.text "x"), .action (.mode ⟨5⟩)]
    let calls := before ++ [.pop, .action .more, .pop]
    Bracketed false calls ∧ Closes opening before ∧ (c.after before).popMode.1 = .ok ⟨9⟩ ∧
      (c.after calls).mode = ⟨4⟩ ∧ (c.after calls).modeStack = ⟨[⟨2⟩]⟩ ∧
      (c.after (calls ++ [.pop, .pop])).popMode.1 = .error .emptyModeStack ∧
      (c.after (calls ++ [.pop])).popMode =
        (.error .emptyModeStack, c.after (calls ++ [.pop])) := by
  intro c opening before calls
  have hinner : Bracketed true [.action (.text "x"), .action (.mode ⟨5⟩)] :=
    .passing rfl (.set _ .nil)
  have houter : Bracketed true (.action (.mode ⟨9⟩) :: .push ⟨8⟩ ::
      ([.action (.text "x"), .action (.mode ⟨5⟩)] ++ .pop :: [.action .more])) :=
    .set _ (.bracket _ hinner (.passing rfl .nil))
  have hall := Bracketed.bracket ⟨7⟩ houter (.nil : Bracketed false [])
  have hcalls : Bracketed false calls := .passing rfl hall
  have hcloses : Closes opening before := ⟨⟨8⟩, _, rfl, hinner⟩
  obtain ⟨hnested, hany⟩ := modes_nest c
  obtain ⟨hpops, hmode, hstack⟩ := hnested calls hcalls
  have hempty := (hany (calls ++ [.pop, .pop])).1.mpr (by decide)
  have hthen : (c.after (calls ++ [.pop])).popMode = (.error .emptyModeStack, _) :=
    Prod.ext ((hany (calls ++ [.pop])).1.mpr (by decide)) rfl
  obtain ⟨-, hsame⟩ := (hany (calls ++ [.pop])).2 _ _ hthen
  exact ⟨hcalls, hcloses, (hpops before _ rfl).2 opening hcloses, hmode, hstack, hempty,
    hthen.trans (congrArg _ hsame)⟩

end ModalLex

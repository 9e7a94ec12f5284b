import ModalLex.Engine.Rules
import ModalLex.Proofs.Grammar.Soundness
import ModalLex.Proofs.Lexer.Firing

/-!
# What the actions of a rule come to

Actions run in order on the shared context. In the end it is the last skip, more or kind among
them that decides, and the last channel and the last text that count; mode actions play on the
current mode and the suspended ones, and only a pop with none suspended fails.
-/
namespace ModalLex

namespace Context

variable {c : Context}

theorem popMode_cons {top : ModeId} {below : List ModeId} (h : c.modeStack.modes = top :: below) :
    c.popMode = (.ok top, { c with mode := top, modeStack := ⟨below⟩ }) := by
  simp only [popMode, ModeStack.pop, h]

/-- A pop with no mode suspended changes nothing. -/
theorem popMode_empty (h : c.modeStack.modes = []) : c.popMode = (.error .emptyModeStack, c) := by
  have hstack : (⟨[]⟩ : ModeStack) = c.modeStack := by rw [← h]
  simp only [popMode, ModeStack.pop, h]
  rw [hstack]

end Context

inductive Decision where
  | token (kind : TokenKind)
  | more
  | skip

def Decision.pending : Decision → Pending
  | .token kind => .valid kind
  | .more => .more
  | .skip => .skip

namespace Action

def decision? : Action → Option Decision
  | .skip => some .skip
  | .more => some .more
  | .kind k => some (.token k)
  | .popMode | .channel _ | .text _ | .pushMode _ | .mode _ => none

def channel? : Action → Option Channel
  | .channel ch => some ch
  | .skip | .more | .popMode | .kind _ | .text _ | .pushMode _ | .mode _ => none

def text? : Action → Option String
  | .text t => some t
  | .skip | .more | .popMode | .kind _ | .channel _ | .pushMode _ | .mode _ => none

/-- What the last of the actions that say something says. -/
def last? {α : Type} (f : Action → Option α) (actions : List Action) : Option α :=
  actions.reverse.findSome? f

theorem last?_append {α : Type} (f : Action → Option α) (as bs : List Action) :
    last? f (as ++ bs) = (last? f bs).or (last? f as) := by
  rw [last?, List.reverse_append, List.findSome?_append]
  rfl

theorem last?_cons {α : Type} (f : Action → Option α) (a : Action) (as : List Action) :
    last? f (a :: as) = (last? f as).or (f a) := by
  have hs : last? f [a] = f a := by
    rw [last?, List.reverse_singleton, List.findSome?_singleton]
  rw [← List.singleton_append, last?_append, hs]

/-- The current mode and the suspended ones, the most recent first, after some actions;
nothing if a pop finds none suspended. -/
def modesAfter? (mode : ModeId) (stack : List ModeId) :
    List Action → Option (ModeId × List ModeId)
  | [] => some (mode, stack)
  | .pushMode m :: rest => modesAfter? m (mode :: stack) rest
  | .mode m :: rest => modesAfter? m stack rest
  | .popMode :: rest =>
    match stack with
    | [] => none
    | top :: below => modesAfter? top below rest
  | .skip :: rest | .more :: rest | .kind _ :: rest | .channel _ :: rest | .text _ :: rest =>
    modesAfter? mode stack rest

/-- The context that actions leave when no pop fails. -/
def settled (c : Context) (actions : List Action) (mode : ModeId) (stack : List ModeId) :
    Context :=
  { c with
    mode
    modeStack := ⟨stack⟩
    pending := ((last? decision? actions).map Decision.pending).getD c.pending
    channel := (last? channel? actions).getD c.channel
    text := (last? text? actions).or c.text }

/-- What the first action says counts where the others say nothing. -/
theorem settled_cons {c c' : Context} {a : Action} (rest : List Action) (mode : ModeId)
    (stack : List ModeId) (hpending : c'.pending = (a.decision?.map Decision.pending).getD c.pending)
    (hchannel : c'.channel = a.channel?.getD c.channel) (htext : c'.text = a.text?.or c.text)
    (hemitted : c'.emitted = c.emitted) (hstart : c'.start = c.start) :
    settled c' rest mode stack = settled c (a :: rest) mode stack := by
  simp only [settled, last?_cons, Option.map_or, Option.getD_or, Option.or_assoc, hpending,
    hchannel, htext, hemitted, hstart]

theorem apply_popMode {c : Context} {top : ModeId} {below : List ModeId}
    (h : c.modeStack.modes = top :: below) :
    apply c .popMode = (.ok (), { c with mode := top, modeStack := ⟨below⟩ }) := by
  rw [apply, Context.popMode_cons h]
  rfl

theorem apply_popMode_empty {c : Context} (h : c.modeStack.modes = []) :
    apply c .popMode = (.error .emptyModeStack, c) := by
  rw [apply, Context.popMode_empty h]
  rfl

theorem applyAll_settled {c : Context} {actions : List Action} {mode : ModeId}
    {stack : List ModeId} (h : modesAfter? c.mode c.modeStack.modes actions = some (mode, stack)) :
    applyAll c actions = (.ok (), settled c actions mode stack) := by
  induction actions generalizing c with
  | nil =>
    obtain ⟨rfl, rfl⟩ := Prod.mk.inj (Option.some.inj h)
    rfl
  | cons a rest ih =>
    have key {c' : Context} (ha : apply c a = (.ok (), c'))
        (hm : modesAfter? c'.mode c'.modeStack.modes rest = some (mode, stack))
        (hs : settled c' rest mode stack = settled c (a :: rest) mode stack) :
        applyAll c (a :: rest) = (.ok (), settled c (a :: rest) mode stack) := by
      simp only [applyAll, ha]
      rw [ih hm, hs]
    cases a with
    | popMode =>
      rcases hs : c.modeStack.modes with _ | ⟨top, below⟩
      · rw [hs] at h
        contradiction
      · rw [hs] at h
        exact key (apply_popMode hs) h (settled_cons rest mode stack rfl rfl rfl rfl rfl)
    | _ => exact key rfl h (settled_cons rest mode stack rfl rfl rfl rfl rfl)

theorem applyAll_underflow {c : Context} {actions : List Action}
    (h : modesAfter? c.mode c.modeStack.modes actions = none) :
    (applyAll c actions).1 = .error .emptyModeStack := by
  induction actions generalizing c with
  | nil => contradiction
  | cons a rest ih =>
    cases a with
    | popMode =>
      rcases hs : c.modeStack.modes with _ | ⟨top, below⟩
      · simp only [applyAll, apply_popMode_empty hs]
      · rw [hs] at h
        simp only [applyAll, apply_popMode hs]
        exact ih h
    | _ => exact ih h

/-- Mode actions lead from declared modes to declared modes. -/
theorem modesAfter?_all {p : ModeId → Prop} {mode mode' : ModeId} {stack stack' : List ModeId}
    {actions : List Action} (h : modesAfter? mode stack actions = some (mode', stack'))
    (hm : p mode) (hs : ∀ m ∈ stack, p m)
    (ha : ∀ a ∈ actions, ∀ m, a.target? = some m → p m) : p mode' ∧ ∀ m ∈ stack', p m := by
  induction actions generalizing mode stack with
  | nil =>
    obtain ⟨rfl, rfl⟩ := Prod.mk.inj (Option.some.inj h)
    exact ⟨hm, hs⟩
  | cons a rest ih =>
    have hrest : ∀ b ∈ rest, ∀ m, b.target? = some m → p m :=
      fun b hb => ha b (List.mem_cons_of_mem _ hb)
    cases a with
    | popMode =>
      cases stack with
      | nil => contradiction
      | cons top below =>
        exact ih h (hs top List.mem_cons_self) (fun m hb => hs m (List.mem_cons_of_mem _ hb)) hrest
    | pushMode m =>
      refine ih h (ha _ List.mem_cons_self m rfl) ?_ hrest
      exact List.forall_mem_cons.mpr ⟨hm, hs⟩
    | mode m => exact ih h (ha _ List.mem_cons_self m rfl) hs hrest
    | _ => exact ih h hm hs hrest

theorem modesAfter?_append (mode : ModeId) (stack : List ModeId) (as bs : List Action) :
    modesAfter? mode stack (as ++ bs) =
      (modesAfter? mode stack as).bind fun reached => modesAfter? reached.1 reached.2 bs := by
  induction as generalizing mode stack with
  | nil => rfl
  | cons a rest ih =>
    cases a with
    | popMode =>
      cases stack with
      | nil => rfl
      | cons top below => exact ih top below
    | pushMode m => exact ih m (mode :: stack)
    | mode m => exact ih m stack
    | _ => exact ih mode stack

/-- Without a pop nothing underflows. -/
theorem modesAfter?_isSome {actions : List Action} (h : popMode ∉ actions) (mode : ModeId)
    (stack : List ModeId) : (modesAfter? mode stack actions).isSome := by
  induction actions generalizing mode stack with
  | nil => rfl
  | cons a rest ih =>
    have hrest : popMode ∉ rest := fun hp => h (List.mem_cons_of_mem _ hp)
    cases a with
    | popMode => exact absurd List.mem_cons_self h
    | pushMode m => exact ih hrest m (mode :: stack)
    | mode m => exact ih hrest m stack
    | _ => exact ih hrest mode stack

/-- An action that succeeds supplies no token and moves the modes as a run of it alone does. -/
theorem apply_ok {c c' : Context} {a : Action} (h : apply c a = (.ok (), c')) :
    c'.emitted = c.emitted ∧
      modesAfter? c.mode c.modeStack.modes [a] = some (c'.mode, c'.modeStack.modes) := by
  cases a with
  | popMode =>
    rcases hs : c.modeStack.modes with _ | ⟨top, below⟩
    · rw [apply_popMode_empty hs] at h
      cases h
    · rw [apply_popMode hs] at h
      cases h
      exact ⟨rfl, rfl⟩
  | _ =>
    cases h
    exact ⟨rfl, rfl⟩

/-- An action that fails changes nothing. -/
theorem apply_failed {c c' : Context} {a : Action} {e : LexError}
    (h : apply c a = (.error e, c')) : c' = c := by
  cases a with
  | popMode =>
    rcases hs : c.modeStack.modes with _ | ⟨top, below⟩
    · rw [apply_popMode_empty hs] at h
      cases h
      rfl
    · rw [apply_popMode hs] at h
      cases h
  | _ => cases h

@[simp]
theorem applyAll_emitted (c : Context) (actions : List Action) :
    (applyAll c actions).2.emitted = c.emitted := by
  induction actions generalizing c with
  | nil => rfl
  | cons a rest ih =>
    rw [applyAll]
    rcases hc : apply c a with ⟨e | _, c'⟩
    · exact congrArg Context.emitted (apply_failed hc)
    · exact (ih c').trans (apply_ok hc).1

/-- Also a run of actions that fails half-way leads from declared modes to declared modes. -/
theorem applyAll_all {p : ModeId → Prop} {c : Context} {actions : List Action} (hm : p c.mode)
    (hs : ∀ m ∈ c.modeStack.modes, p m)
    (ha : ∀ a ∈ actions, ∀ m, a.target? = some m → p m) :
    p (applyAll c actions).2.mode ∧ ∀ m ∈ (applyAll c actions).2.modeStack.modes, p m := by
  induction actions generalizing c with
  | nil => exact ⟨hm, hs⟩
  | cons a rest ih =>
    rw [applyAll]
    rcases hc : apply c a with ⟨e | _, c'⟩
    · obtain rfl := apply_failed hc
      exact ⟨hm, hs⟩
    · obtain ⟨hm', hs'⟩ := modesAfter?_all (apply_ok hc).2 hm hs fun b hb =>
        ha b (List.mem_singleton.mp hb ▸ List.mem_cons_self)
      exact ih hm' hs' fun b hb => ha b (List.mem_cons_of_mem _ hb)

end Action

namespace Rule

/-- What becomes of the attempt: the last of the rule's actions that decides, or else its own
kind. -/
def decision (r : Rule) : Decision :=
  (Action.last? Action.decision? r.actions).getD
    (match r.kind with
      | some kind => .token kind
      | none => .skip)

/-- A rule decides on a kind that one of its actions assigns, or on its own. -/
theorem kind_of_decision {r : Rule} {kind : TokenKind} (h : r.decision = .token kind) :
    Action.kind kind ∈ r.actions ∨ r.kind = some kind := by
  cases hd : Action.last? Action.decision? r.actions with
  | some d =>
    rw [decision, hd] at h
    obtain rfl : d = .token kind := h
    obtain ⟨a, ha, hk⟩ := List.exists_of_findSome?_eq_some hd
    cases a with
    | kind k =>
      obtain rfl := Decision.token.inj (Option.some.inj hk)
      exact .inl (List.mem_reverse.mp ha)
    | _ => cases hk
  | none =>
    rw [decision, hd] at h
    cases hk : r.kind with
    | none =>
      rw [hk] at h
      contradiction
    | some k =>
      rw [hk] at h
      exact .inr (congrArg some (Decision.token.inj h))

/-- Where no action assigns the end kind, no rule of a sound grammar makes an end token. -/
theorem decision_ne_eof {g : Grammar} (hg : g.Sound) (hn : g.NeverAssignsEof) {r : Rule}
    (hr : r ∈ g.rules) {kind : TokenKind} (h : r.decision = .token kind) : kind ≠ .eof := by
  rintro rfl
  rcases kind_of_decision h with ha | hk
  · exact hn r hr ha
  · exact absurd (hg.kind_ge r hr _ hk) (by decide)

/-- The driver settles a firing as the rule decides. -/
theorem orElse_asks (r : Rule) :
    Pending.orElse
        (((Action.last? Action.decision? r.actions).map Decision.pending).getD .invalid)
        (RuleEngine.asks r) = r.decision.pending := by
  cases hd : Action.last? Action.decision? r.actions with
  | none =>
    rw [decision, hd]
    cases hk : r.kind <;> simp only [RuleEngine.asks, hk] <;> rfl
  | some d =>
    rw [decision, hd]
    cases d <;> rfl

end Rule

end ModalLex

import ModalLex.Engine.Playback
import ModalLex.Lexer.Effectful
import ModalLex.Proofs.Lexer.Hushed
import ModalLex.Proofs.Lexer.Leftovers

/-!
# Tokens that an engine supplies

While an attempt lasts its engine may supply a token, which then stands for the one that the lexer
would build. The attempt is followed firing by firing, with what each of them does to the context.
Main statement: an attempt that comes to a kind answers with the last token that was supplied in it,
or else with one token of the factory; what was supplied in any other attempt answers no call.
-/
namespace ModalLex

namespace Edit

/-- The token that an edit supplies. -/
def emitted? : Edit → Option Token
  | emit token => some token
  | action _ => none

/-- The text that an edit puts in place of the matched characters. -/
def text? : Edit → Option String
  | action (.text text) => some text
  | action _ | emit _ => none

def channel? : Edit → Option Channel
  | action (.channel channel) => some channel
  | action _ | emit _ => none

/-- Of what a token is made from, an edit changes at most the one thing that it says. -/
theorem apply_fills {c c' : Context} {e : Edit} (h : apply c e = (.ok (), c')) :
    c'.emitted = e.emitted?.or c.emitted ∧ c'.text = e.text?.or c.text ∧
      some c'.channel = e.channel?.or (some c.channel) := by
  cases e with
  | emit token =>
    cases h
    exact ⟨rfl, rfl, rfl⟩
  | action a =>
    cases a with
    | popMode =>
      rcases hs : c.modeStack.modes with _ | ⟨top, below⟩
      · cases (Action.apply_popMode_empty hs).symm.trans h
      · cases (Action.apply_popMode hs).symm.trans h
        exact ⟨rfl, rfl, rfl⟩
    | skip | more | kind | channel | text | pushMode | mode =>
      cases h
      exact ⟨rfl, rfl, rfl⟩

end Edit

/-- A part of the context that edits may fill, and that nothing else in an attempt changes. -/
structure Slot (α : Type) where
  get : Context → Option α
  fill : Edit → Option α
  get_apply : ∀ {c c' : Context} {e : Edit}, Edit.apply c e = (.ok (), c') →
    get c' = (fill e).or (get c)
  get_pending : ∀ (c : Context) (pending : Pending), get { c with pending } = get c

namespace Slot

variable {α : Type}

/-- The last of what these edits fill the slot with. -/
def last (slot : Slot α) (edits : List Edit) : Option α := (edits.filterMap slot.fill).getLast?

def emitted : Slot Token :=
  ⟨Context.emitted, Edit.emitted?, fun h => (Edit.apply_fills h).1, fun _ _ => rfl⟩

def text : Slot String :=
  ⟨Context.text, Edit.text?, fun h => (Edit.apply_fills h).2.1, fun _ _ => rfl⟩

def channel : Slot Channel :=
  ⟨fun c => some c.channel, Edit.channel?, fun h => (Edit.apply_fills h).2.2, fun _ _ => rfl⟩

variable (slot : Slot α)

theorem last_append (edits more : List Edit) :
    slot.last (edits ++ more) = (slot.last more).or (slot.last edits) := by
  rw [last, last, last, List.filterMap_append, List.getLast?_append]

/-- Edits leave the last of what they fill the slot with, or else what it held. -/
theorem get_applyAll {c c' : Context} {edits : List Edit}
    (h : Edit.applyAll c edits = (.ok (), c')) : slot.get c' = (slot.last edits).or (slot.get c) := by
  induction edits generalizing c with
  | nil =>
    obtain ⟨-, rfl⟩ := Prod.mk.inj h
    rfl
  | cons e rest ih =>
    rw [Edit.applyAll] at h
    rcases he : Edit.apply c e with ⟨error | _, after⟩
    · rw [he] at h
      cases h
    · rw [he] at h
      rw [ih h, slot.get_apply he, ← Option.or_assoc, ← List.singleton_append, last_append]
      cases hf : slot.fill e <;> simp [last, hf]

end Slot

/-- What a firing comes to that leaves this pending type and supplied token, if it does not fail. -/
def Verdict.settled (emitted : Option Token) (pending : Pending) : Verdict :=
  match pending, emitted with
  | .valid _, some token => .injected token
  | pending, _ => .ofPending pending

namespace ActiveLexer

variable {σ ε : Type}

/-- Firings leave the source name and the factory alone. -/
structure SameMaker (l m : ActiveLexer σ ε) : Prop where
  sourceName_eq : m.sourceName = l.sourceName
  factory_eq : m.factory = l.factory

theorem SameMaker.refl (l : ActiveLexer σ ε) : SameMaker l l := ⟨rfl, rfl⟩

theorem SameMaker.trans {l m n : ActiveLexer σ ε} (h : SameMaker l m) (h' : SameMaker m n) :
    SameMaker l n :=
  ⟨h'.sourceName_eq.trans h.sourceName_eq, h'.factory_eq.trans h.factory_eq⟩

variable [CharStream σ] {l m : ActiveLexer σ ε}

/-- What settling leaves of the context: all but the pending type, and a supplied token that answers
the attempt. -/
structure Settled (c : Context) (v : Verdict) (m : ActiveLexer σ ε) : Prop where
  verdict_eq : v = .settled c.emitted m.context.pending
  context_eq : v = .ofPending m.context.pending →
    m.context = { c with pending := m.context.pending }
  text_eq : m.context.text = c.text
  channel_eq : m.context.channel = c.channel

theorem settle_settled (l : ActiveLexer σ ε) (asked : Pending) :
    Settled l.context (l.settle asked).1 (l.settle asked).2 ∧ SameMaker l (l.settle asked).2 := by
  rcases hla : CharStream.la l.input 1 with ⟨next, input⟩
  rw [settle_eq l asked hla]
  cases l.context.pending.orElse asked with
  | skip | more | invalid => exact ⟨⟨rfl, fun _ => rfl, rfl, rfl⟩, rfl, rfl⟩
  | valid kind =>
    have hnoted : (l.noted input next (.valid kind)).context.emitted = l.context.emitted := rfl
    rw [conclude, hnoted]
    cases he : l.context.emitted with
    | none =>
      refine ⟨⟨?_, fun _ => rfl, rfl, rfl⟩, rfl, rfl⟩
      rw [he]
      rfl
    | some token =>
      refine ⟨⟨?_, ?_, rfl, rfl⟩, rfl, rfl⟩
      · rw [he]
        rfl
      · intro hv
        cases hv

variable [RecognitionEngine ε]

theorem sameMaker_begin (l : ActiveLexer σ ε) : SameMaker l l.begin := ⟨rfl, rfl⟩

theorem recover_keeps {r : Except LexError Unit} (h : l.recover = (r, m)) :
    m.context = l.context ∧ SameMaker l m := by
  rcases hla : CharStream.la l.input 1 with ⟨_ | c, input⟩
  · rw [recover, hla] at h
    obtain ⟨-, rfl⟩ := Prod.mk.inj h
    exact ⟨rfl, rfl, rfl⟩
  · rw [recover, hla] at h
    obtain ⟨-, rfl⟩ := Prod.mk.inj h
    exact ⟨rfl, rfl, rfl⟩

/-- A firing fails, or it settles what the engine has left in the context. -/
theorem fire_settled (l : ActiveLexer σ ε) (start : TokenStart) :
    SameMaker l (l.fire start).2 ∧
      ((∃ e, (l.fire start).1 = .failed e) ∨
        Settled l.found.context (l.fire start).1 (l.fire start).2) := by
  rw [fire_eq l start (r := l.found) rfl]
  have hmaker : SameMaker l (l.recognized l.found) := ⟨rfl, rfl⟩
  rcases l.found.outcome with e | ⟨asked⟩ | ⟨from_, index⟩
  · exact ⟨hmaker, .inl ⟨e, rfl⟩⟩
  · obtain ⟨hsettled, hkept⟩ := (l.recognized l.found).settle_settled asked
    exact ⟨hmaker.trans hkept, .inr hsettled⟩
  · -- The context is not touched between the match and the settling that follows a recovery.
    dsimp only
    rcases hd : (l.recognized l.found).listeners.dispatch
      ((l.recognized l.found).diagnostic (l.recognized l.found).input start) with ⟨e | ⟨⟨⟩⟩, ls⟩
    · rw [giveUp_refused _ start hd]
      exact ⟨⟨rfl, rfl⟩, .inl ⟨e, rfl⟩⟩
    · rcases hr : recover { l.recognized l.found with listeners := ls } with ⟨e | ⟨⟨⟩⟩, n⟩
      · obtain ⟨-, hkept⟩ := recover_keeps hr
        rw [giveUp_stuck _ start hd hr]
        exact ⟨hmaker.trans ⟨hkept.sourceName_eq, hkept.factory_eq⟩, .inl ⟨e, rfl⟩⟩
      · obtain ⟨hcontext, hkept⟩ := recover_keeps hr
        obtain ⟨hsettled, hkept'⟩ := n.settle_settled .skip
        rw [giveUp_recovered _ start hd hr]
        rw [hcontext] at hsettled
        exact ⟨(hmaker.trans ⟨hkept.sourceName_eq, hkept.factory_eq⟩).trans hkept', .inr hsettled⟩

/-- A firing after which the attempt goes on leaves the context as the engine left it. -/
theorem fire_more {start : TokenStart} (h : l.fire start = (.more, m)) :
    SameMaker l m ∧ ∃ pending, m.context = { l.found.context with pending } := by
  obtain ⟨hkept, hfired⟩ := l.fire_settled start
  rw [h] at hkept hfired
  rcases hfired with ⟨e, he⟩ | hsettled
  · cases he
  · refine ⟨hkept, m.context.pending, hsettled.context_eq ?_⟩
    have hv := hsettled.verdict_eq
    rw [hv]
    cases hp : m.context.pending with
    | valid kind =>
      rw [hp] at hv
      cases hs : l.found.context.emitted <;> rw [hs] at hv <;> cases hv
    | skip | more | invalid => rfl

/-- A firing that comes to a kind: the attempt ends with the token in the slot, or with none. -/
theorem fire_valid {start : TokenStart} {kind : TokenKind} (hv : ∀ e, (l.fire start).1 ≠ .failed e)
    (hp : (l.fire start).2.context.pending = .valid kind) :
    (l.fire start).1 = .settled l.found.context.emitted (.valid kind) ∧
      Settled l.found.context (l.fire start).1 (l.fire start).2 := by
  obtain ⟨-, ⟨e, he⟩ | hsettled⟩ := l.fire_settled start
  · exact absurd he (hv e)
  · exact ⟨hp ▸ hsettled.verdict_eq, hsettled⟩

/-- These edits are what the engine does to the context in the firing from here, one after another.
One that it tries in vain changes nothing and is left out. -/
def Edited (l : ActiveLexer σ ε) (edits : List Edit) : Prop :=
  Edit.applyAll { l.context with pending := .invalid } edits = (.ok (), l.found.context)

/-- In an attempt that began at `start`, firings that all ask for more lead from `l` to `f`. -/
inductive Continues (start : TokenStart) :
    ActiveLexer σ ε → List (ActiveLexer σ ε) → ActiveLexer σ ε → Prop
  | here (f : ActiveLexer σ ε) : Continues start f [] f
  | more {l m f : ActiveLexer σ ε} {fs : List (ActiveLexer σ ε)} :
      l.fire start = (.more, m) → Continues start m fs f → Continues start l (l :: fs) f

/-- Before the end of the input is seen, `n` firings of attempts that each end in a skip lead from
`l` to `k`. -/
inductive Drops : ActiveLexer σ ε → (n : Nat) → ActiveLexer σ ε → Prop
  | none (k : ActiveLexer σ ε) : Drops k 0 k
  | skip {l f m k : ActiveLexer σ ε} {fs : List (ActiveLexer σ ε)} {n : Nat} :
      l.hitEof = false → Continues l.here l.begin fs f → f.fire l.here = (.skipped, m) →
        Drops m n k → Drops l (n + 1 + fs.length) k

/-- After attempts of `n` firings that were dropped, the attempt that begins in `k` comes to a kind
with a firing from `f`. -/
structure Finish (l : ActiveLexer σ ε) (n : Nat) (k : ActiveLexer σ ε)
    (fs : List (ActiveLexer σ ε)) (f : ActiveLexer σ ε) (kind : TokenKind) : Prop where
  drops : Drops l n k
  unended : k.hitEof = false
  continues : Continues k.here k.begin fs f
  goes : ∀ e, (f.fire k.here).1 ≠ .failed e
  pending_eq : (f.fire k.here).2.context.pending = .valid kind

variable {α : Type} {f k a b : ActiveLexer σ ε} {fs : List (ActiveLexer σ ε)} {n : Nat}
  {start : TokenStart} {kind : TokenKind}

theorem Edited.get_found (slot : Slot α) {edits : List Edit} (h : l.Edited edits) :
    slot.get l.found.context = (slot.last edits).or (slot.get l.context) := by
  rw [slot.get_applyAll h, slot.get_pending]

/-- From firing to firing of an attempt, a slot holds the last of what it was filled with. -/
theorem Continues.get_found (slot : Slot α) {edits : List (List Edit)}
    (h : Continues start l fs f) (hedits : List.Forall₂ Edited (fs ++ [f]) edits) :
    slot.get f.found.context = (slot.last edits.flatten).or (slot.get l.context) := by
  induction h generalizing edits with
  | here f =>
    obtain ⟨first, rest, hfirst, hrest, rfl⟩ := List.forall₂_cons_left_iff.mp hedits
    obtain rfl := List.forall₂_nil_left_iff.mp hrest
    rw [List.flatten_cons, List.flatten_nil, List.append_nil, hfirst.get_found]
  | more hfire _ ih =>
    obtain ⟨first, rest, hfirst, hrest, rfl⟩ := List.forall₂_cons_left_iff.mp hedits
    obtain ⟨-, pending, hcontext⟩ := fire_more hfire
    rw [ih hrest, hcontext, slot.get_pending, hfirst.get_found, List.flatten_cons,
      slot.last_append, Option.or_assoc]

theorem Continues.sameMaker (h : Continues start l fs f) : SameMaker l f := by
  induction h with
  | here f => exact .refl f
  | more hfire _ ih => exact (fire_more hfire).1.trans ih

theorem Drops.sameMaker (h : Drops l n k) : SameMaker l k := by
  induction h with
  | none k => exact .refl k
  | @skip l f m k fs n _ hcontinues hfire _ ih =>
    have hkept := (f.fire_settled l.here).1
    rw [hfire] at hkept
    exact ((l.sameMaker_begin.trans hcontinues.sameMaker).trans hkept).trans ih

theorem Finish.sameMaker (h : Finish l n k fs f kind) : SameMaker l (f.fire k.here).2 := by
  have hf : SameMaker l f := (h.drops.sameMaker.trans k.sameMaker_begin).trans h.continues.sameMaker
  exact hf.trans (f.fire_settled k.here).1

/-- What an attempt asks the factory for, by the edits of its firings. -/
theorem Finish.order_eq (h : Finish l n k fs f kind) {edits : List (List Edit)}
    (hedits : List.Forall₂ Edited (fs ++ [f]) edits) :
    (f.fire k.here).2.order kind k.here =
      { sourceName := l.sourceName
        kind
        text := Slot.text.last edits.flatten
        channel := (Slot.channel.last edits.flatten).getD .default
        span := ⟨CharStream.index k.input, CharStream.index (f.fire k.here).2.input,
          (RecognitionEngine.position k.engine).line,
          (RecognitionEngine.position k.engine).column⟩ } := by
  obtain ⟨-, hsettled⟩ := fire_valid h.goes h.pending_eq
  have htext : f.found.context.text = (Slot.text.last edits.flatten).or none :=
    h.continues.get_found Slot.text hedits
  have hchannel : some f.found.context.channel =
      (Slot.channel.last edits.flatten).or (some .default) :=
    h.continues.get_found Slot.channel hedits
  rw [Option.or_some, Option.some.injEq] at hchannel
  rw [order, hsettled.text_eq, hsettled.channel_eq, h.sameMaker.sourceName_eq, htext, hchannel,
    Option.or_none]
  rfl

section

variable {M : Type → Type} [Monad M] (create : (input : σ) → TokenRequest → M Token)

/-- What an attempt answers whose last firing leaves `l`: the token that was supplied, or else one
token of the factory. -/
def answerWith (l : ActiveLexer σ ε) (supplied : Option Token) (request : TokenRequest) :
    M (Except LexError Token × ActiveLexer σ ε) :=
  match supplied with
  | some token => pure (l.record token)
  | none => l.supply create request

theorem Continues.runWith_eq (h : Continues start l fs f) (fuel : Nat) :
    l.runWith create (fuel + fs.length) start = f.runWith create fuel start := by
  induction h with
  | here => rfl
  | more hfire _ ih =>
    rw [List.length_cons, ← Nat.add_assoc, runWith, hfire]
    exact ih

theorem searchWith_ended (he : l.hitEof = true) (budget : Nat) :
    l.searchWith create budget = l.supply create l.endOrder :=
  if_pos he

theorem searchWith_begun (he : l.hitEof = false) (budget : Nat) :
    l.searchWith create budget = l.begin.runWith create budget l.here :=
  if_neg (he ▸ Bool.false_ne_true)

/-- After a skip the search begins anew, with one firing less to make. -/
theorem runWith_skipped (h : f.fire start = (.skipped, m)) (fuel : Nat) :
    f.runWith create (fuel + 1) start = m.searchWith create fuel := by
  rw [runWith, h]
  rfl

theorem Drops.searchWith_eq (h : Drops l n k) (budget : Nat) :
    l.searchWith create (budget + n) = k.searchWith create budget := by
  induction h with
  | none => rfl
  | skip he hcontinues hfire _ ih =>
    rw [searchWith_begun create he, ← Nat.add_assoc, ← Nat.add_assoc, hcontinues.runWith_eq,
      runWith_skipped create hfire, ih]

/-- With firings enough, an attempt that comes to a kind answers with what is in the slot. -/
theorem Finish.searchWith_eq (h : Finish l n k fs f kind) {budget : Nat}
    (hb : n + fs.length < budget) :
    l.searchWith create budget =
      (f.fire k.here).2.answerWith create f.found.context.emitted
        ((f.fire k.here).2.order kind k.here) := by
  obtain ⟨hfire, -⟩ := fire_valid h.goes h.pending_eq
  obtain ⟨extra, rfl⟩ : ∃ extra, budget = extra + 1 + fs.length + n :=
    ⟨budget - (n + fs.length) - 1, by omega⟩
  rw [h.drops.searchWith_eq, searchWith_begun create h.unended, h.continues.runWith_eq, runWith]
  rcases hf : f.fire k.here with ⟨v, m⟩
  rw [hf] at hfire
  dsimp only at hfire
  subst hfire
  cases f.found.context.emitted <;> rfl

/-- How a search answers: it fails, without a call of the factory; it returns an end token, made by
one call; or it returns what an attempt that comes to a kind answers, after attempts that were
dropped. -/
inductive Answers (l : ActiveLexer σ ε) : M (Except LexError Token × ActiveLexer σ ε) → Prop
  | failed (e : LexError) (m : ActiveLexer σ ε) : Answers l (pure (.error e, m))
  | ended {n : Nat} {k : ActiveLexer σ ε} :
      Drops l n k → k.hitEof = true → Answers l (k.supply create k.endOrder)
  | finished {n : Nat} {k f : ActiveLexer σ ε} {fs : List (ActiveLexer σ ε)} {kind : TokenKind} :
      Finish l n k fs f kind →
        Answers l ((f.fire k.here).2.answerWith create f.found.context.emitted
          ((f.fire k.here).2.order kind k.here))

variable {create} {x : M (Except LexError Token × ActiveLexer σ ε)}

/-- An attempt that is dropped adds nothing to the answer of the search that goes on. -/
theorem Answers.after_skip (h : Answers create m x) (he : l.hitEof = false)
    (hcontinues : Continues l.here l.begin fs f) (hfire : f.fire l.here = (.skipped, m)) :
    Answers create l x := by
  cases h with
  | failed e m' => exact .failed e m'
  | ended hdrops hended => exact .ended (.skip he hcontinues hfire hdrops) hended
  | finished h => exact .finished { h with drops := .skip he hcontinues hfire h.drops }

variable (create)

/-- However far an attempt gets within the firings that it may make, it runs out of them, fails,
comes to a kind, or ends in a skip with firings left for the attempts after it. -/
theorem runWith_cases (l : ActiveLexer σ ε) (start : TokenStart) (fuel : Nat) :
    (∃ e m, l.runWith create fuel start = pure (.error e, m)) ∨
      ∃ fs f, Continues start l fs f ∧
        ((∀ e, (f.fire start).1 ≠ .failed e) ∧
            (∃ kind, (f.fire start).2.context.pending = .valid kind) ∧ fs.length < fuel ∨
          ∃ m left, f.fire start = (.skipped, m) ∧ left < fuel ∧
            l.runWith create fuel start = m.searchWith create left) := by
  induction fuel generalizing l with
  | zero => exact .inl ⟨_, l, rfl⟩
  | succ fuel ih =>
    have hsettled := (l.fire_settled start).2
    rcases hfire : l.fire start with ⟨v, m⟩
    rw [hfire] at hsettled
    cases v with
    | failed e => exact .inl ⟨e, m, by rw [runWith, hfire]⟩
    | skipped =>
      refine .inr ⟨[], l, .here l, .inr ⟨m, fuel, hfire, Nat.lt_succ_self fuel, ?_⟩⟩
      exact runWith_skipped create hfire fuel
    | more =>
      have hmore : l.runWith create (fuel + 1) start = m.runWith create fuel start := by
        rw [runWith, hfire]
      rw [hmore]
      rcases ih m with hfailed | ⟨fs, f, hcontinues, ⟨hgoes, hkind, hlen⟩ | ⟨k, left, hk, hlt, hrun⟩⟩
      · exact .inl hfailed
      · exact .inr ⟨l :: fs, f, .more hfire hcontinues,
          .inl ⟨hgoes, hkind, Nat.succ_lt_succ hlen⟩⟩
      · exact .inr ⟨l :: fs, f, .more hfire hcontinues,
          .inr ⟨k, left, hk, Nat.lt_succ_of_lt hlt, hrun⟩⟩
    | injected token | matched kind =>
      -- Only a kind makes a token of an attempt.
      refine .inr ⟨[], l, .here l, .inl ⟨?_, ?_, Nat.succ_pos fuel⟩⟩
      · rw [hfire]
        exact nofun
      · rcases hsettled with ⟨e, he⟩ | hsettled
        · cases he
        · have hv := hsettled.verdict_eq
          rw [hfire]
          cases hp : m.context.pending with
          | valid kind => exact ⟨kind, rfl⟩
          | skip | more | invalid =>
            dsimp only at hv
            rw [hp] at hv
            cases hv

/-- Whatever firings it may make, a search answers in one of the three ways. -/
theorem searchWith_answers (l : ActiveLexer σ ε) (budget : Nat) :
    Answers create l (l.searchWith create budget) := by
  induction budget using Nat.strong_induction_on generalizing l with
  | _ budget ih =>
  cases he : l.hitEof with
  | true =>
    rw [searchWith_ended create he]
    exact .ended (.none l) he
  | false =>
    have hbegun := searchWith_begun create he budget
    rcases runWith_cases create l.begin l.here budget with ⟨e, m, hfailed⟩ |
      ⟨fs, f, hcontinues, ⟨hgoes, ⟨kind, hkind⟩, hlen⟩ | ⟨m, left, hskip, hlt, hrun⟩⟩
    · rw [hbegun, hfailed]
      exact .failed e m
    · have hfinish : Finish l 0 l fs f kind := ⟨.none l, he, hcontinues, hgoes, hkind⟩
      rw [hfinish.searchWith_eq create (by omega)]
      exact .finished hfinish
    · rw [hbegun, hrun]
      exact (ih left hlt m).after_skip he hcontinues hskip

/-- What the call of a lexer returns when the search comes to `c`: the input is let go of. -/
def close (l : ActiveLexer σ ε) (c : Except LexError Token × ActiveLexer σ ε) :
    Except LexError Token × ActiveLexer σ ε :=
  (c.1, c.2.unpinned (CharStream.mark l.input).1)

variable [LawfulMonad M]

theorem nextTokenWith_eq (l : ActiveLexer σ ε) (budget : Nat) :
    l.nextTokenWith create budget = l.close <$> l.pinned.searchWith create budget := by
  rw [← bind_pure_comp]
  rfl

/-- With a factory that has no effects the driver is the lexer's own. -/
theorem runWith_pure (l : ActiveLexer σ ε) (start : TokenStart) (fuel : Nat)
    {factory : TokenFactory σ} (hf : l.factory = factory) :
    l.runWith (fun input r => pure (factory input r)) fuel start =
      (pure (l.run fuel start) : M (Except LexError Token × ActiveLexer σ ε)) := by
  induction fuel generalizing l start with
  | zero => rfl
  | succ fuel ih =>
    have hkept := (l.fire_settled start).1.factory_eq
    rw [runWith, run]
    rcases hfire : l.fire start with ⟨v, m⟩
    rw [hfire] at hkept
    have hm : m.factory = factory := hkept.trans hf
    cases v with
    | failed e | injected token => rfl
    | matched kind =>
      dsimp only
      rw [supply, map_pure, build, hm]
      rfl
    | more => exact ih m start hm
    | skipped =>
      dsimp only
      cases m.hitEof with
      | true =>
        rw [if_pos rfl, if_pos rfl, supply, map_pure, emitEof, hm]
        rfl
      | false =>
        rw [if_neg Bool.false_ne_true, if_neg Bool.false_ne_true]
        exact ih m.begin m.here hm

theorem nextTokenWith_pure (l : ActiveLexer σ ε) :
    l.nextTokenWith (fun input r => pure (l.factory input r)) l.pinned.patience =
      (pure l.nextToken : M (Except LexError Token × ActiveLexer σ ε)) := by
  have hsearch : l.pinned.searchWith (fun input r => pure (l.factory input r)) l.pinned.patience =
      (pure l.pinned.search : M (Except LexError Token × ActiveLexer σ ε)) := by
    rw [search]
    cases he : l.pinned.hitEof with
    | true =>
      rw [searchWith_ended _ he, if_pos rfl, supply, map_pure]
      rfl
    | false =>
      rw [searchWith_begun _ he, if_neg Bool.false_ne_true]
      exact runWith_pure l.pinned.begin l.pinned.here l.pinned.patience rfl
  rw [nextTokenWith_eq, hsearch, map_pure]
  rfl

end

end ActiveLexer

namespace ActiveLexer

variable {σ ε : Type} [CharStream σ] [RecognitionEngine ε] {M : Type → Type} [Monad M]
  [LawfulMonad M]

/-- Supplied tokens, over every engine and stream and every factory, whatever its effects.

An attempt that comes to a kind answers with the last token that its firings supplied, as it is and
without a call of the factory; where none was supplied it answers with what one call of the factory
makes. Within any number of firings a call answers so, or fails, or returns an end token. With a
factory that has no effects the call is the lexer's own, and the token it returns is the one that is
remembered. Whatever token is left as a call begins, by an attempt that failed, say, makes no
difference to what this call and those after it answer. -/
theorem nextToken_supplies (create : (input : σ) → TokenRequest → M Token) (a : ActiveLexer σ ε) :
    (∀ {n k fs f kind}, a.pinned.Finish n k fs f kind →
      ∀ edits, List.Forall₂ Edited (fs ++ [f]) edits → ∀ budget, n + fs.length < budget →
        a.nextTokenWith create budget = a.close <$>
          (f.fire k.here).2.answerWith create (Slot.emitted.last edits.flatten)
            { sourceName := a.sourceName
              kind
              text := Slot.text.last edits.flatten
              channel := (Slot.channel.last edits.flatten).getD .default
              span := ⟨CharStream.index k.input, CharStream.index (f.fire k.here).2.input,
                (RecognitionEngine.position k.engine).line,
                (RecognitionEngine.position k.engine).column⟩ }) ∧
      (∀ budget, ∃ x, a.pinned.Answers create x ∧ a.nextTokenWith create budget = a.close <$> x) ∧
      a.nextTokenWith (fun input r => pure (a.factory input r)) a.pinned.patience =
        (pure a.nextToken : M (Except LexError Token × ActiveLexer σ ε)) ∧
      (∀ b token, a.nextToken = (.ok token, b) → b.token = some token) ∧
      ∀ supplied n, ((a.toLexer.mapContext ({ · with emitted := supplied })).calls n).map Prod.fst =
        (a.toLexer.calls n).map Prod.fst := by
  refine ⟨?_, ?_, nextTokenWith_pure a, ?_, ?_⟩
  · intro n k fs f kind hfinish edits hedits budget hb
    have hemitted : f.found.context.emitted = (Slot.emitted.last edits.flatten).or none :=
      hfinish.continues.get_found Slot.emitted hedits
    rw [Option.or_none] at hemitted
    rw [nextTokenWith_eq, hfinish.searchWith_eq create hb, hfinish.order_eq hedits, hemitted]
    rfl
  · intro budget
    exact ⟨_, searchWith_answers create a.pinned budget, nextTokenWith_eq create a budget⟩
  · intro b token h
    have hcall : a.toLexer.nextToken = (.ok token, b.toLexer) := by
      rw [Lexer.nextToken_toLexer, h]
    exact Lexer.nextToken_token hcall
  · intro supplied n
    exact a.toLexer.calls_leaving { a.context.leftovers with emitted := supplied } n

/-- A factory that keeps what it was asked for. -/
def keepingOrders (input : TextStream) (r : TokenRequest) : StateM (List TokenRequest) Token := do
  modify (r :: ·)
  pure (TokenFactory.common input r)

def madeToken (text : String) : Token := ⟨⟨9⟩, .default, text, ⟨0, 1, 1, 0⟩, "made"⟩

/-- A lexer on `"abcde"`, one of whose attempts is dropped though a token is supplied in it, and one
of which takes two firings, that each supply a token; the second matches nothing, but sets a kind. -/
def supplying : ActiveLexer TextStream Playback :=
  { Lexer.detached (.ofScript
      [⟨1, 0, none, [.emit (madeToken "a")], .matched .skip⟩,
        ⟨1, 0, none, [.emit (madeToken "b"), .action (.text "x")], .matched .more⟩,
        ⟨1, 0, none, [.emit (madeToken "c"), .action (.kind ⟨7⟩)], .noViable⟩,
        ⟨1, 0, none, [.action (.channel .hidden)], .matched (.valid ⟨8⟩)⟩]) .common with
    sourceName := "inline"
    input := TextStream.ofString "abcde" "inline" }

/-- The first call answers with the last token supplied, and the factory is not asked; the second
finds none supplied and asks once. -/
theorem nextToken_supplies_script :
    ((supplying.nextTokenWith keepingOrders 3).run []).1.1 = .ok (madeToken "c") ∧
      ((supplying.nextTokenWith keepingOrders 3).run []).2 = [] ∧
      ((supplying.nextToken.2.nextTokenWith keepingOrders 1).run []).2 =
        [⟨"inline", ⟨8⟩, none, .hidden, ⟨4, 5, 1, 4⟩⟩] := by
  have hskip : supplying.pinned.begin.fire supplying.pinned.here =
      (.skipped, (supplying.pinned.begin.fire supplying.pinned.here).2) := rfl
  set k := (supplying.pinned.begin.fire supplying.pinned.here).2
  have hmore : k.begin.fire k.here = (.more, (k.begin.fire k.here).2) := rfl
  have hlast : ((k.begin.fire k.here).2.fire k.here).1 = .injected (madeToken "c") := rfl
  have hfinish : supplying.pinned.Finish 1 k [k.begin] (k.begin.fire k.here).2 ⟨7⟩ :=
    { drops := .skip rfl (.here _) hskip (.none k)
      unended := rfl
      continues := .more hmore (.here _)
      goes := by
        rw [hlast]
        exact nofun
      pending_eq := rfl }
  have hcall := (nextToken_supplies keepingOrders supplying).1 hfinish
    [[.emit (madeToken "b"), .action (.text "x")], [.emit (madeToken "c"), .action (.kind ⟨7⟩)]]
    (.cons rfl (.cons rfl .nil)) 3 (by decide)
  let l := supplying.nextToken.2.pinned
  have hlater : (l.begin.fire l.here).1 = .matched ⟨8⟩ := rfl
  have hfinish' : l.Finish 0 l [] l.begin ⟨8⟩ :=
    { drops := .none l
      unended := rfl
      continues := .here _
      goes := by
        rw [hlater]
        exact nofun
      pending_eq := rfl }
  have hcall' := (nextToken_supplies keepingOrders supplying.nextToken.2).1 hfinish'
    [[.action (.channel .hidden)]] (.cons rfl .nil) 1 (by decide)
  rw [hcall, hcall']
  exact ⟨rfl, rfl, rfl⟩

end ActiveLexer

end ModalLex

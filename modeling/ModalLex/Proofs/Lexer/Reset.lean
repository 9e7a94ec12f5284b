import Mathlib
import ModalLex.Proofs.Lexer.Handling
import ModalLex.Proofs.Lexer.Progress

/-!
# Starting over

A reset moves the input before it touches anything else, so that it either fails with nothing
changed or leaves a lexer that nothing tells from a new one. Another input always does the latter.
-/
namespace ModalLex

namespace Lexer

/-- A lexer built over an input, with these listeners in place of its own. -/
def built {σ : Type} [CharStream σ] (input : σ) (g : Grammar) (factory : TokenFactory σ)
    (listeners : Listeners) : Lexer σ RuleEngine :=
  { ofInput input (.ofGrammar g) factory with listeners }

section

variable {σ : Type} [CharStream σ] {l l' : Lexer σ RuleEngine} {input start : σ} {e : LexError}

theorem reset_detached (hi : l.input = none) : l.reset = (.ok (), l.detach) := by
  simp only [reset, hi, detach]

variable [RoamingView σ] {g : Grammar} {factory : TokenFactory σ} {src : List Char}

/-- A reset that fails has moved neither the input nor anything else. -/
theorem Idle.reset_failed (h : Idle g factory src l) (hr : l.reset = (.error e, l')) :
    l' = l := by
  cases h with
  | detached => cases hr
  | attached ha =>
    rcases ha.reset_cases with ⟨e', hreset⟩ | ⟨input, hreset, -⟩
    · cases hreset.symm.trans hr
      rfl
    · cases hreset.symm.trans hr

theorem Idle.setInput_eq (h : Idle g factory src l) (input : σ) :
    l.setInput input = built input g factory l.listeners := by
  cases h with
  | detached hg hf | attached _ hg hf =>
    subst hg hf
    rfl

/-- Where its start can be sought, a lexer that bears the name of its input becomes one built over
that start. -/
theorem Idle.reset_eq (h : Idle g factory src l) (hi : l.input = some input)
    (hs : CharStream.seek input 0 = (.ok (), start))
    (hname : CharStream.sourceName start = l.sourceName) :
    l.reset = (.ok (), built start g factory l.listeners) := by
  have hset := h.setInput_eq start
  rw [setInput, hname] at hset
  rw [reset_of_ok hi hs, ← hset]
  rfl

/-- A lexer that a session has led to, where it can be reset. -/
theorem Reachable.reset_eq {allowed : Request → Prop} {fits : σ → Prop} (hname : KeepsName σ)
    (h : Reachable g allowed fits factory src l) (hi : l.input = some input)
    (hs : CharStream.seek input 0 = (.ok (), start)) :
    l.reset = (.ok (), built start g factory l.listeners) := by
  have hkept := (hname l.sourceName).seek (h.named hname input hi) 0
  rw [hs] at hkept
  exact h.idle.reset_eq hi hs hkept

end

/-- The input of a lexer between calls stands in the text. -/
theorem Idle.rests {σ : Type} [CharStream σ] [RoamingView σ] {g : Grammar}
    {factory : TokenFactory σ} {src : List Char} {l : Lexer σ RuleEngine} {input : σ}
    (h : Idle g factory src l) (hi : l.input = some input) : TextView.Rests src input := by
  cases h with
  | detached => contradiction
  | attached ha =>
    obtain rfl := Option.some.inj hi
    exact ha.rests

end Lexer

theorem TextStream.seek_start {src : List Char} {s : TextStream} (h : TextView.Rests src s) :
    CharStream.seek s 0 = (.ok (), ofString (String.ofList src) s.name) := by
  obtain ⟨rfl, -⟩ := h
  show (Except.ok (), { s with pos := min 0 s.chars.size }) = _
  rw [Nat.zero_min, ofString, String.toList_ofList]

namespace Lexer

section

variable {g : Grammar} {allowed : Request → Prop} {src : List Char}

theorem Reachable.reset_text {fits : TextStream → Prop} {factory : TokenFactory TextStream}
    {l : Lexer TextStream RuleEngine} (h : Reachable g allowed fits factory src l) :
    ∃ new, l.reset = (.ok (), new) ∧ new.reset = (.ok (), new) ∧
      ∀ input, l.input = some input →
        new = built (TextStream.ofString (String.ofList src) input.name) g factory
          l.listeners := by
  cases hi : l.input with
  | none =>
    refine ⟨l.detach, reset_detached hi, reset_detached rfl, ?_⟩
    intro input he
    contradiction
  | some input =>
    have hs := TextStream.seek_start (h.idle.rests hi)
    refine ⟨_, h.reset_eq TextStream.keepsName hi hs, ?_, ?_⟩
    · -- The new lexer stands at the start already.
      rfl
    · intro _ he
      obtain rfl := Option.some.inj he
      rfl

variable {fits : WindowStream → Prop} {factory : TokenFactory WindowStream}
  {l : Lexer WindowStream RuleEngine} {input : WindowStream}

theorem reset_before_window (hi : l.input = some input) (ho : 0 < input.oldest) :
    l.reset.1 = .error (.illegalState (.seekBeforeWindow 0 input.oldest)) :=
  congrArg Prod.fst (reset_of_error hi (WindowStream.seek_before ho))

theorem Reachable.reset_window (h : Reachable g allowed fits factory src l)
    (hi : l.input = some input) (ho : input.oldest = 0) :
    ∃ start, input.seek 0 = (.ok (), start) ∧ start.index = 0 ∧
      l.reset = (.ok (), built start g factory l.listeners) := by
  have hrests : WindowStream.Represents src input := h.idle.rests hi
  obtain ⟨start, hs, -, hstart⟩ := hrests.seek_within (Nat.le_of_eq ho)
  exact ⟨start, hs, hstart.trans (Nat.zero_min _), h.reset_eq WindowStream.keepsName hi hs⟩

/-- Over a window a reset fails where the first character has been let go, and only there. -/
theorem Reachable.reset_window_cases (h : Reachable g allowed fits factory src l) :
    (∃ input, l.input = some input ∧ 0 < input.oldest ∧
        l.reset = (.error (.illegalState (.seekBeforeWindow 0 input.oldest)), l)) ∨
      ∃ new, l.reset = (.ok (), new) ∧ ∀ input, l.input = some input → input.oldest = 0 ∧
        ∃ start, input.seek 0 = (.ok (), start) ∧ start.index = 0 ∧
          new = built start g factory l.listeners := by
  cases hi : l.input with
  | none =>
    refine .inr ⟨l.detach, reset_detached hi, ?_⟩
    intro input he
    contradiction
  | some input =>
    by_cases ho : input.oldest = 0
    · obtain ⟨start, hs, hstart, hr⟩ := h.reset_window hi ho
      refine .inr ⟨_, hr, ?_⟩
      intro _ he
      obtain rfl := Option.some.inj he
      exact ⟨ho, start, hs, hstart, rfl⟩
    · have hpos : 0 < input.oldest := by omega
      have hr : l.reset = (_, l.reset.2) := Prod.ext (reset_before_window hi hpos) rfl
      exact .inl ⟨input, rfl, hpos, hr.trans (congrArg _ (h.idle.reset_failed hr))⟩

end

/-- Starting over is all or nothing. For every grammar and every lexer that a session has led to,
whatever it asked of the lexer: over a text in memory a reset succeeds, and the lexer then equals one
newly built over the text, with the same name, listeners and factory, so that nothing it is asked
tells them apart; a second reset changes nothing. Over a window a reset fails exactly when the first
character has been let go, and the lexer is as before; otherwise it equals one newly built over the
window moved to its first character. Another input makes a lexer that equals one newly built over
it, and gives the old input back as it was. -/
theorem reset_starts_over (g : Grammar) :
    (∀ {allowed : Request → Prop} {fits : TextStream → Prop} {factory : TokenFactory TextStream}
        {src : List Char} {l : Lexer TextStream RuleEngine},
      Reachable g allowed fits factory src l →
      ∃ new, l.reset = (.ok (), new) ∧ new.reset = (.ok (), new) ∧
        ∀ input, l.input = some input →
          new = built (TextStream.ofString (String.ofList src) input.name) g factory
            l.listeners) ∧
    (∀ {allowed : Request → Prop} {fits : WindowStream → Prop}
        {factory : TokenFactory WindowStream} {src : List Char} {l : Lexer WindowStream RuleEngine},
      Reachable g allowed fits factory src l →
      ((∃ e, l.reset.1 = .error e) ↔ ∃ input, l.input = some input ∧ 0 < input.oldest) ∧
        (∀ e l', l.reset = (.error e, l') → (∃ fault, e = .illegalState fault) ∧ l' = l) ∧
        ∀ new, l.reset = (.ok (), new) → ∀ input, l.input = some input →
          ∃ start, input.seek 0 = (.ok (), start) ∧ start.index = 0 ∧
            new = built start g factory l.listeners) ∧
    (∀ {σ : Type} [CharStream σ] [RoamingView σ] {allowed : Request → Prop} {fits : σ → Prop}
        {factory : TokenFactory σ} {src : List Char} {l : Lexer σ RuleEngine},
      Reachable g allowed fits factory src l → ∀ input : σ,
        l.replaceInput input = (l.input, built input g factory l.listeners)) := by
  refine ⟨Reachable.reset_text, ?_, ?_⟩
  · intro _ _ _ _ l h
    rcases h.reset_window_cases with ⟨input, hi, ho, hr⟩ | ⟨new, hr, hnew⟩
    · -- The first character has been let go.
      refine ⟨⟨?_, ?_⟩, ?_, ?_⟩
      · intro _
        exact ⟨input, hi, ho⟩
      · intro _
        exact ⟨_, congrArg Prod.fst hr⟩
      · intro e l' he
        cases hr.symm.trans he
        exact ⟨⟨_, rfl⟩, rfl⟩
      · intro new hn
        cases hr.symm.trans hn
    · refine ⟨⟨?_, ?_⟩, ?_, ?_⟩
      · rintro ⟨e, he⟩
        rw [hr] at he
        cases he
      · rintro ⟨input, hi, ho⟩
        exact absurd (hnew input hi).1 (Nat.ne_of_gt ho)
      · intro e l' he
        cases hr.symm.trans he
      · intro new' hn input hi
        cases hr.symm.trans hn
        exact (hnew input hi).2
  · intro _ _ _ _ _ _ _ l h input
    exact Prod.ext rfl (h.idle.setInput_eq input)

/-- The lexer after a call, in a mode and at a position of its caller's. -/
def strayed {σ : Type} [CharStream σ] (input : σ) : Lexer σ RuleEngine :=
  Request.perform (Request.perform (Request.perform
    (.ofInput input (.ofGrammar hollow) TokenFactory.common)
    .next) (.act (.mode ⟨7⟩))) (.setPosition ⟨9, 9⟩)

theorem reachable_strayed {σ : Type} [CharStream σ] [RoamingView σ] {src : List Char} {input : σ}
    (h : TextView.Rests src input) :
    Reachable hollow (fun _ => True) (fun _ => True) TokenFactory.common src (strayed input) :=
  .request (.request (.request (.ofInput h trivial) trivial) trivial) trivial

theorem reset_starts_over_strayed :
    Reachable hollow (fun _ => True) (fun _ => True) TokenFactory.common " a!".toList
        (strayed (TextStream.ofString " a!" "inline")) ∧
      (strayed (TextStream.ofString " a!" "inline")).reset =
        (.ok (), built (TextStream.ofString " a!" "inline") hollow TokenFactory.common
          (strayed (TextStream.ofString " a!" "inline")).listeners) ∧
      Reachable hollow (fun _ => True) (fun _ => True) TokenFactory.common " a!".toList
        (strayed (WindowStream.ofString " a!" "inline")) ∧
      Request.reset.perform (strayed (WindowStream.ofString " a!" "inline")) =
        strayed (WindowStream.ofString " a!" "inline") ∧
      (strayed (TextStream.ofString " a!" "inline")).replaceInput (TextStream.ofString "b" "next") =
        (some ⟨#[' ', 'a', '!'], 2, "inline"⟩,
          built (TextStream.ofString "b" "next") hollow TokenFactory.common
            (strayed (TextStream.ofString " a!" "inline")).listeners) := by
  have ht := reachable_strayed (TextStream.rests_ofString " a!" "inline")
  have hrests : TextView.Rests " a!".toList (WindowStream.ofString " a!" "inline") :=
    WindowStream.represents_ofString " a!" "inline"
  have hw := reachable_strayed hrests
  have htext : (strayed (TextStream.ofString " a!" "inline")).input =
      some ⟨#[' ', 'a', '!'], 2, "inline"⟩ := by cbv
  have hwindow : (strayed (WindowStream.ofString " a!" "inline")).input =
      some ⟨[], #['!'], 2, 0, 0, 3, "inline"⟩ := by cbv
  obtain ⟨hreset, hrefused, hreplaced⟩ := reset_starts_over hollow
  obtain ⟨new, hr, -, hnew⟩ := hreset ht
  obtain ⟨hiff, hsame, -⟩ := hrefused hw
  obtain ⟨e, he⟩ := hiff.mpr ⟨_, hwindow, by decide⟩
  refine ⟨ht, ?_, hw, (hsame e _ (Prod.ext he rfl)).2, ?_⟩
  · rw [hr, hnew _ htext, String.ofList_toList]
  · rw [hreplaced ht, htext]

end Lexer

end ModalLex

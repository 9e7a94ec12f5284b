import ModalLex.Proofs.Lexer.Session
import ModalLex.Proofs.Stream.Marks

/-!
# How a lexer handles its stream

A lexer and its engine touch the stream only through the stream's own operations: a match looks
ahead and steps, a call pins the stream and lets it go, and a reset seeks. What these operations
keep of a stream, every request keeps.
-/
namespace ModalLex

variable {σ : Type} [CharStream σ] {P : σ → Prop} {s : σ}

/-- The stream that a step leaves, whether it succeeds or fails. -/
theorem Position.consume_input (p : Position) (s : σ) :
    (p.consume s).2.2 = (CharStream.consume (CharStream.la s 1).2).2 := by
  rw [consume]
  dsimp only
  rcases CharStream.consume (CharStream.la s 1).2 with ⟨_ | _, t⟩ <;> rfl

/-- Looking at a stream and stepping it keep `P`. -/
structure ReadingKeeps (P : σ → Prop) : Prop where
  la : ∀ {s}, P s → ∀ n, P (CharStream.la s n).2
  consume : ∀ {s}, P s → P (CharStream.consume s).2

/-- Every operation on a stream keeps `P`. -/
structure HandlingKeeps (P : σ → Prop) : Prop extends ReadingKeeps P where
  mark : ∀ {s}, P s → P (CharStream.mark s).2
  release : ∀ {s}, P s → ∀ m, P (CharStream.release s m)
  seek : ∀ {s}, P s → ∀ n, P (CharStream.seek s n).2

namespace ReadingKeeps

section

variable (hP : ReadingKeeps P)

include hP

theorem step (p : Position) (h : P s) : P (p.consume s).2.2 := by
  rw [Position.consume_input]
  exact hP.consume (hP.la h 1)

theorem stepMany (n : Nat) (p : Position) (h : P s) : P (p.consumeMany n s).2.2 := by
  induction n generalizing p s with
  | zero => exact h
  | succ n ih =>
    have hs := hP.step p h
    rw [Position.consumeMany]
    rcases hc : p.consume s with ⟨e | _, p', t⟩ <;> rw [hc] at hs
    · exact hs
    · exact ih p' hs

theorem startsWith (chars : List Char) (offset : Int) (h : P s) :
    P (Pattern.startsWith chars s offset).2 := by
  induction chars generalizing s offset with
  | nil => exact h
  | cons c chars ih =>
    have hl := hP.la h (offset + 1)
    rw [Pattern.startsWith]
    split
    · rename_i hla
      rw [hla] at hl
      split
      · exact ih _ hl
      · exact hl
    · rename_i hla
      rwa [hla] at hl

theorem countMembers (members : CharSet) (limit : Nat) (offset : Int) (h : P s) :
    P (Pattern.countMembers members limit s offset).2 := by
  induction limit generalizing s offset with
  | zero => exact h
  | succ limit ih =>
    have hl := hP.la h (offset + 1)
    rw [Pattern.countMembers]
    split
    · rename_i hla
      rw [hla] at hl
      split
      · exact ih _ hl
      · exact hl
    · rename_i hla
      rwa [hla] at hl

end

mutual

theorem matchLength (hP : ReadingKeeps P) {s : σ} (h : P s) (offset : Int) :
    ∀ p : Pattern, P (Pattern.matchLength s offset p).2
  | .literal chars => hP.startsWith chars offset h
  | .set members _ max => hP.countMembers members (max.getD (CharStream.extent s)) offset h
  | .seq parts => matchLengths hP h offset parts

theorem matchLengths (hP : ReadingKeeps P) {s : σ} (h : P s) (offset : Int) :
    ∀ parts : List Pattern, P (Pattern.matchLengths s offset parts).2
  | [] => h
  | p :: parts => by
    have hp := matchLength hP h offset p
    rw [Pattern.matchLengths]
    split
    · rename_i hm
      rwa [hm] at hp
    · rename_i n t hm
      rw [hm] at hp
      have hps := matchLengths hP hp (offset + n) parts
      split <;> rename_i hms <;> rwa [hms] at hps

end

variable (hP : ReadingKeeps P)

include hP

theorem longest (best : Option (Rule × Nat)) (rules : List Rule) (h : P s) :
    P (RuleEngine.longest best s rules).2 := by
  induction rules generalizing best s with
  | nil => exact h
  | cons rule rules ih => exact ih _ (hP.matchLength h 0 rule.pattern)

theorem accept (e : RuleEngine) (context : Context) (rule : Rule) (length : Nat) (h : P s) :
    P (e.accept s context rule length).input := by
  have hs := hP.stepMany length e.position h
  rw [RuleEngine.accept]
  split
  · rename_i hc
    rwa [hc] at hs
  · rename_i hc
    rw [hc] at hs
    dsimp only
    split <;> exact hs

theorem matchToken (e : RuleEngine) (mode : ModeId) (context : Context) (h : P s) :
    P (e.matchToken s mode context).input := by
  have hl := hP.la h 1
  rw [RuleEngine.matchToken]
  dsimp only
  split
  · rename_i hla
    rwa [hla] at hl
  · rename_i hla
    rw [hla] at hl
    split
    · exact hl
    · rename_i m _
      have hr := hP.longest none m.rules hl
      split
      · rename_i hw
        rwa [hw] at hr
      · rename_i hw
        rw [hw] at hr
        exact hP.accept _ _ _ _ hr

variable {a : ActiveLexer σ RuleEngine}

theorem recover (h : P a.input) : P a.recover.2.input := by
  have hl := hP.la h 1
  rw [ActiveLexer.recover]
  split
  · rename_i hla
    rwa [hla] at hl
  · rename_i hla
    rw [hla] at hl
    exact hP.step a.engine.position hl

theorem settle (asked : Pending) (h : P a.input) : P (a.settle asked).2.input := by
  have hl := hP.la h 1
  rw [ActiveLexer.settle]
  dsimp only
  split
  · exact hl
  · exact hl
  · exact hl
  · split <;> exact hl

theorem giveUp (start : TokenStart) (h : P a.input) : P (a.giveUp start).2.input := by
  rw [ActiveLexer.giveUp]
  split
  · exact h
  · rename_i ls _
    have hr := hP.recover (a := { ls with input := a.input }) h
    split
    · rename_i he
      rwa [he] at hr
    · rename_i he
      rw [he] at hr
      exact hP.settle .skip hr

theorem fire (start : TokenStart) (h : P a.input) : P (a.fire start).2.input := by
  have hm := hP.matchToken a.engine a.context.mode { a.context with pending := .invalid } h
  rw [ActiveLexer.fire]
  dsimp only
  split
  · exact hm
  · exact hP.settle _ hm
  · exact hP.giveUp start hm

theorem run (fuel : Nat) (start : TokenStart) (h : P a.input) : P (a.run fuel start).2.input := by
  induction fuel generalizing a start with
  | zero => exact h
  | succ fuel ih =>
    have hf := hP.fire start h
    rw [ActiveLexer.run]
    split <;> rename_i he <;> rw [he] at hf
    · exact hf
    · exact hf
    · exact hf
    · exact ih start hf
    · split
      · exact hf
      · exact ih _ hf

theorem search (h : P a.input) : P a.search.2.input := by
  rw [ActiveLexer.search]
  split
  · exact h
  · exact hP.run _ _ h

end ReadingKeeps

namespace Lexer

/-- The input, where there is one, has a property. -/
def InputHas {σ : Type} (P : σ → Prop) (l : Lexer σ RuleEngine) : Prop :=
  ∀ input, l.input = some input → P input

theorem inputHas_some {σ : Type} {P : σ → Prop} {s : LexerState σ RuleEngine} {input : σ}
    (h : P input) : InputHas P ⟨s, some input⟩ := by
  intro _ he
  obtain rfl := Option.some.inj he
  exact h

theorem inputHas_detached {σ : Type} {P : σ → Prop} {l : Lexer σ RuleEngine}
    (h : l.input = none) : InputHas P l := by
  intro _ he
  rw [h] at he
  contradiction

theorem reset_input (l : Lexer σ RuleEngine) :
    l.reset.2.input = l.input.map fun input => (CharStream.seek input 0).2 := by
  obtain ⟨state, input⟩ := l
  cases input with
  | none => rfl
  | some input =>
    rcases hs : CharStream.seek input 0 with ⟨_ | _, start⟩
    · rw [reset_of_error rfl hs, Option.map_some, hs]
    · rw [reset_of_ok rfl hs, Option.map_some, hs]

end Lexer

namespace HandlingKeeps

variable (hP : HandlingKeeps P) {l : Lexer σ RuleEngine}

include hP

theorem nextToken (h : l.InputHas P) : l.nextToken.2.InputHas P := by
  rw [Lexer.nextToken]
  split
  · exact Lexer.inputHas_detached rfl
  · rename_i input hi
    refine Lexer.inputHas_some (hP.release (hP.search ?_) _)
    exact hP.mark (h input hi)

theorem recoverNoViable (h : l.InputHas P) : l.recoverNoViable.2.InputHas P := by
  rw [Lexer.recoverNoViable]
  split
  · exact h
  · rename_i input hi
    exact Lexer.inputHas_some (hP.recover (h input hi))

theorem recoverRuleFailure (h : l.InputHas P) : l.recoverRuleFailure.2.InputHas P := by
  rw [Lexer.recoverRuleFailure]
  split
  · exact h
  · rename_i input hi
    exact Lexer.inputHas_some (hP.consume (h input hi))

theorem reset (h : l.InputHas P) : l.reset.2.InputHas P := by
  intro start hs
  rw [Lexer.reset_input] at hs
  obtain ⟨input, hi, rfl⟩ := Option.map_eq_some_iff.mp hs
  exact hP.seek (h input hi) 0

/-- Every request keeps what the operations on a stream keep. -/
theorem perform (h : l.InputHas P) (r : Request) : (r.perform l).InputHas P := by
  cases r with
  | next => exact hP.nextToken h
  | take n => exact Tokens.take_keeps hP.nextToken (t := l.tokens) h n
  | all => exact Tokens.drain_keeps hP.nextToken (t := l.tokens) h l.patience
  | act action => exact h
  | setPosition p => exact h
  | notify =>
    rw [Request.perform, Lexer.notify]
    split
    · exact h
    · rename_i input hi
      exact Lexer.inputHas_some (h input hi)
  | recoverNoViable => exact hP.recoverNoViable h
  | recoverRuleFailure => exact hP.recoverRuleFailure h
  | reset => exact hP.reset h
  | addListener listener => exact h
  | removeListeners => exact h

end HandlingKeeps

/-- No operation on a stream renames it. -/
def KeepsName (σ : Type) [CharStream σ] : Prop :=
  ∀ name, HandlingKeeps fun s : σ => CharStream.sourceName s = name

theorem TextStream.keepsName : KeepsName TextStream := fun _ => {
  la := fun h _ => h
  consume {s} h := by
    change s.consume.2.name = _
    rw [TextStream.consume]
    split <;> exact h
  mark := id
  release := fun h _ => h
  seek h _ := h }

namespace WindowStream

@[simp]
theorem name_discard (s : WindowStream) : s.discard.name = s.name := by
  rw [discard]
  split <;> rfl

theorem keepsName : KeepsName WindowStream := fun _ => {
  la := by
    intro s h n
    cases n with
    | ofNat n => cases n <;> exact h
    | negSucc n => exact h
  consume {s} h := by
    change s.consume.2.name = _
    rcases consume_cases s with hs | hs <;> rw [hs]
    · exact (name_discard _).trans h
    · exact h
  mark := id
  release := fun h _ => (name_discard _).trans h
  seek {s} h n := by
    change (s.seek n).2.name = _
    rw [seek]
    dsimp only
    split
    · exact h
    split
    · exact (name_discard _).trans h
    split
    · exact h
    · exact (name_discard _).trans h }

end WindowStream

namespace Lexer

variable [RoamingView σ] {g : Grammar} {factory : TokenFactory σ} {src : List Char}
  {l : Lexer σ RuleEngine} {name : String}

theorem Idle.sourceName_nextToken (h : Idle g factory src l) :
    l.nextToken.2.sourceName = l.sourceName := by
  cases h with
  | detached => rfl
  | attached ha =>
    obtain ⟨n, hw⟩ := ha.nextToken.went
    exact hw.sourceName_eq

/-- No request renames a lexer. -/
theorem Idle.sourceName_perform (h : Idle g factory src l) (r : Request) :
    (r.perform l).sourceName = l.sourceName := by
  let Kept (l' : Lexer σ RuleEngine) := Idle g factory src l' ∧ l'.sourceName = l.sourceName
  have hcall {l' : Lexer σ RuleEngine} (h' : Kept l') : Kept l'.nextToken.2 :=
    ⟨h'.1.nextToken, h'.1.sourceName_nextToken.trans h'.2⟩
  cases r with
  | next => exact h.sourceName_nextToken
  | take n => exact (Tokens.take_keeps (P := Kept) hcall (t := l.tokens) ⟨h, rfl⟩ n).2
  | all => exact (Tokens.drain_keeps (P := Kept) hcall (t := l.tokens) ⟨h, rfl⟩ l.patience).2
  | notify =>
    rw [Request.perform, Lexer.notify]
    split <;> rfl
  | recoverNoViable =>
    cases h with
    | detached => rfl
    | attached ha =>
      obtain ⟨n, hw⟩ := ha.recover.went
      exact hw.sourceName_eq
  | recoverRuleFailure =>
    rw [Request.perform, Lexer.recoverRuleFailure]
    split <;> rfl
  | reset =>
    rw [Request.perform, Lexer.reset]
    split
    · rfl
    · split <;> rfl
  | act | setPosition | addListener | removeListeners => rfl

/-- A lexer that a session has led to bears the name of its input. -/
theorem Reachable.named {allowed : Request → Prop} {fits : σ → Prop} (hname : KeepsName σ)
    (h : Reachable g allowed fits factory src l) :
    l.InputHas (CharStream.sourceName · = l.sourceName) := by
  induction h with
  | ofInput => exact inputHas_some rfl
  | setInput => exact inputHas_some rfl
  | detached | detach => exact Lexer.inputHas_detached rfl
  | @request factory src l r hl _ ih =>
    rw [hl.idle.sourceName_perform]
    exact (hname l.sourceName).perform ih r
  | setFactory _ ih => exact ih

end Lexer

end ModalLex

import ModalLex.Proofs.Lexer.Calls
import ModalLex.Proofs.Lexer.Fired

/-!
# Runs without a budget

The driver's loops as relations. A derivation is a finite run of the loops; it lists the lexers
that the engine is fired from, one for each match asked of it. A budget that covers the list does
not show in the answer. Over a stream that shows a text a rule lexer's search always has a run,
with at most one firing more than there are characters left, and a run keeps what every firing
keeps.
-/
namespace ModalLex

open TextView

namespace ActiveLexer

section

variable {σ ε : Type} [CharStream σ] [RecognitionEngine ε]

/-- A search from inside an attempt: where the attempt began, the lexer, the lexers it is fired
from, and the answer with the lexer that is left. -/
inductive Runs : TokenStart → ActiveLexer σ ε → List (ActiveLexer σ ε) →
    Except LexError Token × ActiveLexer σ ε → Prop
  | failed {start l m e} : l.fire start = (.failed e, m) → Runs start l [l] (.error e, m)
  | injected {start l m token} :
      l.fire start = (.injected token, m) → Runs start l [l] (m.record token)
  | matched {start l m kind} :
      l.fire start = (.matched kind, m) → Runs start l [l] (m.record (m.build kind start))
  | more {start l m firings c} :
      l.fire start = (.more, m) → Runs start m firings c → Runs start l (l :: firings) c
  | ended {start l m} :
      l.fire start = (.skipped, m) → m.hitEof = true → Runs start l [l] m.emitEof
  | onward {start l m firings c} :
      l.fire start = (.skipped, m) → m.hitEof = false → Runs m.here m.begin firings c →
        Runs start l (l :: firings) c

/-- A search for a token: nothing is fired once the end has been seen. -/
inductive Searches : ActiveLexer σ ε → List (ActiveLexer σ ε) →
    Except LexError Token × ActiveLexer σ ε → Prop
  | ended {l} : l.hitEof = true → Searches l [] l.emitEof
  | begun {l firings c} :
      l.hitEof = false → Runs l.here l.begin firings c → Searches l firings c

/-- The lexer with its input pinned for a call. -/
def pinned (l : ActiveLexer σ ε) : ActiveLexer σ ε :=
  { l with input := (CharStream.mark l.input).2 }

def unpinned (l : ActiveLexer σ ε) (mark : Mark) : ActiveLexer σ ε :=
  { l with input := CharStream.release l.input mark }

variable {start : TokenStart} {l : ActiveLexer σ ε} {firings : List (ActiveLexer σ ε)}
  {c : Except LexError Token × ActiveLexer σ ε}

theorem Runs.run_eq (h : Runs start l firings c) (extra : Nat) :
    l.run (extra + firings.length) start = c := by
  induction h with
  | failed hfire | injected hfire | matched hfire => rw [List.length_singleton, run, hfire]
  | more hfire hruns ih =>
    rw [List.length_cons, ← Nat.add_assoc, run, hfire]
    exact ih
  | ended hfire he =>
    rw [List.length_singleton, run, hfire]
    exact if_pos he
  | onward hfire he hruns ih =>
    rw [List.length_cons, ← Nat.add_assoc, run, hfire]
    exact (if_neg (he ▸ Bool.false_ne_true)).trans ih

theorem Searches.search_eq (h : Searches l firings c) (hp : firings.length ≤ l.patience) :
    l.search = c := by
  cases h with
  | ended he => exact if_pos he
  | begun he hruns =>
    have hr := hruns.run_eq (l.patience - firings.length)
    rw [Nat.sub_add_cancel hp] at hr
    exact (if_neg (he ▸ Bool.false_ne_true)).trans hr

theorem nextToken_eq (l : ActiveLexer σ ε) : l.nextToken =
    (l.pinned.search.1, l.pinned.search.2.unpinned (CharStream.mark l.input).1) := rfl

variable {m : ActiveLexer σ ε} {firings' : List (ActiveLexer σ ε)}
  {c' : Except LexError Token × ActiveLexer σ ε}

theorem Runs.head (h : Runs start l firings c) : ∃ rest, firings = l :: rest := by
  cases h <;> exact ⟨_, rfl⟩

/-- What a run is, by what its first firing comes to. -/
theorem Runs.of_fire {v : Verdict} (h : Runs start l firings c) (hfire : l.fire start = (v, m)) :
    match v with
    | .failed e => firings = [l] ∧ c = (.error e, m)
    | .injected token => firings = [l] ∧ c = m.record token
    | .matched kind => firings = [l] ∧ c = m.record (m.build kind start)
    | .more => ∃ rest, firings = l :: rest ∧ Runs start m rest c
    | .skipped =>
      if m.hitEof then firings = [l] ∧ c = m.emitEof
      else ∃ rest, firings = l :: rest ∧ Runs m.here m.begin rest c := by
  cases h with
  | failed hs | injected hs | matched hs =>
    obtain ⟨rfl, rfl⟩ := Prod.mk.inj (hfire.symm.trans hs)
    exact ⟨rfl, rfl⟩
  | more hs hruns =>
    obtain ⟨rfl, rfl⟩ := Prod.mk.inj (hfire.symm.trans hs)
    exact ⟨_, rfl, hruns⟩
  | ended hs he =>
    obtain ⟨rfl, rfl⟩ := Prod.mk.inj (hfire.symm.trans hs)
    rw [if_pos he]
    exact ⟨rfl, rfl⟩
  | onward hs he hruns =>
    obtain ⟨rfl, rfl⟩ := Prod.mk.inj (hfire.symm.trans hs)
    rw [if_neg (he ▸ Bool.false_ne_true)]
    exact ⟨_, rfl, hruns⟩

/-- A run is determined by where it begins. -/
theorem Runs.unique (h : Runs start l firings c) (h' : Runs start l firings' c') :
    firings' = firings ∧ c' = c := by
  induction h generalizing firings' with
  | failed hs | injected hs | matched hs => exact h'.of_fire hs
  | more hs _ ih =>
    obtain ⟨rest, rfl, hrest⟩ := h'.of_fire hs
    obtain ⟨rfl, rfl⟩ := ih hrest
    exact ⟨rfl, rfl⟩
  | ended hs he =>
    have hend := h'.of_fire hs
    dsimp only at hend
    rwa [if_pos he] at hend
  | onward hs he _ ih =>
    have hrest := h'.of_fire hs
    dsimp only at hrest
    rw [if_neg (he ▸ Bool.false_ne_true)] at hrest
    obtain ⟨rest, rfl, hrest⟩ := hrest
    obtain ⟨rfl, rfl⟩ := ih hrest
    exact ⟨rfl, rfl⟩

theorem Searches.unique (h : Searches l firings c) (h' : Searches l firings' c') :
    firings' = firings ∧ c' = c := by
  cases h with
  | ended he =>
    cases h' with
    | ended => exact ⟨rfl, rfl⟩
    | begun he' => exact absurd (he.symm.trans he') (by decide)
  | begun he hruns =>
    cases h' with
    | ended he' => exact absurd (he.symm.trans he') (by decide)
    | begun _ hruns' => exact hruns.unique hruns'

end

variable {σ : Type} [CharStream σ] [LawfulView σ] {src : List Char} {kept : Nat}
  {start : TokenStart} {l : ActiveLexer σ RuleEngine} {firings : List (ActiveLexer σ RuleEngine)}
  {c : Except LexError Token × ActiveLexer σ RuleEngine}

theorem Working.begin (hs : Shows src kept l.input)
    (he : l.hitEof = true → CharStream.index l.input = src.length) : Working src kept l.begin :=
  ⟨hs, rfl, he⟩

/-- A search has a run: what is left of the text shrinks from firing to firing. -/
theorem exists_runs (h : Working src kept l) (start : TokenStart) :
    ∃ firings c, Runs start l firings c ∧
      firings.length ≤ src.length - CharStream.index l.input + 1 := by
  induction hleft : src.length - CharStream.index l.input using Nat.strong_induction_on
    generalizing l start with
  | _ left ih =>
  rcases hfire : l.fire start with ⟨v, m⟩
  have hfired := h.fired hfire
  have hm := hfired.working h
  have one : [l].length ≤ left + 1 := Nat.succ_le_succ (Nat.zero_le _)
  have fewer {k : Nat} (hk : 0 < k) (ht : Took src kept l k m) :
      src.length - CharStream.index m.input < left := by
    have hle := hm.index_le
    have hi := ht.index_eq
    omega
  have skip {k : Nat} (hk : 0 < k) (ht : Took src kept l k m) (hs : l.fire start = (.skipped, m)) :
      ∃ firings c, Runs start l firings c ∧ firings.length ≤ left + 1 := by
    have hlt := fewer hk ht
    cases he : m.hitEof with
    | true => exact ⟨[l], _, .ended hs he, one⟩
    | false =>
      obtain ⟨firings, c, hruns, hlen⟩ := ih _ hlt (.begin hm.shows hm.eof_imp) m.here rfl
      exact ⟨l :: firings, c, .onward hs he hruns, Nat.succ_le_succ (by omega)⟩
  cases hfired with
  | ended => exact ⟨[l], _, .matched hfire, one⟩
  | undeclared | underflow | refused => exact ⟨[l], _, .failed hfire, one⟩
  | @won _ r n _ _ hw hmodes ht =>
    have hpos := (winner_bounds hw).1
    have hlt := fewer hpos ht
    cases hd : r.decision with
    | token kind =>
      rw [hd] at hfire
      exact ⟨[l], _, .matched hfire, one⟩
    | more =>
      rw [hd] at hfire
      obtain ⟨firings, c, hruns, hlen⟩ := ih _ hlt hm start rfl
      exact ⟨l :: firings, c, .more hfire hruns, Nat.succ_le_succ (by omega)⟩
    | skip =>
      rw [hd] at hfire
      exact skip hpos ht hfire
  | unmatched hw hlook hread hd ht => exact skip Nat.one_pos ht hfire

theorem exists_searches (hs : Shows src kept l.input)
    (he : l.hitEof = true → CharStream.index l.input = src.length) :
    ∃ firings, Searches l firings l.search ∧
      firings.length ≤ src.length - CharStream.index l.input + 1 := by
  cases hflag : l.hitEof with
  | true =>
    have hended := Searches.ended hflag
    exact ⟨[], (hended.search_eq (Nat.zero_le _)) ▸ hended, Nat.zero_le _⟩
  | false =>
    obtain ⟨firings, c, hruns, hlen⟩ := exists_runs (.begin hs he) l.here
    have hbegun := Searches.begun hflag hruns
    refine ⟨firings, ?_, hlen⟩
    have hp : firings.length ≤ l.patience := by
      rw [patience, LawfulView.extent_eq hs]
      change firings.length ≤ src.length - CharStream.index l.input + 1 at hlen
      omega
    rwa [hbegun.search_eq hp]

/-- What every firing keeps, all firings of a run and the lexer that it leaves have. -/
theorem Runs.keeps {P : ActiveLexer σ RuleEngine → Prop} (hr : Runs start l firings c)
    (hbegin : ∀ {l}, P l → P l.begin)
    (hrecord : ∀ {l : ActiveLexer σ RuleEngine} (token : Token), P l →
      P { l with token := some token })
    (hfire : ∀ {start l v m}, Working src kept l → P l → Fired src kept start l v m → P m)
    (h : Working src kept l) (hl : P l) :
    (∀ f ∈ firings, Working src kept f ∧ P f) ∧ Working src kept c.2 ∧ P c.2 := by
  have one {l : ActiveLexer σ RuleEngine} (h : Working src kept l) (hl : P l) :
      ∀ f ∈ [l], Working src kept f ∧ P f :=
    List.forall_mem_singleton.mpr ⟨h, hl⟩
  induction hr with
  | failed hs =>
    have hf := h.fired hs
    exact ⟨one h hl, hf.working h, hfire h hl hf⟩
  | injected hs | matched hs | ended hs =>
    have hf := h.fired hs
    exact ⟨one h hl, { hf.working h with }, hrecord _ (hfire h hl hf)⟩
  | more hs hruns ih =>
    have hf := h.fired hs
    obtain ⟨hall, hc⟩ := ih (hf.working h) (hfire h hl hf)
    exact ⟨List.forall_mem_cons.mpr ⟨⟨h, hl⟩, hall⟩, hc⟩
  | onward hs he hruns ih =>
    have hf := h.fired hs
    have hm := hf.working h
    obtain ⟨hall, hc⟩ := ih (.begin hm.shows hm.eof_imp) (hbegin (hfire h hl hf))
    exact ⟨List.forall_mem_cons.mpr ⟨⟨h, hl⟩, hall⟩, hc⟩

theorem Runs.took (hr : Runs start l firings c) (h : Working src kept l) :
    Working src kept c.2 ∧ ∃ n, Took src kept l n c.2 := by
  refine (hr.keeps (P := fun m => ∃ n, Took src kept l n m) ?_ ?_ ?_ h ⟨0, .refl l, h.shows⟩).2
  · rintro m ⟨n, ht⟩
    exact ⟨n, { ht with }⟩
  · rintro m token ⟨n, ht⟩
    exact ⟨n, { ht with }⟩
  · rintro start m v m' - ⟨n, ht⟩ hf
    obtain ⟨k, hk⟩ := hf.took
    exact ⟨n + k, ht.trans hk⟩

end ActiveLexer

/-- A call for the next token: a search while the input is pinned. -/
inductive Lexer.Asks {σ ε : Type} [CharStream σ] [RecognitionEngine ε] :
    Lexer σ ε → List (ActiveLexer σ ε) → Except LexError Token × Lexer σ ε → Prop
  | detached (s : LexerState σ ε) : Asks ⟨s, none⟩ [] (.error .noInput, ⟨s, none⟩)
  | searched {a : ActiveLexer σ ε} {firings c} : a.pinned.Searches firings c →
      Asks a.toLexer firings (c.1, (c.2.unpinned (CharStream.mark a.input).1).toLexer)

end ModalLex

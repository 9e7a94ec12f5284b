import Mathlib
import ModalLex.Proofs.Lexer.Progress
import ModalLex.Proofs.Tokenization.Attempts

/-!
# Lines and columns follow the text

The engine counts lines and columns as it steps, apart from the stream's index. As long as nobody
sets its position and nothing steps the stream without it, the position stays the one that the
characters before the index give. What an attempt returns or reports carries the position of the
attempt's first character.
-/
namespace ModalLex

open TextView

namespace Position

/-- The position behind some characters: a line more for every line feed, and a column for every
character since the last one. -/
def behind (chars : List Char) : Position where
  line := 1 + chars.count '\n'
  column := (chars.reverse.takeWhile (· ≠ '\n')).length

@[simp]
theorem behind_nil : behind [] = initial := rfl

/-- Stepping over characters one by one comes to the same. -/
theorem advance_initial (chars : List Char) : initial.advance chars = behind chars := by
  induction chars using List.reverseRecOn with
  | nil => rfl
  | append_singleton chars c ih =>
    rw [advance_append, ih]
    change (behind chars).after (some c) = _
    by_cases hc : c = '\n'
    · subst hc
      simp [after, behind, Nat.add_assoc]
    · simp [after, behind, hc]

end Position

namespace Lexer

/-- The position is the one that the characters before the index give. -/
def AtPlace {σ : Type} [CharStream σ] (src : List Char) (l : Lexer σ RuleEngine) : Prop :=
  l.position = .behind (src.take l.charIndex)

end Lexer

theorem ActiveLexer.Went.atPlace {σ : Type} [CharStream σ] {src : List Char} {n : Nat}
    {l m : ActiveLexer σ RuleEngine} (h : Went src l n m) (hl : l.toLexer.AtPlace src) :
    m.toLexer.AtPlace src := by
  change m.engine.position = .behind (src.take (CharStream.index m.input))
  have hp : l.engine.position = .behind (src.take (CharStream.index l.input)) := hl
  rw [h.position_eq, hp, h.index_eq, ← Position.advance_initial, ← Position.advance_initial,
    List.take_add, Position.advance_append]

/-- All requests but those that set the position or step the stream alone. -/
def Request.FollowsText : Request → Prop
  | .setPosition _ | .recoverRuleFailure => False
  | .next | .take _ | .all | .act _ | .notify | .recoverNoViable | .reset | .addListener _
  | .removeListeners => True

namespace Lexer

variable {σ : Type} [CharStream σ] [RoamingView σ] {g : Grammar} {factory : TokenFactory σ}
  {src : List Char} {l : Lexer σ RuleEngine}

theorem Idle.nextToken_atPlace (h : Idle g factory src l) (hp : l.AtPlace src) :
    l.nextToken.2.AtPlace src := by
  cases h with
  | detached => exact hp
  | attached ha =>
    obtain ⟨n, hw⟩ := ha.nextToken.went
    exact hw.atPlace hp

theorem Idle.recover_atPlace (h : Idle g factory src l) (hp : l.AtPlace src) :
    l.recoverNoViable.2.AtPlace src := by
  cases h with
  | detached => exact hp
  | attached ha =>
    obtain ⟨n, hw⟩ := ha.recover.went
    exact hw.atPlace hp

theorem Idle.notify_atPlace (h : Idle g factory src l) (hp : l.AtPlace src) :
    l.notify.2.AtPlace src := by
  cases h with
  | detached | attached => exact hp

omit [RoamingView σ] in
/-- At the start nothing is behind. -/
theorem atPlace_start {s : LexerState σ RuleEngine} {input : σ}
    (hs : s.engine.position = .initial) (hi : CharStream.index input = 0) :
    AtPlace src ⟨s, some input⟩ := by
  change s.engine.position = .behind (src.take (CharStream.index input))
  rw [hi, hs, List.take_zero, Position.behind_nil]

theorem Idle.reset_atPlace (h : Idle g factory src l) (hp : l.AtPlace src) :
    l.reset.2.AtPlace src := by
  cases h with
  | detached => rfl
  | attached ha =>
    rcases ha.reset_cases with ⟨e, hreset⟩ | ⟨input, hreset, -, hi⟩
    · rw [hreset]
      exact hp
    · rw [hreset]
      exact atPlace_start rfl hi

theorem Idle.perform_atPlace (h : Idle g factory src l) (hp : l.AtPlace src) {r : Request}
    (hr : r.FollowsText) : (r.perform l).AtPlace src := by
  let P := fun l : Lexer σ RuleEngine => Idle g factory src l ∧ l.AtPlace src
  have hcall {l : Lexer σ RuleEngine} (h : P l) : P l.nextToken.2 :=
    ⟨h.1.nextToken, h.1.nextToken_atPlace h.2⟩
  cases r with
  | next => exact h.nextToken_atPlace hp
  | take n => exact (Tokens.take_keeps (P := P) hcall (t := l.tokens) ⟨h, hp⟩ n).2
  | all => exact (Tokens.drain_keeps (P := P) hcall (t := l.tokens) ⟨h, hp⟩ l.patience).2
  | act action => exact hp
  | notify => exact h.notify_atPlace hp
  | recoverNoViable => exact h.recover_atPlace hp
  | reset => exact h.reset_atPlace hp
  | addListener | removeListeners => exact hp
  | setPosition | recoverRuleFailure => exact hr.elim

/-- The lexers of a session that never sets the position, and whose inputs start at their start. -/
theorem Reachable.atPlace
    (h : Reachable g Request.FollowsText (CharStream.index · = 0) factory src l) :
    l.AtPlace src := by
  induction h with
  | ofInput _ fit | setInput _ _ fit => exact atPlace_start rfl fit
  | detached | detach => rfl
  | request reachable allow ih => exact reachable.idle.perform_atPlace ih allow
  | setFactory _ ih => exact ih

end Lexer

/-- What was delivered, whatever the inbox. -/
def Log.diagnostics (log : Log) : List Diagnostic := log.entries.toList.map Prod.snd

def Diagnostic.position (d : Diagnostic) : Position := ⟨d.line, d.column⟩

def Span.position (s : Span) : Position := ⟨s.line, s.column⟩

def TokenStart.position (s : TokenStart) : Position := ⟨s.line, s.column⟩

/-- A dispatch delivers nothing but its diagnostic. -/
theorem Listeners.dispatch_log {ls ls' : Listeners} {d : Diagnostic} {r : Except LexError Unit}
    (h : ls.dispatch d = (r, ls')) :
    ∃ es, ls'.log.entries.toList = ls.log.entries.toList ++ es ∧ ∀ e ∈ es, e.2 = d := by
  have hall : ∀ (registered : List Listener) (log : Log), ∃ es,
      (deliverAll d registered log).2.entries.toList = log.entries.toList ++ es ∧
        ∀ e ∈ es, e.2 = d := by
    intro registered
    induction registered with
    | nil => exact fun log => ⟨[], (List.append_nil _).symm, fun e he => absurd he List.not_mem_nil⟩
    | cons l rest ih =>
      intro log
      have hone : (log.deliver l.inbox d).entries.toList = log.entries.toList ++ [(l.inbox, d)] :=
        Array.toList_push
      rw [deliverAll]
      cases l.refuses log d with
      | some e => exact ⟨[(l.inbox, d)], hone, List.forall_mem_singleton.mpr rfl⟩
      | none =>
        obtain ⟨es, hes, hd⟩ := ih (log.deliver l.inbox d)
        refine ⟨(l.inbox, d) :: es, ?_, List.forall_mem_cons.mpr ⟨rfl, hd⟩⟩
        exact hes.trans (by rw [hone, List.append_assoc, List.singleton_append])
  obtain ⟨-, rfl⟩ := Prod.mk.inj h
  exact hall ls.registered ls.log

namespace ActiveLexer

variable {σ : Type} [CharStream σ] {src : List Char} {l m : ActiveLexer σ RuleEngine} {o : Begun}
  {c : Except LexError Token × ActiveLexer σ RuleEngine}

/-- An attempt under way: it began at the position of its first character, and nothing has been
delivered since. -/
structure Underway (src : List Char) (o : Begun) (l : ActiveLexer σ RuleEngine) : Prop where
  start_eq : o.start.position = .behind (src.take o.start.index)
  delivered_eq : o.delivered = l.listeners.log.entries.size

/-- What attempts of a call return and report, each at the position of its first character. -/
structure Traced (src : List Char) (l : ActiveLexer σ RuleEngine)
    (c : Except LexError Token × ActiveLexer σ RuleEngine) (attempts : List Attempt) : Prop where
  reported : ∀ t ∈ attempts, ∀ d ∈ t.reported, d.position = .behind (src.take t.start)
  diagnostics_eq : c.2.listeners.log.diagnostics =
    l.listeners.log.diagnostics ++ attempts.flatMap Attempt.reported
  token : l.factory = TokenFactory.common → ∀ token, c.1 = .ok token → token.isEof = false →
    ∃ t ∈ attempts, t.ending = .token token ∧ token.span.start = t.start ∧
      token.span.position = .behind (src.take t.start)

theorem Traced.cons {attempts : List Attempt} {t : Attempt} (h : Traced src m c attempts)
    (hreported : ∀ d ∈ t.reported, d.position = .behind (src.take t.start))
    (hdiagnostics : m.listeners.log.diagnostics = l.listeners.log.diagnostics ++ t.reported)
    (hfactory : m.factory = l.factory) : Traced src l c (t :: attempts) where
  reported := List.forall_mem_cons.mpr ⟨hreported, h.reported⟩
  diagnostics_eq := by
    rw [h.diagnostics_eq, hdiagnostics, List.flatMap_cons, List.append_assoc]
  token hf token hc he := by
    obtain ⟨t', ht', hend⟩ := h.token (hfactory.trans hf) token hc he
    exact ⟨t', List.mem_cons_of_mem _ ht', hend⟩

variable [LawfulView σ] {kept : Nat} {start : TokenStart} {v : Verdict}
  {firings : List (ActiveLexer σ RuleEngine)}

/-- A firing delivers nothing but reports on the attempt, and only where it ends it without a
token. -/
theorem Fired.log_eq (h : Fired src kept start l v m) :
    ∃ es, m.listeners.log.entries.toList = l.listeners.log.entries.toList ++ es ∧
      (∀ e ∈ es, e.2.position = start.position) ∧
      (v = .more ∨ (∃ kind, v = .matched kind) → m.listeners = l.listeners) := by
  have quiet (hl : m.listeners = l.listeners) :
      ∃ es, m.listeners.log.entries.toList = l.listeners.log.entries.toList ++ es ∧
        (∀ e ∈ es, e.2.position = start.position) ∧
        (v = .more ∨ (∃ kind, v = .matched kind) → m.listeners = l.listeners) :=
    ⟨[], by rw [hl, List.append_nil], fun e he => absurd he List.not_mem_nil, fun _ => hl⟩
  cases h with
  | ended _ _ _ _ hl | undeclared _ _ _ _ _ hl | underflow _ _ _ _ _ hl | won _ _ _ _ _ hl =>
    exact quiet hl
  | refused _ _ _ hd | unmatched _ _ _ hd =>
    obtain ⟨es, hes, hall⟩ := Listeners.dispatch_log hd
    refine ⟨es, hes, fun e he => ?_, fun hv => hv.elim nofun (fun ⟨_, hk⟩ => nomatch hk)⟩
    rw [hall e he]
    rfl

/-- An attempt that this firing ends reports what the firing delivers. -/
theorem Underway.reported (hu : Underway src o l) (h : Fired src kept o.start l v m)
    (picked : Option Rule) (ending : Ending) :
    (∀ d ∈ ((o.after picked).ended m ending).reported,
        d.position = .behind (src.take ((o.after picked).ended m ending).start)) ∧
      m.listeners.log.diagnostics =
        l.listeners.log.diagnostics ++ ((o.after picked).ended m ending).reported := by
  obtain ⟨es, hes, hposition, -⟩ := h.log_eq
  have hreported : ((o.after picked).ended m ending).reported = es.map Prod.snd := by
    change (m.listeners.log.entries.toList.drop o.delivered).map Prod.snd = _
    rw [hes, hu.delivered_eq, ← Array.length_toList, List.drop_left]
  rw [hreported]
  refine ⟨fun d hd => ?_, ?_⟩
  · obtain ⟨e, he, rfl⟩ := List.mem_map.mp hd
    exact (hposition e he).trans hu.start_eq
  · rw [Log.diagnostics, hes, List.map_append]
    rfl

theorem Underway.more (hu : Underway src o l) (h : Fired src kept start l .more m)
    (picked : Option Rule) : Underway src (o.after picked) m := by
  obtain ⟨-, -, -, hquiet⟩ := h.log_eq
  have hl := hquiet (.inl rfl)
  exact ⟨hu.start_eq, by rw [hl]; exact hu.delivered_eq⟩

theorem traced_last (hu : Underway src o l) (h : Fired src kept o.start l v m)
    (hlog : c.2.listeners = m.listeners) (picked : Option Rule) (ending : Ending)
    (ht : l.factory = TokenFactory.common → ∀ token, c.1 = .ok token → token.isEof = false →
      ending = .token token ∧ token.span.start = o.start.index ∧
        token.span.position = o.start.position) :
    Traced src l c [(o.after picked).ended m ending] := by
  obtain ⟨hreported, hdiagnostics⟩ := hu.reported h picked ending
  refine ⟨List.forall_mem_singleton.mpr hreported, ?_, fun hf token hc he => ?_⟩
  · rw [hlog, List.flatMap_singleton]
    exact hdiagnostics
  · obtain ⟨hending, hstart, hposition⟩ := ht hf token hc he
    exact ⟨_, List.mem_singleton_self _, hending, hstart, hposition.trans hu.start_eq⟩

/-- Where no rule is picked the engine can only have matched the end. -/
theorem Working.matched_eof (h : Working src kept l) {kind : TokenKind}
    (hf : Fired src kept start l (.matched kind) m) (hpick : l.pick = none) : kind = .eof := by
  generalize hv : Verdict.matched kind = v at hf
  rw [h.pick_eq] at hpick
  cases hf with
  | ended => exact Verdict.matched.inj hv
  | won hw =>
    rw [hw] at hpick
    contradiction
  | undeclared | underflow | refused | unmatched => contradiction

theorem Working.more_pick (h : Working src kept l) (hf : Fired src kept start l .more m) :
    ∃ r, l.pick = some r := by
  generalize hv : Verdict.more = v at hf
  rw [h.pick_eq]
  cases hf with
  | won hw => exact ⟨_, by rw [hw]; rfl⟩
  | ended | undeclared | underflow | refused | unmatched => contradiction

theorem traced_matched (h : Working src kept l) (hu : Underway src o l) {kind : TokenKind}
    (hfire : l.fire o.start = (.matched kind, m)) (extra : Nat) :
    Traced src l (m.record (m.build kind o.start)) (runAttempts (extra + 1) o l) := by
  have hf := h.fired hfire
  obtain ⟨n, htook⟩ := hf.took
  cases hpick : l.pick with
  | some r =>
    rw [runAttempts_token extra hpick hfire]
    refine traced_last hu hf rfl _ _ fun hcommon token hc _ => ?_
    obtain rfl := Except.ok.inj hc
    refine ⟨rfl, ?_, ?_⟩ <;> rw [build, htook.factory_eq.trans hcommon] <;> rfl
  | none =>
    -- The end token is made of the attempt, or of nothing if no rule has fired in it.
    obtain rfl := h.matched_eof hf hpick
    have hend (hcommon : l.factory = TokenFactory.common) (token : Token)
        (hc : (m.record (m.build .eof o.start)).1 = .ok token) : token.isEof = true := by
      rw [← Except.ok.inj hc]
      exact beq_iff_eq.mpr (build_kind (htook.factory_eq.trans hcommon) _ _)
    rw [runAttempts_end extra hpick hfire]
    split
    · obtain ⟨-, -, -, hquiet⟩ := hf.log_eq
      refine ⟨fun t ht => absurd ht List.not_mem_nil, ?_, fun hcommon token hc he => ?_⟩
      · exact (congrArg (fun ls => ls.log.diagnostics) (hquiet (.inr ⟨_, rfl⟩))).trans
          (List.append_nil _).symm
      · exact absurd (he.symm.trans (hend hcommon token hc)) Bool.false_ne_true
    · have ht := traced_last (c := m.record (m.build .eof o.start)) hu hf rfl none
        (.unfinished (m.build .eof o.start)) fun hcommon token hc he =>
          absurd (he.symm.trans (hend hcommon token hc)) Bool.false_ne_true
      rwa [Begun.after_none] at ht

/-- By induction on the run: an attempt is stamped where it began, and each next one begins where
the position has followed the text to. -/
theorem Runs.traced (hr : Runs start l firings c) (h : Working src kept l)
    (hp : l.toLexer.AtPlace src) (hu : Underway src o l) (hstart : o.start = start) (extra : Nat) :
    Traced src l c (runAttempts (extra + firings.length) o l) := by
  induction hr generalizing o with
  | failed hfire =>
    subst hstart
    rw [List.length_singleton, runAttempts_failed extra hfire]
    exact traced_last hu (h.fired hfire) rfl _ _ fun _ _ hc => nomatch hc
  | injected hfire => exact (h.fired hfire).not_injected.elim
  | matched hfire =>
    subst hstart
    exact traced_matched h hu hfire extra
  | more hfire hruns ih =>
    subst hstart
    have hf := h.fired hfire
    obtain ⟨n, htook⟩ := hf.took
    obtain ⟨r, hpick⟩ := h.more_pick hf
    obtain ⟨-, -, -, hquiet⟩ := hf.log_eq
    have ht := ih (hf.working h) (htook.atPlace hp) (hu.more hf (some r)) rfl
    rw [List.length_cons, ← Nat.add_assoc, runAttempts_more _ hpick hfire]
    have hdiagnostics := ht.diagnostics_eq
    rw [hquiet (.inl rfl)] at hdiagnostics
    exact ⟨ht.reported, hdiagnostics, fun hcommon => ht.token (htook.factory_eq.trans hcommon)⟩
  | ended hfire hflag =>
    subst hstart
    have hf := h.fired hfire
    obtain ⟨n, htook⟩ := hf.took
    rw [List.length_singleton, runAttempts_dropped extra hfire, if_pos hflag]
    refine traced_last hu hf rfl _ _ fun hcommon token hc he => ?_
    have heof := beq_iff_eq.mpr (emitEof_kind (htook.factory_eq.trans hcommon) hc)
    exact absurd (he.symm.trans heof) Bool.false_ne_true
  | @onward _ l m _ _ hfire hflag hruns ih =>
    subst hstart
    have hf := h.fired hfire
    have hm := hf.working h
    obtain ⟨n, htook⟩ := hf.took
    have hplace := htook.atPlace hp
    have ht := ih (o := m.begun) (.begin hm.shows hm.eof_imp) hplace ⟨hplace, rfl⟩ rfl
    obtain ⟨hreported, hdiagnostics⟩ := hu.reported hf l.pick
      (if l.pick.isSome then .skipped else .unmatched)
    have hgoes : ¬ m.hitEof = true := hflag ▸ Bool.false_ne_true
    rw [List.length_cons, ← Nat.add_assoc, runAttempts_dropped _ hfire, if_neg hgoes]
    exact ht.cons hreported hdiagnostics htook.factory_eq

theorem Searches.traced (hs : Searches l firings c) (hshows : Shows src kept l.input)
    (he : l.hitEof = true → CharStream.index l.input = src.length)
    (hp : l.toLexer.AtPlace src) (hlen : firings.length ≤ l.patience) :
    Traced src l c l.searchAttempts := by
  cases hs with
  | ended hflag =>
    rw [searchAttempts, if_pos hflag]
    refine ⟨fun t ht => absurd ht List.not_mem_nil, (List.append_nil _).symm,
      fun hcommon token hc hnot => ?_⟩
    exact absurd (hnot.symm.trans (beq_iff_eq.mpr (emitEof_kind hcommon hc))) Bool.false_ne_true
  | begun hflag hruns =>
    have ht := hruns.traced (o := l.begun) (.begin hshows he) hp ⟨hp, rfl⟩ rfl
      (l.patience - firings.length)
    rw [Nat.sub_add_cancel hlen] at ht
    rw [searchAttempts, if_neg (hflag ▸ Bool.false_ne_true)]
    exact { ht with }

theorem Idle.traced {σ : Type} [CharStream σ] [RoamingView σ] {src : List Char}
    {a : ActiveLexer σ RuleEngine} (h : a.Idle src) (hp : a.toLexer.AtPlace src) :
    Traced src a a.nextToken a.toLexer.attempts := by
  obtain ⟨firings, hs, hlen⟩ := h.exists_searches
  have hp' : a.pinned.toLexer.AtPlace src := by
    change a.engine.position = .behind (src.take (CharStream.index a.pinned.input))
    rw [h.index_pinned]
    exact hp
  have ht := hs.traced h.pinned h.eof_pinned hp' (by rw [h.patience_pinned]; omega)
  exact { ht with }

end ActiveLexer

namespace Lexer

variable {σ : Type} [CharStream σ] [RoamingView σ] {g : Grammar} {factory : TokenFactory σ}
  {src : List Char} {l : Lexer σ RuleEngine}

/-- Lines and columns follow the text. For every grammar, and every lexer that a session has led to
which never sets the position or steps the stream alone, and takes inputs at their start: the
position is the one that the characters before the index give; all that the next call delivers while
it matches are the reports on its attempts, each at the position of the attempt's first character;
and so is the token that it answers with, an end token apart. -/
theorem session_places
    (hreach : Reachable g Request.FollowsText (CharStream.index · = 0) factory src l) :
    l.position = .behind (src.take l.charIndex) ∧
      (∀ t ∈ l.attempts, ∀ d ∈ t.reported, d.position = .behind (src.take t.start)) ∧
      l.nextToken.2.listeners.log.diagnostics =
        l.listeners.log.diagnostics ++ l.attempts.flatMap Attempt.reported ∧
      (factory = TokenFactory.common → ∀ token, l.nextToken.1 = .ok token →
        token.isEof = false → ∃ t ∈ l.attempts, t.ending = .token token ∧
          token.span.start = t.start ∧ token.span.position = .behind (src.take t.start)) := by
  have hp := hreach.atPlace
  refine ⟨hp, ?_⟩
  cases hreach.idle with
  | detached =>
    exact ⟨fun t ht => absurd ht List.not_mem_nil, (List.append_nil _).symm,
      fun _ _ hc => nomatch hc⟩
  | attached ha hg hf =>
    have ht := ha.traced hp
    exact ⟨ht.reported, ht.diagnostics_eq, fun hcommon => ht.token (hf.trans hcommon)⟩

/-- The lexer after two calls on `"a\n\nb?"`, where no rule takes a line feed. -/
def hollowTwice : Lexer TextStream RuleEngine :=
  Request.perform (Request.perform
    (.ofInput (TextStream.ofString "a\n\nb?" "inline") (.ofGrammar hollow) TokenFactory.common)
    .next) .next

theorem session_places_hollow :
    Reachable hollow Request.FollowsText (CharStream.index · = 0) TokenFactory.common
        "a\n\nb?".toList hollowTwice ∧
      hollowTwice.charIndex = 4 ∧ hollowTwice.position = ⟨3, 1⟩ := by
  have hreach : Reachable hollow Request.FollowsText
      (CharStream.index · = 0) TokenFactory.common "a\n\nb?".toList hollowTwice :=
    .request (.request (.ofInput (TextStream.rests_ofString "a\n\nb?" "inline") rfl) trivial)
      trivial
  have hindex : hollowTwice.charIndex = 4 := by cbv
  refine ⟨hreach, hindex, ?_⟩
  rw [(session_places hreach).1, hindex]
  rfl

end Lexer

end ModalLex

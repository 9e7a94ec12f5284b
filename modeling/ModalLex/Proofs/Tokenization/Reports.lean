import ModalLex.Proofs.Tokenization.Places
import ModalLex.Proofs.Tokenization.Safety
import ModalLex.Proofs.Tokenization.Tiling

/-!
# What is reported

An attempt that comes to a character which no rule takes is reported once, from its first character
through that one, and the next attempt begins behind it. Attempts follow one another along the text,
through calls and modes, so that no character is reported twice.
-/
namespace ModalLex

open TextView

/-- Firing these rules in turn leads from modes and an index to others. -/
structure Leads (modes : ModeId × List ModeId) (start : Nat) (fired : List Rule)
    (modes' : ModeId × List ModeId) (index : Nat) : Prop where
  replay_eq : Action.replay modes fired = some modes'
  start_eq : fired = [] → start = index
  start_lt : fired ≠ [] → start < index

theorem Leads.nothing (modes : ModeId × List ModeId) (index : Nat) :
    Leads modes index [] modes index :=
  ⟨rfl, fun _ => rfl, fun h => absurd rfl h⟩

theorem Leads.start_le {modes modes' : ModeId × List ModeId} {start index : Nat}
    {fired : List Rule} (h : Leads modes start fired modes' index) : start ≤ index := by
  by_cases hf : fired = []
  · exact Nat.le_of_eq (h.start_eq hf)
  · exact Nat.le_of_lt (h.start_lt hf)

namespace Attempt

def isUnmatched (t : Attempt) : Bool := t.ending matches .unmatched

/-- The report on an attempt, at its first character, that shows all its characters. -/
def report (sourceName : String) (src : List Char) (t : Attempt) : Diagnostic where
  sourceName
  line := (Position.behind (src.take t.start)).line
  column := (Position.behind (src.take t.start)).column
  message := "token recognition error at: '" ++
    showText (String.ofList ((src.drop t.start).take (t.stop - t.start))) ++ "'"

/-- What an attempt comes to that begins in these modes, and the modes that it leaves: its rules end
it, or lead to a character that no rule takes. Then it is reported, through that character. -/
inductive Passes (g : Grammar) (name : String) (src : List Char)
    (modes modes' : ModeId × List ModeId) (t : Attempt) : Prop
  | settled (leads : Leads modes t.start t.fired modes' t.stop) (reported_eq : t.reported = [])
      (matched : t.isUnmatched = false)
  | unmatched {index : Nat} {m : Mode} (leads : Leads modes t.start t.fired modes' index)
      (index_lt : index < src.length) (mode_eq : g.mode? modes'.1 = some m)
      (no_winner : winner? m.rules (src.drop index) = none) (stop_eq : t.stop = index + 1)
      (reported_eq : t.reported = [t.report name src]) (unmatched : t.isUnmatched = true)

end Attempt

/-- Attempts that follow one another along the text, from modes and an index to others. -/
inductive Trail (g : Grammar) (name : String) (src : List Char) : ModeId × List ModeId → Nat →
    List Attempt → ModeId × List ModeId → Nat → Prop
  | nil {modes index} : Trail g name src modes index [] modes index
  | cons {modes modes' last t rest index} (passes : Attempt.Passes g name src modes modes' t)
      (trail : Trail g name src modes' t.stop rest last index) :
      Trail g name src modes t.start (t :: rest) last index

section

variable {g : Grammar} {name : String} {src : List Char} {modes modes' last : ModeId × List ModeId}
  {i j k : Nat} {t : Attempt} {before after attempts : List Attempt}

theorem Attempt.Passes.start_le (h : t.Passes g name src modes modes') : t.start ≤ t.stop := by
  cases h with
  | settled leads => exact leads.start_le
  | unmatched leads _ _ _ hstop =>
    have hle := leads.start_le
    omega

theorem Attempt.Passes.replay_eq (h : t.Passes g name src modes modes') :
    Action.replay modes t.fired = some modes' := by
  cases h with
  | settled leads | unmatched leads => exact leads.replay_eq

/-- The reports of an attempt are the one on it, if it is unmatched. -/
theorem Attempt.Passes.reported_eq (h : t.Passes g name src modes modes') :
    t.reported = ([t].filter isUnmatched).map (report name src) := by
  cases h with
  | settled _ hreported hmatched => simp [hreported, hmatched]
  | unmatched _ _ _ _ _ hreported hunmatched => simp [hreported, hunmatched]

namespace Trail

theorem single (h : t.Passes g name src modes modes') :
    Trail g name src modes t.start [t] modes' t.stop :=
  .cons h .nil

theorem append (h : Trail g name src modes i before modes' j)
    (h' : Trail g name src modes' j after last k) :
    Trail g name src modes i (before ++ after) last k := by
  induction h with
  | nil => exact h'
  | cons hp _ ih => exact .cons hp (ih h')

/-- A trail runs through each of its attempts. -/
theorem split (h : Trail g name src modes i (before ++ after) last k) :
    ∃ modes' j, Trail g name src modes i before modes' j ∧
      Trail g name src modes' j after last k := by
  induction before generalizing modes i with
  | nil => exact ⟨modes, i, .nil, h⟩
  | cons t before ih =>
    cases h with
    | cons hp ht =>
      obtain ⟨modes', j, hbefore, hafter⟩ := ih ht
      exact ⟨modes', j, .cons hp hbefore, hafter⟩

theorem replay_eq (h : Trail g name src modes i attempts last k) :
    Action.replay modes (attempts.flatMap Attempt.fired) = some last := by
  induction h with
  | nil => rfl
  | cons hp _ ih =>
    rw [List.flatMap_cons, Action.replay_append, hp.replay_eq]
    exact ih

theorem reported_eq (h : Trail g name src modes i attempts last k) :
    attempts.flatMap Attempt.reported =
      (attempts.filter Attempt.isUnmatched).map (Attempt.report name src) := by
  induction h with
  | nil => rfl
  | @cons _ _ _ t rest _ hp _ ih =>
    rw [List.flatMap_cons, ih, hp.reported_eq, ← List.map_append, ← List.filter_append]
    rfl

theorem start_le (h : Trail g name src modes i attempts last k) : ∀ t ∈ attempts, i ≤ t.start := by
  induction h with
  | nil => exact List.forall_mem_nil _
  | cons hp _ ih =>
    rw [List.forall_mem_cons]
    constructor
    · exact Nat.le_refl _
    · intro u hu
      exact Nat.le_trans hp.start_le (ih u hu)

/-- No attempt begins before another has ended. -/
theorem pairwise (h : Trail g name src modes i attempts last k) :
    attempts.Pairwise fun t u => t.stop ≤ u.start := by
  induction h with
  | nil => exact .nil
  | cons _ ht ih => exact .cons ht.start_le ih

theorem head (h : Trail g name src modes i attempts last k) (ht : attempts.head? = some t) :
    t.start = i := by
  cases h with
  | nil => contradiction
  | cons => exact congrArg Attempt.start (Option.some.inj ht).symm

end Trail

end

/-- What every call that returns a token keeps, with the attempts and the tokens so far, holds where
the end token is asked for. By induction on the budget of the sequence. -/
theorem Tokens.drained {σ : Type} [CharStream σ]
    {P : List Attempt → List Token → ActiveLexer σ RuleEngine → Prop}
    (hnext : ∀ attempts drawn l m token, P attempts drawn l → l.nextToken = (.ok token, m) →
      token.isEof = false → P (attempts ++ l.toLexer.attempts) (drawn ++ [token]) m)
    (attempts : List Attempt) (drawn : List Token) {a : ActiveLexer σ RuleEngine}
    (h : P attempts drawn a) {budget : Nat} {tokens : List Token} {ts : Tokens σ RuleEngine}
    (hd : drain budget ⟨a.toLexer, false⟩ = (.ok tokens, ts)) :
    ∃ b c e before, Lexer.after tokens.length a.toLexer = ActiveLexer.toLexer b ∧
      b.nextToken = (.ok e, c) ∧ e.isEof = true ∧ ts = ⟨c.toLexer, true⟩ ∧
      P before (drawn ++ tokens) b ∧
      attempts ++ Tokens.attempts budget ⟨a.toLexer, false⟩ = before ++ b.toLexer.attempts := by
  induction budget generalizing a attempts drawn tokens ts with
  | zero =>
    rw [drain] at hd
    cases hd
  | succ budget ih =>
    rw [drain_succ] at hd
    rw [attempts_succ]
    rcases hc : a.nextToken with ⟨e | token, c⟩
    · rw [hc, resume] at hd
      cases hd
    · rw [hc, resume] at hd
      rw [resumeAttempts]
      cases he : token.isEof with
      | true =>
        rw [he] at hd
        obtain ⟨htokens, rfl⟩ := Prod.mk.inj hd
        obtain rfl := Except.ok.inj htokens
        refine ⟨a, c, token, attempts, rfl, hc, he, rfl, by rwa [List.append_nil], ?_⟩
        rw [if_pos rfl, List.append_nil]
      | false =>
        rw [he] at hd
        rcases hlater : drain budget ⟨c.toLexer, false⟩ with ⟨e | later, ts'⟩
        · rw [hlater] at hd
          cases hd
        · rw [hlater] at hd
          obtain ⟨htokens, rfl⟩ := Prod.mk.inj hd
          obtain rfl := Except.ok.inj htokens
          obtain ⟨b, c', e, before, hafter, hend, heof, hts, hP, hattempts⟩ :=
            ih _ _ (hnext _ _ _ _ _ h hc he) hlater
          rw [List.append_assoc, List.singleton_append] at hP
          refine ⟨b, c', e, before, ?_, hend, heof, hts, hP, ?_⟩
          · rw [List.length_cons, Lexer.after, Lexer.nextToken_toLexer, hc]
            exact hafter
          · rw [if_neg Bool.false_ne_true, ← List.append_assoc]
            exact hattempts

namespace ActiveLexer

section

variable {σ : Type} [CharStream σ]

/-- A lexer for a grammar whose one listener collects, at the position of its place. -/
structure Collects (g : Grammar) (name : String) (inbox : Nat) (src : List Char)
    (l : ActiveLexer σ RuleEngine) : Prop where
  grammar_eq : l.engine.grammar = g
  name_eq : l.sourceName = name
  listening : l.listeners.registered = [.collector inbox]
  atPlace : l.toLexer.AtPlace src

variable {g : Grammar} {name : String} {inbox : Nat} {src : List Char} {kept n : Nat}
  {l m : ActiveLexer σ RuleEngine} {o : Begun} {start : TokenStart} {v : Verdict}

theorem Collects.went (h : Collects g name inbox src l) (hw : Went src l n m) :
    Collects g name inbox src m where
  grammar_eq := hw.grammar_eq.trans h.grammar_eq
  name_eq := hw.sourceName_eq.trans h.name_eq
  listening := hw.registered_eq.trans h.listening
  atPlace := hw.atPlace h.atPlace

/-- The attempt under way began in these modes. -/
structure Pursues (src : List Char) (modes : ModeId × List ModeId) (o : Begun)
    (l : ActiveLexer σ RuleEngine) : Prop extends Underway src o l where
  leads : Leads modes o.start.index o.fired l.context.modes (CharStream.index l.input)

variable {modes : ModeId × List ModeId}

omit [CharStream σ] in
theorem Underway.after (hu : Underway src o l) (picked : Option Rule) :
    Underway src (o.after picked) l :=
  ⟨hu.start_eq, hu.delivered_eq⟩

/-- An attempt that nothing was delivered in reports nothing. -/
theorem Underway.reported_nil (hu : Underway src o l) (hl : m.listeners = l.listeners)
    (ending : Ending) : (o.ended m ending).reported = [] := by
  show (m.listeners.log.entries.toList.drop o.delivered).map Prod.snd = []
  rw [hl, hu.delivered_eq, ← Array.length_toList, List.drop_length, List.map_nil]

theorem Underway.reported_one (hu : Underway src o l) {d : Diagnostic}
    (hl : m.listeners.log = l.listeners.log.deliver inbox d) (ending : Ending) :
    (o.ended m ending).reported = [d] := by
  show (m.listeners.log.entries.toList.drop o.delivered).map Prod.snd = [d]
  rw [hl, hu.delivered_eq, Log.deliver, Array.toList_push, ← Array.length_toList, List.drop_left]
  rfl

/-- What a call or a sequence of calls has made of these modes and this log: the attempts make a
trail, and the inbox has received their reports. -/
structure Tells (g : Grammar) (name : String) (inbox : Nat) (src : List Char)
    (modes : ModeId × List ModeId) (start : Nat) (log : Log) (attempts : List Attempt)
    (m : ActiveLexer σ RuleEngine) : Prop where
  trail : Trail g name src modes start attempts m.context.modes (CharStream.index m.input)
  received_eq : m.listeners.log.received inbox =
    log.received inbox ++ attempts.flatMap Attempt.reported

variable {attempts : List Attempt} {t : Attempt} {log : Log}

theorem Tells.single (hp : t.Passes g name src modes m.context.modes)
    (hstop : t.stop = CharStream.index m.input)
    (hr : m.listeners.log.received inbox = log.received inbox ++ t.reported) :
    Tells g name inbox src modes t.start log [t] m where
  trail := hstop ▸ .single hp
  received_eq := by rw [hr, List.flatMap_singleton]

theorem Tells.cons {modes' : ModeId × List ModeId} {log' : Log}
    (hp : t.Passes g name src modes modes')
    (hr : log'.received inbox = log.received inbox ++ t.reported)
    (h : Tells g name inbox src modes' t.stop log' attempts m) :
    Tells g name inbox src modes t.start log (t :: attempts) m where
  trail := .cons hp h.trail
  received_eq := by rw [h.received_eq, hr, List.flatMap_cons, List.append_assoc]

theorem Tells.append {l : ActiveLexer σ RuleEngine} {start : Nat} {after : List Attempt}
    (h : Tells g name inbox src modes start log attempts l)
    (h' : Tells g name inbox src l.context.modes (CharStream.index l.input) l.listeners.log after
      m) :
    Tells g name inbox src modes start log (attempts ++ after) m where
  trail := h.trail.append h'.trail
  received_eq := by
    rw [h'.received_eq, h.received_eq, List.flatMap_append, List.append_assoc]

/-- Remembering a token changes nothing of it. -/
theorem Tells.recorded {start : Nat} (h : Tells g name inbox src modes start log attempts m)
    (token : Token) :
    Tells g name inbox src modes start log attempts { m with token := some token } :=
  { h with }

/-- An attempt that its rules have settled. -/
theorem Underway.tells_settled (hu : Underway src o l) (hl : m.listeners = l.listeners)
    (ending : Ending)
    (hleads : Leads modes o.start.index o.fired m.context.modes (CharStream.index m.input))
    (hmatched : (o.ended m ending).isUnmatched = false) :
    Tells g name inbox src modes o.start.index l.listeners.log [o.ended m ending] m := by
  have hnil := hu.reported_nil hl ending
  refine .single (.settled hleads hnil hmatched) rfl ?_
  rw [hnil, hl, List.append_nil]

variable [LawfulView σ]

/-- Where a rule is picked it leads on, and nothing is reported. -/
theorem Pursues.picked (hu : Pursues src modes o l) (h : Working src kept l)
    (hf : Fired src kept o.start l v m) (hv : ∀ e, v ≠ .failed e) {r : Rule}
    (hp : l.pick = some r) :
    m.listeners = l.listeners ∧
      Leads modes o.start.index (o.fired ++ [r]) m.context.modes (CharStream.index m.input) := by
  have hreplay := h.replays hf hv
  rw [hp] at hreplay
  rw [h.pick_eq] at hp
  obtain ⟨⟨r, n⟩, hw, rfl⟩ := Option.map_eq_some_iff.mp hp
  obtain ⟨htook, hlisteners, -⟩ := hf.of_winner hw
  have hpos := (winner_bounds hw).1
  have hindex := htook.index_eq
  have hle := hu.leads.start_le
  refine ⟨hlisteners, ?_, ?_, ?_⟩
  · rw [Action.replay_append, hu.leads.replay_eq]
    exact hreplay
  · intro hnil
    simp at hnil
  · intro _
    omega

/-- Without a rule the engine matches where the text has ended only. -/
theorem Pursues.matched (hu : Pursues src modes o l) (h : Working src kept l) {kind : TokenKind}
    (hf : Fired src kept o.start l (.matched kind) m) (hp : l.pick = none) :
    m.listeners = l.listeners ∧
      Leads modes o.start.index o.fired m.context.modes (CharStream.index m.input) := by
  generalize hv : Verdict.matched kind = v at hf
  rw [h.pick_eq] at hp
  cases hf with
  | ended _ htook hcontext _ hlisteners =>
    refine ⟨hlisteners, ?_⟩
    rw [hcontext, htook.index_eq]
    exact hu.leads
  | won hw =>
    rw [hw] at hp
    contradiction
  | undeclared | underflow | refused | unmatched => contradiction

/-- What is reported where no rule takes the next character. -/
theorem Collects.diagnostic_eq (hl : Collects g name inbox src l) (hu : Underway src o l)
    (hk : kept ≤ o.start.index) {input : σ} (hm : Moved src kept l.input 0 input)
    (hr : CharStream.index l.input < reach input) {t : Attempt} (hstart : t.start = o.start.index)
    (hstop : t.stop = CharStream.index l.input + 1) :
    l.diagnostic input o.start = t.report name src := by
  have hslice : CharStream.text input o.start.index (CharStream.index input + 1) =
      String.ofList ((src.drop t.start).take (t.stop - t.start)) := by
    rw [LawfulView.slice hm.shows hk (by rw [hm.index_look]; exact hr), hm.index_look, hstart,
      hstop]
  have hline : o.start.line = (Position.behind (src.take t.start)).line := by
    rw [hstart, ← hu.start_eq]
    rfl
  have hcolumn : o.start.column = (Position.behind (src.take t.start)).column := by
    rw [hstart, ← hu.start_eq]
    rfl
  rw [LexerState.diagnostic, Attempt.report, hslice, hl.name_eq, hline, hcolumn]

/-- An attempt that a character ends which no rule takes. -/
theorem Pursues.unmatched (hu : Pursues src modes o l) (h : Working src kept l)
    (hl : Collects g name inbox src l) (hk : kept ≤ o.start.index)
    (hfire : l.fire o.start = (.skipped, m)) (hp : l.pick = none) :
    (o.ended m .unmatched).Passes g name src modes m.context.modes ∧
      m.listeners.log.received inbox =
        l.listeners.log.received inbox ++ (o.ended m .unmatched).reported := by
  have hf := h.fired hfire
  generalize hv : Verdict.skipped = v at hf
  rw [h.pick_eq] at hp
  cases hf with
  | won hw =>
    rw [hw] at hp
    contradiction
  | ended | undeclared | underflow | refused => contradiction
  | @unmatched _ input hw hlook hread hd htook hcontext =>
    have hreach := LawfulView.reach_le hlook.shows
    have hi : CharStream.index l.input < src.length := by omega
    obtain ⟨md, hmode⟩ := h.exists_mode hfire nofun hi
    rw [Grammar.rulesOf, hmode] at hw
    rw [hl.grammar_eq] at hmode
    have hd' := hl.diagnostic_eq hu.toUnderway hk hlook hread
      (t := o.ended m .unmatched) rfl htook.index_eq
    rw [dispatch_collector hl.listening, hd'] at hd
    obtain ⟨-, hlisteners⟩ := Prod.mk.inj hd
    have hlog : m.listeners.log = l.listeners.log.deliver inbox _ :=
      (congrArg Listeners.log hlisteners).symm
    have hone := hu.reported_one hlog .unmatched
    have hleads : Leads modes o.start.index o.fired m.context.modes (CharStream.index l.input) := by
      rw [hcontext]
      exact hu.leads
    have hmode' : g.mode? m.context.modes.1 = some md := by
      rw [hcontext]
      exact hmode
    refine ⟨.unmatched hleads hi hmode' hw htook.index_eq hone rfl, ?_⟩
    rw [hone, hlog, Log.received_deliver]

/-- An attempt that is dropped, by a rule that asks for it or by a character that no rule takes. -/
theorem Pursues.dropped (hu : Pursues src modes o l) (h : Working src kept l)
    (hl : Collects g name inbox src l) (hk : kept ≤ o.start.index)
    (hfire : l.fire o.start = (.skipped, m)) :
    ∃ t, t = (o.after l.pick).ended m (if l.pick.isSome then .skipped else .unmatched) ∧
      t.Passes g name src modes m.context.modes ∧
      m.listeners.log.received inbox = l.listeners.log.received inbox ++ t.reported := by
  refine ⟨_, rfl, ?_⟩
  cases hp : l.pick with
  | some r =>
    obtain ⟨hlisteners, hleads⟩ := hu.picked h (h.fired hfire) nofun hp
    have hnil := (hu.toUnderway.after (some r)).reported_nil hlisteners .skipped
    refine ⟨.settled hleads hnil rfl, ?_⟩
    rw [hlisteners]
    exact (hnil ▸ List.append_nil _).symm
  | none =>
    rw [Begun.after_none]
    exact hu.unmatched h hl hk hfire hp

/-- The attempts of a run that its first firing ends. Where the text has ended there may be none
under way. -/
theorem Pursues.tells_matched (hu : Pursues src modes o l) (h : Working src kept l)
    {kind : TokenKind} (hfire : l.fire o.start = (.matched kind, m)) (extra : Nat) :
    Tells g name inbox src modes o.start.index l.listeners.log (runAttempts (extra + 1) o l)
      (m.record (m.build kind o.start)).2 := by
  have hf := h.fired hfire
  cases hp : l.pick with
  | some r =>
    obtain ⟨hlisteners, hleads⟩ := hu.picked h hf nofun hp
    rw [runAttempts_token extra hp hfire]
    exact ((hu.toUnderway.after (some r)).tells_settled hlisteners _ hleads rfl).recorded _
  | none =>
    obtain ⟨hlisteners, hleads⟩ := hu.matched h hf hp
    rw [runAttempts_end extra hp hfire]
    split
    · rename_i hnone
      have hnil : o.fired = [] := List.isEmpty_iff.mp hnone
      have hreplay := hleads.replay_eq
      rw [hnil] at hreplay
      obtain rfl : modes = m.context.modes := Option.some.inj hreplay
      refine ⟨hleads.start_eq hnil ▸ .nil, ?_⟩
      exact (congrArg (fun ls => ls.log.received inbox) hlisteners).trans (List.append_nil _).symm
    · exact (hu.toUnderway.tells_settled hlisteners _ hleads rfl).recorded _

/-- By induction on the run: every firing leads the attempt on, reports it or leaves it settled, and
each next attempt begins where the one before has ended, in the modes that it has left. -/
theorem Runs.tells {firings : List (ActiveLexer σ RuleEngine)}
    {c : Except LexError Token × ActiveLexer σ RuleEngine} (hr : Runs start l firings c)
    (h : Working src kept l) (hl : Collects g name inbox src l) (hk : kept ≤ o.start.index)
    (hu : Pursues src modes o l) (hstart : o.start = start) (extra : Nat) {token : Token}
    (hc : c.1 = .ok token) :
    Tells g name inbox src modes o.start.index l.listeners.log
      (runAttempts (extra + firings.length) o l) c.2 := by
  induction hr generalizing o modes with
  | failed => contradiction
  | injected hfire => exact (h.fired hfire).not_injected.elim
  | matched hfire =>
    subst hstart
    exact hu.tells_matched h hfire extra
  | more hfire hruns ih =>
    subst hstart
    have hf := h.fired hfire
    obtain ⟨n, htook⟩ := hf.took
    obtain ⟨r, hp⟩ := h.more_pick hf
    obtain ⟨hlisteners, hleads⟩ := hu.picked h hf nofun hp
    have hgo := ih (o := o.after (some r)) (hf.working h) (hl.went htook.toWent) hk
      ⟨hu.toUnderway.more hf (some r), hleads⟩ rfl hc
    rw [hlisteners] at hgo
    rw [List.length_cons, ← Nat.add_assoc, runAttempts_more _ hp hfire]
    exact hgo
  | ended hfire hflag =>
    subst hstart
    obtain ⟨t, rfl, hpasses, hreceived⟩ := hu.dropped h hl hk hfire
    rw [List.length_singleton, runAttempts_dropped extra hfire, if_pos hflag]
    exact (Tells.single hpasses rfl hreceived).recorded _
  | @onward _ l m _ _ hfire hflag hruns ih =>
    subst hstart
    have hf := h.fired hfire
    have hm := hf.working h
    obtain ⟨n, htook⟩ := hf.took
    have hl' := hl.went htook.toWent
    have hk' : kept ≤ CharStream.index m.input := by
      have hle := hu.leads.start_le
      have hi := htook.index_eq
      omega
    have hbegun : Pursues src m.context.modes m.begun m.begin :=
      ⟨⟨hl'.atPlace, rfl⟩, .nothing _ _⟩
    have hnext := ih (.begin hm.shows hm.eof_imp) { hl' with } hk' hbegun rfl hc
    obtain ⟨t, rfl, hpasses, hreceived⟩ := hu.dropped h hl hk hfire
    have hgoes : ¬ m.hitEof = true := hflag ▸ Bool.false_ne_true
    rw [List.length_cons, ← Nat.add_assoc, runAttempts_dropped _ hfire, if_neg hgoes]
    exact .cons hpasses hreceived hnext

theorem Searches.tells {firings : List (ActiveLexer σ RuleEngine)}
    {c : Except LexError Token × ActiveLexer σ RuleEngine} (hs : Searches l firings c)
    (hshows : Shows src kept l.input)
    (he : l.hitEof = true → CharStream.index l.input = src.length)
    (hl : Collects g name inbox src l) (hk : kept ≤ CharStream.index l.input)
    (hlen : firings.length ≤ l.patience) {token : Token} (hc : c.1 = .ok token) :
    Tells g name inbox src l.context.modes (CharStream.index l.input) l.listeners.log
      l.searchAttempts c.2 := by
  cases hs with
  | ended hflag =>
    rw [searchAttempts, if_pos hflag]
    have hnone : Tells g name inbox src l.context.modes (CharStream.index l.input)
        l.listeners.log [] l := ⟨.nil, (List.append_nil _).symm⟩
    exact hnone.recorded _
  | begun hflag hruns =>
    have hbegun : Pursues src l.context.modes l.begun l.begin :=
      ⟨⟨hl.atPlace, rfl⟩, .nothing _ _⟩
    have ht := hruns.tells (.begin hshows he) { hl with } hk hbegun rfl
      (l.patience - firings.length) hc
    rw [Nat.sub_add_cancel hlen] at ht
    rw [searchAttempts, if_neg (hflag ▸ Bool.false_ne_true)]
    exact ht

end

section

variable {σ : Type} [CharStream σ] [RoamingView σ] {g : Grammar} {name : String} {inbox : Nat}
  {src : List Char} {a b : ActiveLexer σ RuleEngine}

/-- A call for the next token tells of its attempts. -/
theorem Idle.tells (h : a.Idle src) (hl : Collects g name inbox src a) {token : Token}
    (hc : a.nextToken = (.ok token, b)) :
    Tells g name inbox src a.context.modes (CharStream.index a.input) a.listeners.log
      a.toLexer.attempts b := by
  obtain ⟨firings, hs, hlen⟩ := h.exists_searches
  have hi := h.index_pinned
  have hl' : Collects g name inbox src a.pinned :=
    ⟨hl.grammar_eq, hl.name_eq, hl.listening, by
      show a.engine.position = .behind (src.take (CharStream.index a.pinned.input))
      rw [hi]
      exact hl.atPlace⟩
  have ht := hs.tells h.pinned h.eof_pinned hl' (Nat.le_of_eq hi.symm)
    (by rw [h.patience_pinned]; omega) (congrArg Prod.fst hc)
  have hindex := h.index_nextToken
  rw [hc] at hindex
  obtain rfl : a.nextToken.2 = b := congrArg Prod.snd hc
  refine ⟨?_, ht.received_eq⟩
  have htrail := ht.trail
  rw [← hindex, hi] at htrail
  exact htrail

/-- So does a drained sequence of calls. -/
theorem Idle.tells_drained (h : a.Idle src) (hl : Collects g name inbox src a) {budget : Nat}
    {tokens : List Token} {ts : Tokens σ RuleEngine}
    (hd : Tokens.drain budget ⟨a.toLexer, false⟩ = (.ok tokens, ts)) :
    ∃ b, ts.lexer = ActiveLexer.toLexer b ∧
      Tells g name inbox src a.context.modes (CharStream.index a.input) a.listeners.log
        (Tokens.attempts budget ⟨a.toLexer, false⟩) b := by
  let P := fun (attempts : List Attempt) (_ : List Token) (b : ActiveLexer σ RuleEngine) =>
    b.Idle src ∧ Collects g name inbox src b ∧
      Tells g name inbox src a.context.modes (CharStream.index a.input) a.listeners.log attempts b
  have hnothing : P [] [] a := ⟨h, hl, .nil, (List.append_nil _).symm⟩
  have hnext : ∀ attempts drawn l m token, P attempts drawn l → l.nextToken = (.ok token, m) →
      token.isEof = false → P (attempts ++ l.toLexer.attempts) (drawn ++ [token]) m := by
    rintro attempts drawn l m token ⟨hidle, hcollects, htells⟩ hcall -
    obtain ⟨n, hw⟩ := hidle.nextToken.went
    have hidle' := hidle.nextToken.idle
    have hlast := hidle.tells hcollects hcall
    rw [hcall] at hidle' hw
    exact ⟨hidle', hcollects.went hw, htells.append hlast⟩
  obtain ⟨b, c, e, before, -, hc, -, rfl, ⟨hb, hlb, htells⟩, hattempts⟩ :=
    Tokens.drained hnext [] [] hnothing hd
  rw [List.nil_append] at hattempts
  rw [hattempts]
  exact ⟨c, rfl, htells.append (hb.tells hlb hc)⟩

end

end ActiveLexer

namespace Tokenization

open ActiveLexer

variable {g : Grammar} {source name : String} {r : Tokenization}

theorem collects_active (g : Grammar) (source name : String) :
    (active g source name).Collects g name inbox source.toList :=
  ⟨rfl, rfl, rfl, rfl⟩

/-- The attempts of a tokenization make a trail from the start of the text on, in the first mode,
and the diagnostics are their reports. -/
theorem trail_of_tokenize (h : tokenize g source name = .ok r) :
    ∃ last index, Trail g name source.toList (.default, []) 0 (attempts g source name) last index ∧
      r.diagnostics = (attempts g source name).flatMap Attempt.reported := by
  obtain ⟨ts, hdrain, hdiagnostics⟩ := drain_of_tokenize h
  obtain ⟨b, hb, ht⟩ := (idle_active g source name).tells_drained
    (collects_active g source name) hdrain
  refine ⟨_, _, ht.trail, ?_⟩
  rw [hdiagnostics, hb]
  exact ht.received_eq.trans (List.nil_append _)

/-- Where a winner is missing no rule of the mode takes a character of the text. -/
theorem matchLength_of_no_winner {m : Mode} {index : Nat} (hi : index ≤ source.toList.length)
    (hw : winner? m.rules (source.toList.drop index) = none) {rule : Rule} (hr : rule ∈ m.rules)
    {n : Nat} (hn : (rule.pattern.matchLength
      { TextStream.ofString source name with pos := index } 0).1 = some n) : n = 0 := by
  have hshows : Shows source.toList 0 { TextStream.ofString source name with pos := index } :=
    ⟨rfl, hi⟩
  obtain ⟨s, hs, -⟩ := Pattern.matchLength_eq hshows 0 rule.pattern
  rw [Int.natCast_zero] at hs
  rw [hs] at hn
  exact length_of_winner?_none hw hr hn

/-- Every character that no rule takes is reported, once. For every grammar and every text that it
tokenizes: the diagnostics are the reports on the unmatched attempts, in their order, each at the
attempt's first character and showing the text from there through the character that it failed at.
The attempt has got to that character in the mode that the rules fired until then lead to, past its
first character if a rule has fired in it; no rule of the mode takes a character there; that one
alone is dropped, and the next attempt begins behind it. No two attempts share a character. -/
theorem tokenize_reports (h : tokenize g source name = .ok r) :
    r.diagnostics = ((attempts g source name).filter Attempt.isUnmatched).map
        (Attempt.report name source.toList) ∧
      (∀ before t after, attempts g source name = before ++ t :: after → t.isUnmatched = true →
        ∃ mode stack m index,
          Action.replay (.default, []) (before.flatMap Attempt.fired ++ t.fired) =
            some (mode, stack) ∧
          g.mode? mode = some m ∧
          t.start ≤ index ∧ (t.fired ≠ [] → t.start < index) ∧ index < source.toList.length ∧
          (∀ rule ∈ m.rules, ∀ n, (rule.pattern.matchLength
            { TextStream.ofString source name with pos := index } 0).1 = some n → n = 0) ∧
          t.stop = index + 1 ∧ ∀ u, after.head? = some u → u.start = index + 1) ∧
      (attempts g source name).Pairwise fun t u => t.stop ≤ u.start := by
  obtain ⟨last, k, htrail, hdiagnostics⟩ := trail_of_tokenize h
  refine ⟨hdiagnostics.trans htrail.reported_eq, ?_, htrail.pairwise⟩
  intro before t after he hunmatched
  rw [he] at htrail
  obtain ⟨modes, i, hbefore, hrest⟩ := htrail.split
  cases hrest with
  | @cons _ modes' _ _ _ _ hpasses hafter =>
    cases hpasses with
    | settled _ _ hmatched =>
      rw [hunmatched] at hmatched
      contradiction
    | @unmatched index m hleads hi hmode hw hstop =>
      refine ⟨modes'.1, modes'.2, m, index, ?_, hmode, hleads.start_le, hleads.start_lt, hi, ?_,
        hstop, ?_⟩
      · rw [Action.replay_append, hbefore.replay_eq]
        exact hleads.replay_eq
      · intro rule hr n hn
        exact matchLength_of_no_winner (Nat.le_of_lt hi) hw hr hn
      · intro u hu
        rw [hafter.head hu, hstop]

/-- A character that no rule takes, first alone and then behind an open quotation. -/
theorem tokenize_reports_quoting :
    ∃ r, tokenize quoting "1\"a\uFFFF\"" "inline" = .ok r ∧
      r.diagnostics = [
        ⟨"inline", 1, 0, "token recognition error at: '1'"⟩,
        ⟨"inline", 1, 1, "token recognition error at: '\"a\uFFFF'"⟩] ∧
      r.diagnostics = ((attempts quoting "1\"a\uFFFF\"" "inline").filter
        Attempt.isUnmatched).map (Attempt.report "inline" "1\"a\uFFFF\"".toList) := by
  have h : tokenize quoting "1\"a\uFFFF\"" "inline" =
      .ok ⟨[⟨⟨2⟩, ⟨0⟩, "\"", ⟨4, 5, 1, 4⟩, "inline"⟩], [
        ⟨"inline", 1, 0, "token recognition error at: '1'"⟩,
        ⟨"inline", 1, 1, "token recognition error at: '\"a\uFFFF'"⟩]⟩ := by cbv
  exact ⟨_, h, rfl, (tokenize_reports h).1⟩

end Tokenization

end ModalLex

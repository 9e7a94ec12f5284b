import ModalLex.Proofs.Lexer.Calls
import ModalLex.Proofs.Tokenization.Step

/-!
# A whole run along the course

From every lexer that follows the course, the rest of the call and the calls after it make the
attempts of the course, return its tokens and deliver its diagnostics. The induction is on the
course itself, so that one case is one kind of step.
-/
namespace ModalLex

namespace Tokens

variable {σ : Type} [CharStream σ]

def resumeAttempts (budget : Nat) :
    Except LexError Token × ActiveLexer σ RuleEngine → List Attempt
  | (.error _, _) => []
  | (.ok token, l) => if token.isEof then [] else attempts budget ⟨l.toLexer, false⟩

@[simp]
theorem attempts_done (budget : Nat) (l : Lexer σ RuleEngine) : attempts budget ⟨l, true⟩ = [] := by
  cases budget <;> rfl

theorem attempts_succ (l : ActiveLexer σ RuleEngine) (budget : Nat) :
    attempts (budget + 1) ⟨l.toLexer, false⟩ =
      l.toLexer.attempts ++ resumeAttempts budget l.nextToken := by
  simp only [attempts, next, Bool.false_eq_true, ↓reduceIte, Lexer.nextToken_toLexer]
  rcases l.nextToken with ⟨e | token, l'⟩
  · simp only [attempts_done, resumeAttempts]
  · cases he : token.isEof <;> simp only [he, resumeAttempts, attempts_done, ↓reduceIte,
      Bool.false_eq_true]

end Tokens

@[simp]
theorem Log.received_deliver (log : Log) (inbox : Nat) (d : Diagnostic) :
    (log.deliver inbox d).received inbox = log.received inbox ++ [d] := by
  simp [Log.deliver, Log.received]

/-- An end token on nothing: an empty span, no text, the default channel. -/
structure Token.Bare (t : Token) (index : Nat) : Prop where
  start_eq : t.span.start = index
  stop_eq : t.span.stop = index
  text_eq : t.text = ""
  channel_eq : t.channel = .default

/-- The lexer that has answered with the end token `e`: it was made of the last attempt, where
that one is unfinished, and else of nothing. -/
structure Ended (stop : Nat) (attempts : List Attempt) (l : Lexer TextStream RuleEngine)
    (e : Token) : Prop where
  input_eq : ∃ input, l.input = some input ∧ CharStream.index input = stop
  hitEof_eq : l.hitEof = true
  common : l.factory = TokenFactory.common
  token_eq : l.token = some e
  kind_eq : e.kind = .eof
  made : attempts.findSome? Attempt.endToken? = some e ∨
    attempts.findSome? Attempt.endToken? = none ∧ e.Bare stop

/-- A driven sequence of tokens goes as these attempts do. -/
structure Goes (stop : Nat) (attempts : List Attempt) (log : Log) (trace : List Attempt)
    (d : Except LexError (List Token) × Tokens TextStream RuleEngine) : Prop where
  trace_eq : trace = attempts
  answer_eq : d.1 = Attempt.returned attempts
  received_eq : d.2.lexer.listeners.log.received Tokenization.inbox =
    log.received Tokenization.inbox ++ attempts.flatMap Attempt.reported
  ended : ∀ tokens, d.1 = .ok tokens → ∃ e, Ended stop attempts d.2.lexer e

namespace Goes

variable {stop : Nat} {attempts trace : List Attempt} {log log' : Log}
  {d : Except LexError (List Token) × Tokens TextStream RuleEngine} {t : Attempt}

theorem ended_cons {l : Lexer TextStream RuleEngine} {e : Token} (h : Ended stop attempts l e)
    (ht : t.endToken? = none) : Ended stop (t :: attempts) l e where
  input_eq := h.input_eq
  hitEof_eq := h.hitEof_eq
  common := h.common
  token_eq := h.token_eq
  kind_eq := h.kind_eq
  made := by
    rw [List.findSome?_cons, ht]
    exact h.made

theorem cons (h : Goes stop attempts log' trace d) (ht : t.ending = .skipped ∨ t.ending = .unmatched)
    (hlog : log'.received Tokenization.inbox = log.received Tokenization.inbox ++ t.reported) :
    Goes stop (t :: attempts) log (t :: trace) d where
  trace_eq := by rw [h.trace_eq]
  answer_eq := by
    rw [h.answer_eq, Attempt.returned]
    rcases ht with ht | ht <;> rw [ht]
  received_eq := by
    rw [h.received_eq, hlog, List.flatMap_cons, List.append_assoc]
  ended tokens hd := by
    obtain ⟨e, he⟩ := h.ended tokens hd
    refine ⟨e, ended_cons he ?_⟩
    rcases ht with ht | ht <;> rw [Attempt.endToken?, ht]

theorem cons_token (h : Goes stop attempts log trace d) {token : Token}
    (ht : t.ending = .token token) (hr : t.reported = []) :
    Goes stop (t :: attempts) log (t :: trace) (d.1.map (token :: ·), d.2) where
  trace_eq := by rw [h.trace_eq]
  answer_eq := by
    rw [h.answer_eq, Attempt.returned, ht]
  received_eq := by
    rw [List.flatMap_cons, hr, List.nil_append]
    exact h.received_eq
  ended tokens hd := by
    obtain ⟨tokens', hd', -⟩ := map_ok hd
    obtain ⟨e, he⟩ := h.ended tokens' hd'
    exact ⟨e, ended_cons he (by rw [Attempt.endToken?, ht])⟩

end Goes

def OpenAttempt.begun (o : OpenAttempt) (delivered : Nat) : Begun := ⟨o.tokenStart, o.fired, delivered⟩

namespace ActiveLexer

open TextView

variable {g : Grammar} {name : String} {src rest : List Char} {s : Scan}
  {l l' : ActiveLexer TextStream RuleEngine}

/-- A token is built of the attempt's characters, kind, channel and text. -/
theorem build_eq (h : Follows g name src l s) (hp : s.Placed src rest) (kind : TokenKind) :
    l.build kind s.current.tokenStart = s.current.token name kind := by
  have hstop := hp.stop_eq
  have hlen := hp.length_eq
  rw [OpenAttempt.stop] at hstop
  have hslice : CharStream.text l.input s.current.start s.index =
      String.ofList s.current.taken := by
    have hreach := LawfulView.index_le h.shows
    rw [h.index_eq] at hreach
    rw [LawfulView.slice h.shows (Nat.zero_le _) hreach, hp.drop_eq,
      show s.index - s.current.start = s.current.taken.length by omega, List.take_left]
  have htext : (if s.current.start < s.index then
      CharStream.text l.input s.current.start s.index else "") = String.ofList s.current.taken := by
    by_cases ht : s.current.taken = []
    · rw [ht, List.length_nil] at hstop
      rw [ht, if_neg (by omega), String.ofList_nil]
    · have hpos := List.length_pos_iff.mpr ht
      rw [if_pos (by omega), hslice]
  simp only [build, h.common, TokenFactory.common, OpenAttempt.tokenStart, OpenAttempt.token,
    h.index_eq, h.text_eq, h.channel_eq, h.name_eq, htext, hp.stop_eq]
  cases s.current.text? <;> rfl

theorem begun_eq (h : Stands g name src l s) (hs : s.attempt = none) :
    l.begun = s.current.begun l.listeners.log.entries.size := by
  rw [begun, h.here_eq hs, OpenAttempt.begun, Scan.current_none hs]

/-- The driver goes on as the course does, from every lexer that follows it. -/
def Driven (g : Grammar) (name : String) (src rest : List Char) (s : Scan) : Prop :=
  ∀ (l : ActiveLexer TextStream RuleEngine) (fuel budget : Nat), Follows g name src l s →
    rest.length < fuel → rest.length ≤ budget →
    Goes src.length (course g name rest s) l.listeners.log
      (runAttempts fuel (s.current.begun l.listeners.log.entries.size) l ++
        Tokens.resumeAttempts budget (run fuel s.current.tokenStart l))
      (Tokens.resume budget (run fuel s.current.tokenStart l))

/-- The fuel covers one firing more than there are characters. -/
theorem Driven.intro (h : ∀ (l : ActiveLexer TextStream RuleEngine) (fuel budget : Nat),
    Follows g name src l s → rest.length ≤ fuel → rest.length ≤ budget →
    Goes src.length (course g name rest s) l.listeners.log
      (runAttempts (fuel + 1) (s.current.begun l.listeners.log.entries.size) l ++
        Tokens.resumeAttempts budget (run (fuel + 1) s.current.tokenStart l))
      (Tokens.resume budget (run (fuel + 1) s.current.tokenStart l))) :
    Driven g name src rest s := by
  intro l fuel budget hl hfuel hbudget
  obtain ⟨fuel, rfl⟩ : ∃ f, fuel = f + 1 := ⟨fuel - 1, by omega⟩
  exact h l fuel budget hl (Nat.le_of_lt_succ hfuel) hbudget

theorem record_goes (h : Stands g name src l s) (hs : s.index = src.length) (he : l.hitEof = true)
    (budget : Nat) (attempts : List Attempt) {e : Token} (hk : e.kind = .eof)
    (hr : attempts = [] ∧ e.Bare src.length ∨
      ∃ t : Attempt, attempts = [t] ∧ t.ending = .unfinished e ∧ t.reported = []) :
    Goes src.length attempts l.listeners.log
      (attempts ++ Tokens.resumeAttempts budget (l.record e))
      (Tokens.resume budget (l.record e)) := by
  have heof : e.isEof = true := by
    rw [Token.isEof, hk]
    rfl
  constructor
  · simp only [record, Tokens.resumeAttempts, heof, ↓reduceIte, List.append_nil]
  · simp only [record, Tokens.resume, heof, ↓reduceIte]
    rcases hr with ⟨rfl, -⟩ | ⟨t, rfl, hend, -⟩
    · rfl
    · rw [Attempt.returned, hend]
      rfl
  · simp only [record, Tokens.resume, heof, ↓reduceIte]
    rcases hr with ⟨rfl, -⟩ | ⟨t, rfl, -, hrep⟩
    · exact (List.append_nil _).symm
    · rw [List.flatMap_singleton, hrep, List.append_nil]
      rfl
  · intro tokens _
    simp only [record, Tokens.resume, heof, ↓reduceIte]
    refine ⟨e, ⟨l.input, rfl, by rw [h.index_eq, hs]⟩, he, h.common, rfl, hk, ?_⟩
    rcases hr with ⟨rfl, hb⟩ | ⟨t, rfl, hend, -⟩
    · exact .inr ⟨rfl, hb⟩
    · refine .inl ?_
      rw [List.findSome?_singleton, Attempt.endToken?, hend]

/-- After an attempt the driver stops at the end of the input and else begins the next one. -/
theorem Driven.onward (h : Driven g name src rest s) (hp : s.Placed src rest)
    (hs : s.attempt = none) (hl : Stands g name src l s) (he : l.hitEof = rest.isEmpty)
    (fuel budget : Nat) (hf : rest.length < fuel) (hb : rest.length ≤ budget) :
    Goes src.length (course g name rest s) l.listeners.log
      ((if l.hitEof then [] else runAttempts fuel l.begun l.begin) ++
        Tokens.resumeAttempts budget (if l.hitEof then l.emitEof else run fuel l.here l.begin))
      (Tokens.resume budget (if l.hitEof then l.emitEof else run fuel l.here l.begin)) := by
  cases rest with
  | nil =>
    have ht : l.hitEof = true := he
    have hi := hp.length_eq
    simp only [ht, ↓reduceIte]
    rw [course_none name hs]
    refine record_goes hl hi ht budget [] ?_ (.inl ⟨rfl, ?_⟩)
    · rw [hl.common]
      rfl
    · rw [hl.common, hl.index_eq, ← hi]
      exact ⟨rfl, rfl, if_neg (Nat.lt_irrefl _), rfl⟩
  | cons c cs =>
    have ht : l.hitEof = false := he
    simp only [ht, Bool.false_eq_true, ↓reduceIte]
    rw [hl.here_eq hs, begun_eq hl hs]
    exact h l.begin fuel budget (hl.begin hs) hf hb

theorem begun_after (o : OpenAttempt) (r : Rule) (chars : List Char) (n : Nat) :
    (o.begun n).after (some r) = (o.extend r chars).begun n := rfl

theorem ended_begun (o : OpenAttempt) (ending : Ending) (hi : CharStream.index l'.input = o.stop)
    (hl : l'.listeners = l.listeners) :
    (o.begun l.listeners.log.entries.size).ended l' ending = o.ended ending := by
  have hd : l'.listeners.log.entries.toList.drop l.listeners.log.entries.size = [] :=
    List.drop_eq_nil_of_le (by rw [hl, Array.length_toList])
  simp only [Begun.ended, OpenAttempt.begun, hi, hd, List.map_nil]
  rfl

theorem ended_unmatched (o : OpenAttempt) {c : Char} {log : Log}
    (hi : CharStream.index l.input = o.stop + 1)
    (hlog : l.listeners.log = log.deliver Tokenization.inbox (o.diagnostic name c)) :
    (o.begun log.entries.size).ended l .unmatched = o.unmatched name c := by
  have hd : l.listeners.log.entries.toList.drop log.entries.size =
      [(Tokenization.inbox, o.diagnostic name c)] := by
    rw [hlog, Log.deliver, Array.toList_push, List.drop_left' Array.length_toList]
  simp only [Begun.ended, OpenAttempt.begun, hi, hd, List.map_cons, List.map_nil]
  rfl

theorem run_end (hl : Follows g name src l s) (hp : s.Placed src []) (fuel : Nat) :
    ∃ l', run (fuel + 1) s.current.tokenStart l = l'.record (s.current.token name .eof) ∧
      Stands g name src l' s ∧ l'.hitEof = true ∧ l'.listeners = l.listeners := by
  obtain ⟨l', hfire, hl', heof, hlisteners⟩ := fire_end hl hp s.current.tokenStart
  refine ⟨l', ?_, hl'.toStands, heof, hlisteners⟩
  rw [run, hfire, ← build_eq hl' hp]

/-- The attempts of a run with no characters left: the one under way, if there is one. -/
theorem runAttempts_nil (hl : Follows g name src l s) (hp : s.Placed src []) (fuel : Nat) :
    runAttempts (fuel + 1) (s.current.begun l.listeners.log.entries.size) l =
      course g name [] s := by
  obtain ⟨l', hfire, hl', -, hlisteners⟩ := fire_end hl hp s.current.tokenStart
  have hpick : l.pick = none := by
    rw [pick_eq hl.toStands hp, winner?_nil]
    rfl
  have hstop : CharStream.index l'.input = s.current.stop := by rw [hl'.index_eq, hp.stop_eq]
  have hended := ended_begun s.current (.unfinished (s.current.token name .eof)) hstop hlisteners
  have hbuild : l'.build .eof (s.current.begun l.listeners.log.entries.size).start =
      s.current.token name .eof := build_eq hl' hp .eof
  rw [runAttempts_end fuel hpick hfire, hbuild, hended]
  cases hs : s.attempt with
  | none =>
    have hfired : s.current.fired = [] := by rw [Scan.current_none hs]
    rw [course_none name hs]
    exact if_pos (List.isEmpty_iff.mpr hfired)
  | some o =>
    have hcur := Scan.current_some hs
    have hfired : s.current.fired ≠ [] := by
      rw [hcur]
      exact (hp.begun o hs).2
    rw [course_open name hs, ← hcur]
    exact if_neg fun he => hfired (List.isEmpty_iff.mp he)

/-- With no characters left the next answer is the end token, made of the attempt under way. -/
theorem driven_end (hp : s.Placed src []) : Driven g name src [] s := by
  refine .intro fun l fuel budget hl _ _ => ?_
  obtain ⟨l', hrun, hl', heof, hlisteners⟩ := run_end hl hp fuel
  rw [runAttempts_nil hl hp, hrun, ← hlisteners]
  refine record_goes hl' hp.length_eq heof budget (course g name [] s) rfl ?_
  cases hs : s.attempt with
  | none =>
    refine .inl ⟨course_none name hs, ?_⟩
    have hi : s.index = src.length := hp.length_eq
    rw [Scan.current_none hs]
    exact ⟨hi, hi, rfl, rfl⟩
  | some o =>
    rw [Scan.current_some hs]
    exact .inr ⟨_, course_open name hs, rfl, rfl⟩

variable {c : Char} {cs : List Char} {r : Rule} {n : Nat}

theorem driven_unmatched (hp : s.Placed src (c :: cs)) (hd : s.Declared g)
    (hw : winner? (g.rulesOf s.mode) (c :: cs) = none)
    (ih : Driven g name src cs (s.past [c] s.mode s.stack none)) :
    Driven g name src (c :: cs) s := by
  refine .intro fun l fuel budget hl hfuel hbudget => ?_
  rw [List.length_cons] at hfuel hbudget
  obtain ⟨l', hfire, hl', heof, hlog⟩ := fire_unmatched hl.toStands hp hd hw
  have hpick : l.pick = none := by
    rw [pick_eq hl.toStands hp, hw]
    rfl
  have hstop : CharStream.index l'.input = s.current.stop + 1 := by
    rw [hl'.index_eq, hp.stop_eq]
    rfl
  have hrest := ih.onward hp.past_one rfl hl' heof fuel budget
    hfuel (Nat.le_of_succ_le hbudget)
  rw [course_unmatched name hw, run, hfire, runAttempts_unmatched fuel hpick hfire,
    ended_unmatched s.current hstop hlog]
  refine hrest.cons (.inr rfl) ?_
  rw [hlog, Log.received_deliver]
  rfl

theorem pick_winner (hl : Follows g name src l s) (hp : s.Placed src (c :: cs))
    (hw : winner? (g.rulesOf s.mode) (c :: cs) = some (r, n)) : l.pick = some r := by
  rw [pick_eq hl.toStands hp, hw]
  rfl

theorem driven_underflow (hp : s.Placed src (c :: cs))
    (hw : winner? (g.rulesOf s.mode) (c :: cs) = some (r, n))
    (hm : Action.modesAfter? s.mode s.stack r.actions = none) : Driven g name src (c :: cs) s := by
  refine .intro fun l fuel budget hl _ _ => ?_
  obtain ⟨l', hfire, hindex, hlisteners⟩ :=
    fire_underflow hl.toStands hp hw hm s.current.tokenStart
  have hpick := pick_winner hl hp hw
  have hstop : CharStream.index l'.input = (s.current.extend r ((c :: cs).take n)).stop := by
    rw [hindex, hp.stop_extend, List.length_take_of_le (winner?_le hw)]
  rw [course_underflow name hw hm, run, hfire, runAttempts_failed fuel hfire, hpick,
    begun_after _ _ ((c :: cs).take n), ended_begun _ _ hstop hlisteners]
  refine ⟨rfl, rfl, ?_, fun tokens hok => ?_⟩
  · have hlog := congrArg (fun ls : Listeners => ls.log.received Tokenization.inbox) hlisteners
    exact hlog.trans (List.append_nil _).symm
  · contradiction

/-- A text in memory needs no pin: a call is a search. -/
theorem nextToken_text (l : ActiveLexer TextStream RuleEngine) : l.nextToken = l.search := rfl

theorem attempts_text (l : ActiveLexer TextStream RuleEngine) :
    l.toLexer.attempts = l.searchAttempts := rfl

/-- After a token the sequence goes on with the next call. -/
theorem resume_token (l : ActiveLexer TextStream RuleEngine) (token : Token)
    (ht : token.isEof = false) (budget : Nat) :
    let next := { l with token := some token }
    Tokens.resume (budget + 1) (l.record token) =
        ((Tokens.resume budget next.search).1.map (token :: ·),
          (Tokens.resume budget next.search).2) ∧
      Tokens.resumeAttempts (budget + 1) (l.record token) =
        next.searchAttempts ++ Tokens.resumeAttempts budget next.search := by
  intro next
  have hd := Tokens.drain_succ next budget
  have ha := Tokens.attempts_succ next budget
  rw [nextToken_text] at hd ha
  rw [attempts_text] at ha
  constructor
  · rw [record, Tokens.resume, if_neg (by rw [ht]; exact Bool.false_ne_true)]
    exact congrArg (fun d : Except LexError (List Token) × Tokens TextStream RuleEngine =>
      (d.1.map (token :: ·), d.2)) hd
  · rw [record, Tokens.resumeAttempts, if_neg (by rw [ht]; exact Bool.false_ne_true)]
    exact ha

section

variable {mode : ModeId} {stack : List ModeId}
  (hw : winner? (g.rulesOf s.mode) (c :: cs) = some (r, n))
  (hm : Action.modesAfter? s.mode s.stack r.actions = some (mode, stack))

include hw hm

theorem driven_more (hp : s.Placed src (c :: cs)) (hdec : r.decision = .more)
    (ih : Driven g name src ((c :: cs).drop n) (s.past ((c :: cs).take n) mode stack
      (some (s.current.extend r ((c :: cs).take n))))) :
    Driven g name src (c :: cs) s := by
  refine .intro fun l fuel budget hl hfuel hbudget => ?_
  have hpick := pick_winner hl hp hw
  have hlt := winner?_drop_lt hw
  obtain ⟨l', hfire, hl', -, hlisteners⟩ :=
    fire_winner hl hp hw hm s.current.tokenStart
  rw [hdec] at hfire
  have hgoes := ih l' fuel budget hl' (by omega) (by omega)
  rw [hlisteners] at hgoes
  rw [course_winner name hw hm, hdec, run, hfire, runAttempts_more fuel hpick hfire,
    begun_after _ _ ((c :: cs).take n)]
  exact hgoes

/-- A rule that skips closes its attempt, and the next one begins in the same call. -/
theorem driven_skip (hp : s.Placed src (c :: cs)) (hdec : r.decision = .skip)
    (ih : Driven g name src ((c :: cs).drop n) (s.past ((c :: cs).take n) mode stack none)) :
    Driven g name src (c :: cs) s := by
  refine .intro fun l fuel budget hl hfuel hbudget => ?_
  have hpick := pick_winner hl hp hw
  have hlt := winner?_drop_lt hw
  obtain ⟨l', hfire, hl', heof, hlisteners⟩ :=
    fire_winner hl hp hw hm s.current.tokenStart
  rw [hdec] at hfire
  have hstop : CharStream.index l'.input = (s.current.extend r ((c :: cs).take n)).stop := by
    rw [hl'.index_eq, hp.stop_extend]
    rfl
  have hrest := ih.onward (hp.cut n).past_none rfl hl'.toStands.close heof fuel budget
    (by omega) (by omega)
  rw [course_winner name hw hm, hdec, run, hfire, runAttempts_skipped fuel hpick hfire,
    begun_after _ _ ((c :: cs).take n), ended_begun _ _ hstop hlisteners]
  refine hrest.cons (.inl rfl) ?_
  rw [hlisteners]
  exact (List.append_nil _).symm

/-- A rule that decides on a kind ends the call with a token, and the next call goes on. -/
theorem driven_token (hp : s.Placed src (c :: cs)) {kind : TokenKind}
    (hdec : r.decision = .token kind) (hk : kind ≠ .eof)
    (ih : Driven g name src ((c :: cs).drop n) (s.past ((c :: cs).take n) mode stack none)) :
    Driven g name src (c :: cs) s := by
  refine .intro fun l fuel budget hl hfuel hbudget => ?_
  obtain ⟨budget, rfl⟩ : ∃ b, budget = b + 1 :=
    ⟨budget - 1, by rw [List.length_cons] at hbudget; omega⟩
  have hpick := pick_winner hl hp hw
  have hlt := winner?_drop_lt hw
  obtain ⟨l', hfire, hl', heof, hlisteners⟩ :=
    fire_winner hl hp hw hm s.current.tokenStart
  rw [hdec] at hfire
  let o := s.current.extend r ((c :: cs).take n)
  have hstop : CharStream.index l'.input = o.stop := by
    rw [hl'.index_eq, hp.stop_extend]
    rfl
  have hbuild : l'.build kind s.current.tokenStart = o.token name kind :=
    build_eq hl' ((hp.cut n).past_extend (winner?_take_ne hw) r) kind
  -- The next call begins here, with firings of its own: the rest of this call's are not used.
  let next : ActiveLexer TextStream RuleEngine := { l' with token := some (o.token name kind) }
  have hnext : Stands g name src next (s.past ((c :: cs).take n) mode stack none) :=
    { hl'.toStands.close with }
  have hpatience := hnext.patience_eq
  have hlen := hp.length_eq
  have hrest := ih.onward (hp.cut n).past_none rfl hnext heof next.patience
    budget (by omega) (by omega)
  have hlog : next.listeners.log = l.listeners.log := congrArg Listeners.log hlisteners
  rw [hlog] at hrest
  obtain ⟨hresume, htrace⟩ := resume_token l' (o.token name kind)
    (beq_false_of_ne hk) budget
  have hrun : run (fuel + 1) s.current.tokenStart l = l'.record (o.token name kind) := by
    rw [run, hfire, ← hbuild]
    rfl
  have hbuild' : l'.build kind (s.current.begun l.listeners.log.entries.size).start =
      o.token name kind := hbuild
  rw [course_winner name hw hm, hdec, hrun, hresume, htrace, runAttempts_token fuel hpick hfire,
    begun_after _ _ ((c :: cs).take n), hbuild', ended_begun _ _ hstop hlisteners]
  exact hrest.cons_token rfl rfl

end

/-- Along the whole course, by induction on it. -/
theorem driven (hg : g.Sound) (hn : g.NeverAssignsEof) (hp : s.Placed src rest)
    (hd : s.Declared g) : Driven g name src rest s := by
  -- `Driven` is about every lexer, fuel and budget, so the induction needs no other motive.
  induction rest, s using course.induct g with
  | case1 s | case2 s => exact driven_end hp
  -- No rule takes a character.
  | case3 s c cs hw ih =>
    exact driven_unmatched hp hd hw (ih hp.past_one ⟨hd.mode_lt, hd.stack_lt⟩)
  -- A pop finds no mode suspended.
  | case4 s c cs r n hw hm => exact driven_underflow hp hw hm
  -- The winner decides on a kind, on more, or on a skip.
  | case5 s c cs r n hw chars mode stack hm kind hdec ih =>
    have hr := g.rulesOf_subset s.mode (winner?_spec hw).1
    have hk := Rule.decision_ne_eof hg hn hr hdec
    exact driven_token hw hm hp hdec hk (ih (hp.cut n).past_none (hd.past hg hr hm none))
  | case6 s c cs r n hw chars o mode stack hm hdec ih =>
    have hr := g.rulesOf_subset s.mode (winner?_spec hw).1
    exact driven_more hw hm hp hdec
      (ih ((hp.cut n).past_extend (winner?_take_ne hw) r) (hd.past hg hr hm (some o)))
  | case7 s c cs r n hw chars mode stack hm hdec ih =>
    have hr := g.rulesOf_subset s.mode (winner?_spec hw).1
    exact driven_skip hw hm hp hdec (ih (hp.cut n).past_none (hd.past hg hr hm none))

end ActiveLexer

namespace Tokenization

variable {g : Grammar}

def active (g : Grammar) (source name : String) : ActiveLexer TextStream RuleEngine :=
  { lexer g source name with input := TextStream.ofString source name }

theorem stands_active (g : Grammar) (source name : String) :
    (active g source name).Stands g name source.toList .initial where
  shows := TextStream.rests_ofString source name
  index_eq := rfl
  position_eq := rfl
  grammar_eq := rfl
  mode_eq := rfl
  stack_eq := rfl
  emitted_eq := rfl
  name_eq := rfl
  common := rfl
  listening := rfl
  eof_imp h := nomatch h

/-- A tokenization goes as the course from the start of the text does. -/
theorem goes (hg : g.Sound) (hn : g.NeverAssignsEof) (source name : String) :
    Goes source.toList.length (course g name source.toList .initial) .empty
      (attempts g source name)
      ((lexer g source name).tokens.drain (lexer g source name).patience) := by
  have hs := stands_active g source name
  have hdriven : ActiveLexer.Driven g name source.toList source.toList .initial :=
    ActiveLexer.driven hg hn (Scan.placed_initial source.toList) (Scan.declared_initial hg)
  have hfuel : source.toList.length < (active g source name).patience := by
    rw [hs.patience_eq]
    exact Nat.lt_succ_self _
  have hgoes := hdriven (active g source name).begin (active g source name).patience
    (source.toList.length + 1) (hs.begin rfl) hfuel (Nat.le_succ _)
  have hpatience : (lexer g source name).patience = source.toList.length + 1 + 1 := by
    rw [← LawfulView.extent_eq hs.shows]
    exact congrArg (· + 2) (Nat.zero_add _)
  have hdrain := Tokens.drain_succ (active g source name) (source.toList.length + 1)
  have hattempts := Tokens.attempts_succ (active g source name) (source.toList.length + 1)
  have htokens : (lexer g source name).tokens = ⟨(active g source name).toLexer, false⟩ := rfl
  rw [attempts, hpatience, htokens, hdrain, hattempts]
  exact hgoes

/-- Tokenizing is the reference recursion over the characters. For every compiled grammar whose
actions never assign the end kind, and every text, it returns the tokens and diagnostics of the
course from the start of the text, or the error that the course ends in. -/
theorem tokenize_eq_course {spec : GrammarSpec} (hspec : spec.compile = .ok g)
    (hn : g.NeverAssignsEof) (source name : String) :
    tokenize g source name = Attempt.outcome (course g name source.toList .initial) := by
  have hgoes := goes (GrammarSpec.compile_sound hspec) hn source name
  have hreceived := hgoes.received_eq
  rw [Attempt.outcome, ← hgoes.answer_eq, tokenize, lexText, Lexer.allTokens]
  rcases hd : (lexer g source name).tokens.drain (lexer g source name).patience with ⟨e | tokens, ts⟩
  · rfl
  · rw [hd] at hreceived
    exact congrArg (fun ds => Except.ok (Tokenization.mk tokens ds)) hreceived

/-- Words, and texts in quotes: an opening quote goes on in a mode of its own, which the closing
one leaves. -/
def quotingSpec : GrammarSpec where
  name := "Quoting"
  modes := [
    ⟨"PLAIN", [
      .token "WORD" ⟨1⟩ (.oneOrMore "a-z"),
      (RuleSpec.fragment "OPEN" (.literal "\"")).withAction .more |>.withAction
        (.pushMode "QUOTED")]⟩,
    ⟨"QUOTED", [
      (RuleSpec.fragment "INNER" (.noneOf "\"")).withAction .more,
      (RuleSpec.token "TEXT" ⟨2⟩ (.literal "\"")).withAction .popMode]⟩]

def quoting : Grammar where
  name := "Quoting"
  modes := [
    ⟨"PLAIN", [
      ⟨"WORD", some ⟨1⟩, .set ⟨[('a', 'z')], false⟩ 1 none, []⟩,
      ⟨"OPEN", none, .literal ['"'], [.more, .pushMode ⟨1⟩]⟩]⟩,
    ⟨"QUOTED", [
      ⟨"INNER", none, .set ⟨[('"', '"')], true⟩ 1 none, [.more]⟩,
      ⟨"TEXT", some ⟨2⟩, .literal ['"'], [.popMode]⟩]⟩]

theorem compile_quoting : quotingSpec.compile = .ok quoting := by rfl

theorem neverAssignsEof_quoting : quoting.NeverAssignsEof := by
  unfold Grammar.NeverAssignsEof
  decide

theorem tokenize_eq_course_quoting :
    quotingSpec.compile = .ok quoting ∧ quoting.NeverAssignsEof ∧
      tokenize quoting "x\"ab\"" "inline" =
        Attempt.outcome (course quoting "inline" "x\"ab\"".toList .initial) :=
  ⟨compile_quoting, neverAssignsEof_quoting,
    tokenize_eq_course compile_quoting neverAssignsEof_quoting "x\"ab\"" "inline"⟩

end Tokenization

end ModalLex

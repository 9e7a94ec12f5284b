import ModalLex.Proofs.Grammar.Soundness

/-!
# Which specifications compile, and to what

The violations of a specification are listed in the order in which compilation comes to them. It
fails with the first of them, and succeeds exactly where there is none. A compiled grammar keeps all
that its specification says, with the sets read and the names of modes resolved to their places.
-/
namespace ModalLex

section

variable {α β ε : Type}

/-- The error of a computation that fails. -/
def error? : Except ε α → Option ε
  | .ok _ => none
  | .error e => some e

theorem error?_eq_some {x : Except ε α} {e : ε} : error? x = some e ↔ x = .error e := by
  cases x with
  | ok a => exact ⟨nofun, nofun⟩
  | error e' =>
    exact ⟨fun h => congrArg _ (Option.some.inj h), fun h => congrArg _ (Except.error.inj h)⟩

theorem error?_eq_none {x : Except ε α} : error? x = none ↔ ∃ a, x = .ok a := by
  cases x with
  | ok a => exact ⟨fun _ => ⟨a, rfl⟩, fun _ => rfl⟩
  | error e => exact ⟨nofun, nofun⟩

theorem error?_map (x : Except ε α) (f : α → β) : error? (x.map f) = error? x := by
  cases x <;> rfl

/-- Of two computations one after the other the second fails only where the first succeeds. -/
theorem error?_bind {x : Except ε α} {f : α → Except ε β} {first later : List ε}
    (hx : error? x = first.head?) (hf : ∀ a, x = .ok a → error? (f a) = later.head?) :
    error? (x >>= f) = (first ++ later).head? := by
  rw [List.head?_append, ← hx]
  cases x with
  | error e => rfl
  | ok a => exact hf a rfl

theorem error?_mapM {f : α → Except ε β} {errors : α → List ε}
    (h : ∀ a, error? (f a) = (errors a).head?) (xs : List α) :
    error? (xs.mapM f) = (xs.flatMap errors).head? := by
  induction xs with
  | nil => rfl
  | cons x xs ih =>
    rw [List.mapM_cons, List.flatMap_cons]
    refine error?_bind (h x) fun b _ => ?_
    have hlast : error? (xs.mapM f >>= fun bs => .ok (b :: bs)) =
        (xs.flatMap errors ++ []).head? := error?_bind ih fun _ _ => rfl
    rw [List.append_nil] at hlast
    exact hlast

end

/-! ## Violations -/

/-- The name of the mode that an action enters. -/
def ActionSpec.target? : ActionSpec → Option String
  | .pushMode m | .mode m => some m
  | .skip | .more | .popMode | .kind _ | .channel _ | .text _ => none

mutual

/-- The sets of a pattern at every depth, from the left. -/
def PatternSpec.sets : PatternSpec → List SetSpec
  | .literal _ => []
  | .set s => [s]
  | .seq parts => PatternSpec.setsOf parts

def PatternSpec.setsOf : List PatternSpec → List SetSpec
  | [] => []
  | p :: rest => p.sets ++ PatternSpec.setsOf rest

end

/-- The names that stand earlier in the list as well. -/
def repeats (names : List String) : List String :=
  (names.zipIdx.filter fun p => (names.take p.2).contains p.1).map Prod.fst

variable {names : List String}

def ActionSpec.violations (names : List String) (rule : String) (a : ActionSpec) :
    List GrammarError :=
  match a.target? with
  | none => []
  | some m => if m ∈ names then [] else [.unknownMode rule m]

def SetSpec.violations (s : SetSpec) : List GrammarError :=
  (error? (CharSet.parse s.chars s.negated)).toList.map (.invalidSet s.chars)

namespace RuleSpec

def kindViolations (r : RuleSpec) : List GrammarError :=
  match r.kind with
  | none => if r.actions.any ActionSpec.settles then [] else [.missingKind r.name]
  | some kind => if kind.code < TokenKind.minUser.code then [.reservedKind r.name kind] else []

def violations (names : List String) (r : RuleSpec) : List GrammarError :=
  r.actions.flatMap (ActionSpec.violations names r.name) ++
    (r.kindViolations ++ r.pattern.sets.flatMap SetSpec.violations)

/-- A rule enters declared modes only, says what becomes of a match, and describes its sets well. -/
structure WellFormed (names : List String) (r : RuleSpec) : Prop where
  declared : ∀ a ∈ r.actions, ∀ m, a.target? = some m → m ∈ names
  kind : (∃ k, r.kind = some k ∧ TokenKind.minUser.code ≤ k.code) ∨
    r.kind = none ∧ ∃ a ∈ r.actions, a = .skip ∨ a = .more ∨ ∃ k, a = .kind k
  sets : ∀ s ∈ r.pattern.sets, ∃ members, CharSet.parse s.chars s.negated = .ok members

end RuleSpec

namespace GrammarSpec

def modeNames (g : GrammarSpec) : List String := g.modes.map ModeSpec.name

def rules (g : GrammarSpec) : List RuleSpec := g.modes.flatMap ModeSpec.rules

/-- All that is wrong with a specification: that it has no modes, the names of modes that are
repeated, and then the rules in order, of each the modes that its actions do not find, its kind,
and the sets that cannot be read. -/
def violations (g : GrammarSpec) : List GrammarError :=
  (if g.modes = [] then [.noModes] else []) ++
    ((repeats g.modeNames).map .duplicateMode ++
      g.rules.flatMap (RuleSpec.violations g.modeNames))

structure WellFormed (g : GrammarSpec) : Prop where
  modes_ne : g.modes ≠ []
  names_nodup : g.modeNames.Nodup
  rules : ∀ r ∈ g.rules, r.WellFormed g.modeNames

end GrammarSpec

/-! ## The first violation -/

theorem firstRepeated?_eq (before names : List String) :
    firstRepeated? before.reverse names =
      (((names.zipIdx before.length).filter fun p =>
        ((before ++ names).take p.2).contains p.1).map Prod.fst).head? := by
  induction names generalizing before with
  | nil => rfl
  | cons name names ih =>
    have hnext := ih (before ++ [name])
    rw [List.reverse_append, List.length_append, List.append_assoc] at hnext
    rw [firstRepeated?, List.zipIdx_cons, List.filter_cons, List.take_left, List.contains_reverse]
    split
    · rfl
    · exact hnext

theorem firstRepeated?_none {seen : List String} :
    firstRepeated? seen names = none ↔ names.Nodup ∧ ∀ n ∈ names, n ∉ seen := by
  induction names generalizing seen with
  | nil => simp [firstRepeated?]
  | cons name names ih =>
    rw [firstRepeated?]
    split
    · rename_i hmem
      exact ⟨nofun, fun h =>
        absurd (List.contains_iff_mem.mp hmem) (h.2 name List.mem_cons_self)⟩
    · rename_i hmem
      rw [List.contains_iff_mem] at hmem
      rw [ih, List.nodup_cons, List.forall_mem_cons]
      constructor
      · rintro ⟨hnodup, hnew⟩
        exact ⟨⟨fun hin => hnew name hin List.mem_cons_self, hnodup⟩, hmem,
          fun n hn hs => hnew n hn (List.mem_cons_of_mem _ hs)⟩
      · rintro ⟨⟨hnot, hnodup⟩, -, hnew⟩
        refine ⟨hnodup, fun n hn hs => ?_⟩
        rcases List.mem_cons.mp hs with rfl | hs
        · exact hnot hn
        · exact hnew n hn hs

theorem firstRepeated?_eq_head? (names : List String) :
    firstRepeated? [] names = (repeats names).head? :=
  firstRepeated?_eq [] names

theorem repeats_eq_nil : repeats names = [] ↔ names.Nodup := by
  rw [← List.head?_eq_none_iff, ← firstRepeated?_eq_head?, firstRepeated?_none]
  exact and_iff_left fun n _ => List.not_mem_nil

theorem mem_of_idxOf? {mode : String} {i : Nat} (h : names.idxOf? mode = some i) :
    mode ∈ names := by
  obtain ⟨hi, heq, -⟩ := List.idxOf?_eq_some_iff.mp h
  exact heq ▸ List.getElem_mem hi

theorem error?_resolveMode (names : List String) (rule mode : String) :
    error? (resolveMode names rule mode) =
      (if mode ∈ names then [] else [GrammarError.unknownMode rule mode]).head? := by
  rw [resolveMode]
  cases h : names.idxOf? mode with
  | none =>
    rw [if_neg (List.idxOf?_eq_none_iff.mp h)]
    rfl
  | some i =>
    rw [if_pos (mem_of_idxOf? h)]
    rfl

theorem ActionSpec.error?_compile (rule : String) (a : ActionSpec) :
    error? (a.compile names rule) = (a.violations names rule).head? := by
  cases a with
  | pushMode mode | mode mode =>
    rw [compile, error?_map]
    exact error?_resolveMode names rule mode
  | _ => rfl

theorem RuleSpec.error?_checkKind (r : RuleSpec) : error? r.checkKind = r.kindViolations.head? := by
  rw [checkKind, kindViolations]
  cases r.kind with
  | none =>
    dsimp only
    split <;> rfl
  | some kind =>
    dsimp only
    split <;> rfl

theorem SetSpec.head?_violations (s : SetSpec) :
    s.violations.head? =
      (error? (CharSet.parse s.chars s.negated)).map (.invalidSet s.chars) := by
  rw [violations, List.head?_map]
  cases error? (CharSet.parse s.chars s.negated) <;> rfl

mutual

theorem PatternSpec.error?_compile :
    ∀ p : PatternSpec, error? p.compile = (p.sets.flatMap SetSpec.violations).head?
  | .literal _ => rfl
  | .set s => by
    rw [PatternSpec.sets, List.flatMap_singleton, SetSpec.head?_violations, PatternSpec.compile]
    cases CharSet.parse s.chars s.negated <;> rfl
  | .seq parts => by
    rw [PatternSpec.compile, error?_map]
    exact PatternSpec.error?_compileAll parts

theorem PatternSpec.error?_compileAll :
    ∀ parts : List PatternSpec,
      error? (PatternSpec.compileAll parts) =
        ((PatternSpec.setsOf parts).flatMap SetSpec.violations).head?
  | [] => rfl
  | p :: parts => by
    have hfirst := PatternSpec.error?_compile p
    rw [PatternSpec.compileAll, PatternSpec.setsOf, List.flatMap_append, List.head?_append,
      ← hfirst]
    cases p.compile with
    | error e => rfl
    | ok q =>
      dsimp only
      rw [error?_map]
      exact PatternSpec.error?_compileAll parts

end

theorem RuleSpec.error?_compile (r : RuleSpec) :
    error? (r.compile names) = (r.violations names).head? := by
  rw [compile, violations]
  refine error?_bind (error?_mapM (ActionSpec.error?_compile r.name) r.actions) fun actions _ => ?_
  refine error?_bind r.error?_checkKind fun _ _ => ?_
  rw [← List.append_nil (r.pattern.sets.flatMap _)]
  exact error?_bind (PatternSpec.error?_compile r.pattern) fun _ _ => rfl

theorem ModeSpec.error?_compile (m : ModeSpec) :
    error? (m.compile names) = (m.rules.flatMap (RuleSpec.violations names)).head? := by
  rw [compile, ← List.append_nil (m.rules.flatMap _)]
  exact error?_bind (error?_mapM RuleSpec.error?_compile m.rules) fun _ _ => rfl

/-- Compilation fails with the first violation. -/
theorem GrammarSpec.error?_compile (g : GrammarSpec) : error? g.compile = g.violations.head? := by
  have hrepeats : firstRepeated? [] (g.modes.map ModeSpec.name) = (repeats g.modeNames).head? :=
    firstRepeated?_eq_head? g.modeNames
  rw [compile, violations, hrepeats]
  cases hmodes : g.modes with
  | nil => rfl
  | cons m ms =>
    rw [List.isEmpty_cons, if_neg Bool.false_ne_true, if_neg (List.cons_ne_nil m ms),
      List.nil_append, ← hmodes, List.head?_append, List.head?_map]
    cases (repeats g.modeNames).head? with
    | some name => rfl
    | none =>
      rw [Option.map_none, Option.none_or, ← List.append_nil (g.rules.flatMap _), rules,
        List.flatMap_assoc]
      exact error?_bind (error?_mapM ModeSpec.error?_compile g.modes) fun _ _ => rfl

/-! ## Where nothing is violated -/

theorem ActionSpec.violations_eq_nil {rule : String} {a : ActionSpec} :
    a.violations names rule = [] ↔ ∀ m, a.target? = some m → m ∈ names := by
  rw [violations]
  cases a.target? with
  | none => exact ⟨fun _ => nofun, fun _ => rfl⟩
  | some m =>
    rw [ite_eq_left_iff]
    constructor
    · intro h n hn
      obtain rfl := Option.some.inj hn
      exact Decidable.byContradiction fun hnot => List.cons_ne_nil _ _ (h hnot)
    · exact fun h hnot => absurd (h m rfl) hnot

theorem SetSpec.violations_eq_nil {s : SetSpec} :
    s.violations = [] ↔ ∃ members, CharSet.parse s.chars s.negated = .ok members := by
  rw [violations, List.map_eq_nil_iff, Option.toList_eq_nil_iff, error?_eq_none]

theorem ActionSpec.settles_iff {a : ActionSpec} :
    a.settles = true ↔ a = .skip ∨ a = .more ∨ ∃ k, a = .kind k := by
  cases a <;> simp [settles]

namespace RuleSpec

theorem kindViolations_eq_nil {r : RuleSpec} :
    r.kindViolations = [] ↔ (∃ k, r.kind = some k ∧ TokenKind.minUser.code ≤ k.code) ∨
      r.kind = none ∧ ∃ a ∈ r.actions, a = .skip ∨ a = .more ∨ ∃ k, a = .kind k := by
  rw [kindViolations]
  cases r.kind with
  | none => simp [← ActionSpec.settles_iff]
  | some k => simp [← Int32.not_lt]

theorem violations_eq_nil {r : RuleSpec} : r.violations names = [] ↔ r.WellFormed names := by
  rw [violations, List.append_eq_nil_iff, List.append_eq_nil_iff, List.flatMap_eq_nil_iff,
    List.flatMap_eq_nil_iff, kindViolations_eq_nil]
  simp only [ActionSpec.violations_eq_nil, SetSpec.violations_eq_nil]
  exact ⟨fun ⟨ha, hk, hs⟩ => ⟨ha, hk, hs⟩, fun ⟨ha, hk, hs⟩ => ⟨ha, hk, hs⟩⟩

end RuleSpec

theorem GrammarSpec.violations_eq_nil {g : GrammarSpec} : g.violations = [] ↔ g.WellFormed := by
  rw [violations, List.append_eq_nil_iff, List.append_eq_nil_iff, List.map_eq_nil_iff,
    repeats_eq_nil, List.flatMap_eq_nil_iff, ite_eq_right_iff]
  simp only [RuleSpec.violations_eq_nil]
  constructor
  · rintro ⟨hmodes, hnames, hrules⟩
    exact ⟨fun h => List.cons_ne_nil _ _ (hmodes h), hnames, hrules⟩
  · rintro ⟨hmodes, hnames, hrules⟩
    exact ⟨fun h => absurd h hmodes, hnames, hrules⟩

/-! ## What a specification becomes -/

/-- A pattern keeps its shape, with its texts spelt out and its sets read. -/
inductive PatternSpec.Becomes : PatternSpec → Pattern → Prop
  | literal (text : String) : Becomes (.literal text) (.literal text.toList)
  | set {s : SetSpec} {members : CharSet} (h : CharSet.parse s.chars s.negated = .ok members) :
      Becomes (.set s) (.set members s.min.toNat (s.max.map UInt64.toNat))
  | seq {parts : List PatternSpec} {patterns : List Pattern}
      (h : List.Forall₂ Becomes parts patterns) : Becomes (.seq parts) (.seq patterns)

/-- A mode's name stands for the mode of that name. -/
def Grammar.Resolves (g : Grammar) (name : String) (id : ModeId) : Prop :=
  g.modeNames[id.index]? = some name ∧ g.modeId? name = some id

inductive ActionSpec.Becomes (g : Grammar) : ActionSpec → Action → Prop
  | skip : Becomes g .skip .skip
  | more : Becomes g .more .more
  | popMode : Becomes g .popMode .popMode
  | kind (k : TokenKind) : Becomes g (.kind k) (.kind k)
  | channel (ch : Channel) : Becomes g (.channel ch) (.channel ch)
  | text (t : String) : Becomes g (.text t) (.text t)
  | pushMode {name : String} {id : ModeId} (h : g.Resolves name id) :
      Becomes g (.pushMode name) (.pushMode id)
  | mode {name : String} {id : ModeId} (h : g.Resolves name id) : Becomes g (.mode name) (.mode id)

structure RuleSpec.Becomes (g : Grammar) (s : RuleSpec) (r : Rule) : Prop where
  name_eq : r.name = s.name
  kind_eq : r.kind = s.kind
  pattern : s.pattern.Becomes r.pattern
  actions : List.Forall₂ (ActionSpec.Becomes g) s.actions r.actions

structure ModeSpec.Becomes (g : Grammar) (s : ModeSpec) (m : Mode) : Prop where
  name_eq : m.name = s.name
  rules : List.Forall₂ (RuleSpec.Becomes g) s.rules m.rules

/-- The grammar has the modes of the specification, of each the rules, of each the actions and the
parts of the pattern, in their number and order. -/
structure GrammarSpec.Becomes (s : GrammarSpec) (g : Grammar) : Prop where
  name_eq : g.name = s.name
  modes : List.Forall₂ (ModeSpec.Becomes g) s.modes g.modes

mutual

theorem PatternSpec.becomes_of_compile :
    ∀ (p : PatternSpec) {q : Pattern}, p.compile = .ok q → p.Becomes q
  | .literal text, _, h => by
    obtain rfl := Except.ok.inj h
    exact .literal text
  | .set s, _, h => by
    rw [PatternSpec.compile] at h
    cases hp : CharSet.parse s.chars s.negated with
    | error e =>
      rw [hp] at h
      contradiction
    | ok members =>
      rw [hp] at h
      obtain rfl := Except.ok.inj h
      exact .set hp
  | .seq parts, _, h => by
    obtain ⟨patterns, hp, rfl⟩ := map_ok h
    exact .seq (PatternSpec.becomes_of_compileAll parts hp)

theorem PatternSpec.becomes_of_compileAll :
    ∀ (parts : List PatternSpec) {patterns : List Pattern},
      PatternSpec.compileAll parts = .ok patterns →
        List.Forall₂ PatternSpec.Becomes parts patterns
  | [], _, h => by
    obtain rfl := Except.ok.inj h
    exact .nil
  | p :: parts, _, h => by
    rw [PatternSpec.compileAll] at h
    cases hp : p.compile with
    | error e =>
      rw [hp] at h
      contradiction
    | ok q =>
      rw [hp] at h
      obtain ⟨patterns, hrest, rfl⟩ := map_ok h
      exact .cons (PatternSpec.becomes_of_compile p hp)
        (PatternSpec.becomes_of_compileAll parts hrest)

end

variable {g : Grammar}

theorem resolves_of_resolveMode {rule mode : String} {id : ModeId}
    (h : resolveMode g.modeNames rule mode = .ok id) : g.Resolves mode id := by
  rw [resolveMode] at h
  cases hi : g.modeNames.idxOf? mode with
  | none =>
    rw [hi] at h
    contradiction
  | some i =>
    rw [hi] at h
    obtain rfl := Except.ok.inj h
    obtain ⟨hlt, heq, -⟩ := List.idxOf?_eq_some_iff.mp hi
    exact ⟨List.getElem?_eq_some_iff.mpr ⟨hlt, heq⟩, by rw [Grammar.modeId?, hi]; rfl⟩

theorem ActionSpec.becomes_of_compile {rule : String} {s : ActionSpec} {a : Action}
    (h : s.compile g.modeNames rule = .ok a) : s.Becomes g a := by
  cases s with
  | pushMode m =>
    obtain ⟨id, hid, rfl⟩ := map_ok h
    exact .pushMode (resolves_of_resolveMode hid)
  | mode m =>
    obtain ⟨id, hid, rfl⟩ := map_ok h
    exact .mode (resolves_of_resolveMode hid)
  | _ =>
    obtain rfl := Except.ok.inj h
    constructor

theorem RuleSpec.becomes_of_compile {s : RuleSpec} {r : Rule}
    (h : s.compile g.modeNames = .ok r) : s.Becomes g r := by
  rw [RuleSpec.compile] at h
  obtain ⟨actions, ha, h⟩ := bind_ok h
  obtain ⟨_, -, h⟩ := bind_ok h
  obtain ⟨pattern, hp, h⟩ := bind_ok h
  obtain rfl := Except.ok.inj h
  exact ⟨rfl, rfl, PatternSpec.becomes_of_compile _ hp,
    (forall₂_of_mapM ha).imp fun _ _ => ActionSpec.becomes_of_compile⟩

theorem ModeSpec.becomes_of_compile {s : ModeSpec} {m : Mode}
    (h : s.compile g.modeNames = .ok m) : s.Becomes g m := by
  rw [ModeSpec.compile] at h
  obtain ⟨rules, hr, h⟩ := bind_ok h
  obtain rfl := Except.ok.inj h
  exact ⟨rfl, (forall₂_of_mapM hr).imp fun _ _ => RuleSpec.becomes_of_compile⟩

theorem ModeSpec.compile_name {s : ModeSpec} {m : Mode} (h : s.compile names = .ok m) :
    m.name = s.name := by
  rw [ModeSpec.compile] at h
  obtain ⟨rules, -, h⟩ := bind_ok h
  obtain rfl := Except.ok.inj h
  rfl

namespace GrammarSpec

variable {spec : GrammarSpec}

theorem compile_name (h : spec.compile = .ok g) : g.name = spec.name := by
  unfold compile at h
  dsimp only at h
  split at h
  · contradiction
  · split at h
    · contradiction
    · obtain ⟨modes, -, h⟩ := bind_ok h
      obtain rfl := Except.ok.inj h
      rfl

theorem modeNames_of_compile (h : spec.compile = .ok g) : g.modeNames = spec.modeNames := by
  have hmodes := forall₂_of_mapM (compile_modes h).2
  have hnames : List.Forall₂ (fun s m => m.name = s.name) spec.modes g.modes :=
    hmodes.imp fun _ _ => ModeSpec.compile_name
  rw [Grammar.modeNames, modeNames, ← List.forall₂_eq_eq_eq, List.forall₂_map_left_iff,
    List.forall₂_map_right_iff]
  exact hnames.flip

theorem becomes_of_compile (h : spec.compile = .ok g) : spec.Becomes g := by
  have hmodes := forall₂_of_mapM (compile_modes h).2
  refine ⟨compile_name h, hmodes.imp fun s m hm => ModeSpec.becomes_of_compile ?_⟩
  rw [modeNames_of_compile h]
  exact hm

/-- Compilation succeeds exactly for the well-formed specifications, with a grammar that keeps all
that the specification says and names each mode by its place; these places are ids as long as there
are no more than 2^32 modes. For all others it fails with the first of their violations. -/
theorem compile_iff_wellFormed (spec : GrammarSpec) :
    ((∃ g, spec.compile = .ok g) ↔ spec.WellFormed) ∧
      (∀ g, spec.compile = .ok g → spec.Becomes g) ∧
      (spec.violations = [] ↔ spec.WellFormed) ∧
      ∀ e, spec.compile = .error e ↔ spec.violations.head? = some e := by
  refine ⟨?_, fun g => becomes_of_compile, violations_eq_nil, fun e => ?_⟩
  · rw [← error?_eq_none, error?_compile, List.head?_eq_none_iff, violations_eq_nil]
  · rw [← error?_eq_some, error?_compile]

/-- Of a set that is not readable, a kind that is missing and a mode that is not declared, the last
is violated first. -/
example :
    (GrammarSpec.mk "Faulty" [⟨"MAIN", [
      (RuleSpec.fragment "BAD" (.oneOf "z-a")).withAction (.mode "INNER")]⟩]).violations =
        [.unknownMode "BAD" "INNER", .missingKind "BAD",
          .invalidSet "z-a" (.reversedRange 'z' 'a')] := by rfl

/-- A sequence in a sequence, and actions that enter a later and an earlier mode. -/
def relaySpec : GrammarSpec where
  name := "Relay"
  modes := [
    ⟨"MAIN", [
      .token "TAG" ⟨1⟩ (.seq [.literal "<", .seq [.oneOrMore "a-z", .literal ">"]]),
      (RuleSpec.fragment "OPEN" (.literal "(")).withAction .more |>.withAction
        (.pushMode "INNER")]⟩,
    ⟨"INNER", [(RuleSpec.token "CLOSE" ⟨2⟩ (.literal ")")).withAction (.mode "MAIN")]⟩]

def relay : Grammar where
  name := "Relay"
  modes := [
    ⟨"MAIN", [
      ⟨"TAG", some ⟨1⟩,
        .seq [.literal ['<'], .seq [.set ⟨[('a', 'z')], false⟩ 1 none, .literal ['>']]], []⟩,
      ⟨"OPEN", none, .literal ['('], [.more, .pushMode ⟨1⟩]⟩]⟩,
    ⟨"INNER", [⟨"CLOSE", some ⟨2⟩, .literal [')'], [.mode ⟨0⟩]⟩]⟩]

theorem compile_iff_wellFormed_relay :
    relaySpec.compile = .ok relay ∧ relaySpec.WellFormed ∧ relaySpec.Becomes relay ∧
      relay.Resolves "INNER" ⟨1⟩ ∧ relay.Resolves "MAIN" ⟨0⟩ := by
  have h : relaySpec.compile = .ok relay := by rfl
  obtain ⟨hok, hbecomes, -, -⟩ := compile_iff_wellFormed relaySpec
  exact ⟨h, hok.mp ⟨relay, h⟩, hbecomes relay h, ⟨rfl, by decide⟩, ⟨rfl, by decide⟩⟩

end GrammarSpec

end ModalLex

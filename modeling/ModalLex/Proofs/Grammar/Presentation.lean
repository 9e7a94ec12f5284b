import ModalLex.Grammar.Decode
import ModalLex.Proofs.Grammar.Assembly
import ModalLex.Proofs.Json.Reading

/-!
# Specifications in JSON

One specification is presented by many JSON values: its records are objects or arrays, with other
members among those of an object, and fields left out that have their default. Every text that
writes such a value is compiled as the specification is.
-/
namespace ModalLex

theorem mapM_of_forall₂ {α β : Type} {P : β → α → Prop} {f : α → Option β} {as : List α}
    {bs : List β} (h : List.Forall₂ P bs as) (hf : ∀ b ∈ bs, ∀ a, P b a → f a = some b) :
    as.mapM f = some bs := by
  induction h with
  | nil => rfl
  | @cons b a bs as hab _ ih =>
    rw [List.mapM_cons, hf b List.mem_cons_self a hab,
      ih fun c hc => hf c (List.mem_cons_of_mem _ hc)]
    rfl

namespace Json

/-! ## Records -/

/-- The members of a record with these fields, where nothing stands for one that is left out. -/
def membersOf (names : List String) (fields : List (Option Json)) :
    List (Option String × Json) :=
  (names.zip fields).filterMap fun p => p.2.map fun v => (some p.1, v)

/-- A record with these fields: an array of them, which may leave out the last, or an object with
them and with other members as its members, in any order. -/
inductive Record (names : List String) : Json → List (Option Json) → Prop
  | array (items : List Json) (missing : Nat) (h : items.length + missing = names.length) :
      Record names (.array items) (items.map some ++ List.replicate missing none)
  | object {members others : List (Option String × Json)} {fields : List (Option Json)}
      (hlength : names.length = fields.length)
      (hmembers : members.Perm (membersOf names fields ++ others))
      (hothers : ∀ m ∈ others, ∃ key, m.1 = some key ∧ key ∉ names) :
      Record names (.object members) fields

variable {names : List String} {fields : List (Option Json)}

theorem membersOf_cons (name : String) (field : Option Json) :
    membersOf (name :: names) (field :: fields) =
      (field.map fun v => (some name, v)).toList ++ membersOf names fields := by
  cases field <;> rfl

theorem key_of_mem_membersOf {m : Option String × Json} (h : m ∈ membersOf names fields) :
    ∃ name ∈ names, m.1 = some name := by
  obtain ⟨⟨name, field⟩, hzip, hm⟩ := List.mem_filterMap.mp h
  obtain ⟨v, -, rfl⟩ := Option.map_eq_some_iff.mp hm
  exact ⟨name, (List.of_mem_zip hzip).1, rfl⟩

theorem filter_membersOf (hn : names.Nodup) {name : String} {field : Option Json}
    (h : (name, field) ∈ names.zip fields) :
    (membersOf names fields).filter (fun m => m.1 = some name) =
      (field.map fun v => (some name, v)).toList := by
  induction names generalizing fields with
  | nil => exact absurd h List.not_mem_nil
  | cons n names ih =>
    cases fields with
    | nil => exact absurd h List.not_mem_nil
    | cons f fields =>
      obtain ⟨hnew, hn⟩ := List.nodup_cons.mp hn
      rw [membersOf_cons, List.filter_append]
      rcases List.mem_cons.mp h with heq | h
      · obtain ⟨rfl, rfl⟩ := Prod.mk.inj heq
        have hrest : (membersOf names fields).filter (fun m => m.1 = some name) = [] := by
          refine List.filter_eq_nil_iff.mpr fun m hm => ?_
          obtain ⟨other, hmem, hkey⟩ := key_of_mem_membersOf hm
          rw [hkey, decide_eq_true_eq, Option.some.injEq]
          rintro rfl
          exact hnew hmem
        rw [hrest, List.append_nil]
        cases field with
        | none => rfl
        | some v => exact List.filter_cons_of_pos (decide_eq_true rfl)
      · have hne : n ≠ name := by
          rintro rfl
          exact hnew (List.of_mem_zip h).1
        rw [ih hn h]
        cases f with
        | none => rfl
        | some v =>
          have hnot : [(some n, v)].filter (fun m => m.1 = some name) = [] := by
            simpa using hne
          exact congrArg (· ++ _) hnot

theorem member?_of_record {members others : List (Option String × Json)} (hn : names.Nodup)
    (hmembers : members.Perm (membersOf names fields ++ others))
    (hothers : ∀ m ∈ others, ∃ key, m.1 = some key ∧ key ∉ names) {name : String}
    {field : Option Json} (h : (name, field) ∈ names.zip fields) :
    member? name members = some field := by
  have hrest : others.filter (fun m => m.1 = some name) = [] := by
    refine List.filter_eq_nil_iff.mpr fun m hm => ?_
    obtain ⟨key, hkey, hnot⟩ := hothers m hm
    rw [hkey, decide_eq_true_eq, Option.some.injEq]
    rintro rfl
    exact hnot (List.of_mem_zip h).1
  have hfilter := hmembers.filter fun m => m.1 = some name
  rw [List.filter_append, hrest, List.append_nil, filter_membersOf hn h] at hfilter
  rw [member?]
  cases field with
  | none => rw [hfilter.eq_nil]
  | some v => rw [List.perm_singleton.mp hfilter]

/-- A record is read as its fields. -/
theorem fields?_of_record {v : Json} (hn : names.Nodup) (h : Record names v fields) :
    v.fields? names = some fields := by
  cases h with
  | array items missing h =>
    rw [fields?, if_pos (by omega), ← h, Nat.add_sub_cancel_left]
  | @object members others _ hlength hmembers hothers =>
    have hkeys : ∀ m ∈ membersOf names fields ++ others, m.1.isSome = true := by
      rw [List.forall_mem_append]
      constructor
      · intro m hm
        obtain ⟨name, -, hkey⟩ := key_of_mem_membersOf hm
        rw [hkey]
        rfl
      · intro m hm
        obtain ⟨key, hkey, -⟩ := hothers m hm
        rw [hkey]
        rfl
    rw [fields?, if_pos (List.all_eq_true.mpr fun m hm => hkeys m (hmembers.mem_iff.mp hm))]
    have hread : List.Forall₂ (fun name field => member? name members = some field) names fields :=
      List.forall₂_iff_zip.mpr ⟨hlength, fun h => member?_of_record hn hmembers hothers h⟩
    exact mapM_of_forall₂ hread.flip fun _ _ _ h => h

/-! ## Fields -/

section

variable {α : Type} {P : α → Json → Prop} {read : Json → Option α}

/-- A value, or `null` for none. -/
def OrNull (P : α → Json → Prop) : Option α → Json → Prop
  | none, v => v = .null
  | some a, v => P a v

/-- A field, which may be left out where it has its default. -/
def OrDefault (P : α → Json → Prop) (default a : α) : Option Json → Prop
  | none => a = default
  | some v => P a v

def Items (P : α → Json → Prop) (as : List α) (v : Json) : Prop :=
  ∃ items, v = .array items ∧ List.Forall₂ P as items

theorem nullable?_of_orNull {a : Option α} {v : Json} (h : OrNull P a v)
    (hread : ∀ a v, P a v → v ≠ .null ∧ read v = some a) : nullable? read v = some a := by
  cases a with
  | none =>
    obtain rfl : v = .null := h
    rfl
  | some a =>
    obtain ⟨hne, hv⟩ := hread a v h
    rw [nullable?, hv]
    · rfl
    · exact hne

theorem orDefault?_of_orDefault {default a : α} {field : Option Json}
    (h : OrDefault P default a field) (hread : ∀ v, P a v → read v = some a) :
    orDefault? read default field = some a := by
  cases field with
  | none =>
    obtain rfl : a = default := h
    rfl
  | some v => exact hread v h

theorem items?_of_items {read : Nat → Json → Option α} {as : List α} {v : Json} {levels : Nat}
    (h : Items P as v) (hread : ∀ a ∈ as, ∀ v, P a v → read levels v = some a) :
    items? read (levels + 1) v = some as := by
  obtain ⟨items, rfl, hitems⟩ := h
  exact mapM_of_forall₂ hitems hread

end

theorem integer?_number {lo hi n : Int} (hlo : lo ≤ n) (hhi : n ≤ hi) :
    integer? lo hi (.number (some n)) = some n :=
  if_pos ⟨hlo, hhi⟩

theorem int32?_number (n : Int32) : int32? (.number (some n.toInt)) = some n := by
  rw [int32?, integer?_number (Int32.minValue_le_toInt n) (Int32.toInt_le n), Option.map_some,
    Int32.ofInt_toInt]

theorem uint32?_number (n : UInt32) : uint32? (.number (some n.toNat)) = some n := by
  have hle : (n.toNat : Int) ≤ UInt32.size - 1 := by
    have hlt := n.toNat_lt
    rw [UInt32.size]
    omega
  rw [uint32?, integer?_number (Int.natCast_nonneg _) hle, Option.map_some, Int.toNat_natCast,
    UInt32.ofNat_toNat]

theorem uint64?_number (n : UInt64) : uint64? (.number (some n.toNat)) = some n := by
  have hle : (n.toNat : Int) ≤ UInt64.size - 1 := by
    have hlt := n.toNat_lt
    rw [UInt64.size]
    omega
  rw [uint64?, integer?_number (Int.natCast_nonneg _) hle, Option.map_some, Int.toNat_natCast,
    UInt64.ofNat_toNat]

end Json

open Json

/-! ## Specifications -/

inductive SetSpec.Presented (s : SetSpec) : Json → Prop
  | mk {v : Json} {negated min max : Option Json}
      (h : Record ["chars", "negated", "min", "max"] v
        [some (.string (some s.chars)), negated, min, max])
      (hnegated : OrDefault (fun b v => v = .bool b) false s.negated negated)
      (hmin : OrDefault (fun n v => v = .number (some n.toNat)) 1 s.min min)
      (hmax : OrDefault (OrNull fun n v => v = .number (some n.toNat)) none s.max max) :
      Presented s v

inductive PatternSpec.Presented : PatternSpec → Json → Prop
  | literal (text : String) :
      Presented (.literal text) (.object [(some "literal", .string (some text))])
  | set {s : SetSpec} {v : Json} (h : s.Presented v) :
      Presented (.set s) (.object [(some "set", v)])
  | seq {parts : List PatternSpec} {items : List Json} (h : List.Forall₂ Presented parts items) :
      Presented (.seq parts) (.object [(some "seq", .array items)])

namespace ActionSpec

def key : ActionSpec → String
  | .skip => "skip"
  | .more => "more"
  | .popMode => "pop_mode"
  | .kind _ => "type"
  | .channel _ => "channel"
  | .text _ => "text"
  | .pushMode _ => "push_mode"
  | .mode _ => "mode"

/-- What an action says besides its key; `null` is nothing. -/
def payload : ActionSpec → Json
  | .skip | .more | .popMode => .null
  | .kind k => .number (some k.code.toInt)
  | .channel ch => .number (some ch.number.toNat)
  | .text t => .string (some t)
  | .pushMode m | .mode m => .string (some m)

/-- An action is an object with its key, or its key alone if that says it all. -/
inductive Presented (a : ActionSpec) : Json → Prop
  | object : Presented a (.object [(some a.key, a.payload)])
  | name (h : a.payload = .null) : Presented a (.string (some a.key))

end ActionSpec

inductive RuleSpec.Presented (r : RuleSpec) : Json → Prop
  | mk {v pattern : Json} {kind actions : Option Json}
      (h : Record ["name", "type", "pattern", "actions"] v
        [some (.string (some r.name)), kind, some pattern, actions])
      (hkind : OrDefault (OrNull fun n v => v = .number (some n.toInt)) none
        (r.kind.map TokenKind.code) kind)
      (hpattern : r.pattern.Presented pattern)
      (hactions : OrDefault (Items ActionSpec.Presented) [] r.actions actions) : Presented r v

inductive ModeSpec.Presented (m : ModeSpec) : Json → Prop
  | mk {v : Json} {rules : Option Json}
      (h : Record ["name", "rules"] v [some (.string (some m.name)), rules])
      (hrules : OrDefault (Items RuleSpec.Presented) [] m.rules rules) : Presented m v

inductive GrammarSpec.Presented (g : GrammarSpec) : Json → Prop
  | mk {v modes : Json} (h : Record ["name", "modes"] v [some (.string (some g.name)), some modes])
      (hmodes : Items ModeSpec.Presented g.modes modes) : Presented g v

mutual

/-- How deep the arrays and objects nest that a pattern is presented by. -/
def PatternSpec.nesting : PatternSpec → Nat
  | .literal _ => 1
  | .set _ => 2
  | .seq parts => PatternSpec.nestingAll parts + 2

def PatternSpec.nestingAll : List PatternSpec → Nat
  | [] => 0
  | p :: rest => max p.nesting (PatternSpec.nestingAll rest)

end

theorem SetSpec.ofJson?_of_presented {s : SetSpec} {v : Json} (h : s.Presented v) (levels : Nat) :
    SetSpec.ofJson? (levels + 1) v = some s := by
  cases h with
  | @mk negated min max h hnegated hmin hmax =>
    have hfields := fields?_of_record (by decide) h
    have hn : orDefault? bool? false negated = some s.negated :=
      orDefault?_of_orDefault hnegated fun v hv => hv ▸ rfl
    have hlo : orDefault? uint64? 1 min = some s.min :=
      orDefault?_of_orDefault hmin fun v hv => hv ▸ uint64?_number s.min
    have hhi : orDefault? (nullable? uint64?) none max = some s.max :=
      orDefault?_of_orDefault hmax fun v hv =>
        nullable?_of_orNull hv fun n v hv => hv ▸ ⟨nofun, uint64?_number n⟩
    rw [SetSpec.ofJson?, hfields]
    dsimp only [bind, Option.bind, text?]
    rw [hn, hlo, hhi]
    rfl

namespace PatternSpec

theorem ofJson?_literal (levels : Nat) (v : Json) :
    ofJson? (levels + 1) (.object [(some "literal", v)]) = v.text?.map .literal := by
  rw [ofJson?.eq_def]
  rfl

theorem ofJson?_set (levels : Nat) (v : Json) :
    ofJson? (levels + 1) (.object [(some "set", v)]) = (SetSpec.ofJson? levels v).map .set := by
  rw [ofJson?.eq_def]
  rfl

theorem ofJson?_seq (levels : Nat) (items : List Json) :
    ofJson? (levels + 2) (.object [(some "seq", .array items)]) =
      (items.mapM (ofJson? levels)).map .seq := by
  rw [ofJson?.eq_def]
  rfl

end PatternSpec

mutual

theorem PatternSpec.ofJson?_of_presented : ∀ (p : PatternSpec) {v : Json} {levels : Nat},
    p.nesting ≤ levels → p.Presented v → PatternSpec.ofJson? levels v = some p
  | .literal text, _, levels + 1, _, .literal _ => PatternSpec.ofJson?_literal levels _
  | .set s, _, levels + 2, _, .set h => by
    rw [PatternSpec.ofJson?_set, SetSpec.ofJson?_of_presented h levels]
    rfl
  | .seq parts, _, levels + 2, hn, .seq h => by
    rw [PatternSpec.ofJson?_seq,
      PatternSpec.mapM_of_presented parts (Nat.le_of_add_le_add_right hn) h]
    rfl

theorem PatternSpec.mapM_of_presented : ∀ (parts : List PatternSpec) {items : List Json}
    {levels : Nat}, PatternSpec.nestingAll parts ≤ levels →
      List.Forall₂ PatternSpec.Presented parts items →
        items.mapM (PatternSpec.ofJson? levels) = some parts
  | [], _, _, _, .nil => rfl
  | p :: parts, _, _, hn, .cons hp hparts => by
    obtain ⟨hfirst, hrest⟩ := Nat.max_le.mp hn
    rw [List.mapM_cons, PatternSpec.ofJson?_of_presented p hfirst hp,
      PatternSpec.mapM_of_presented parts hrest hparts]
    rfl

end

theorem ActionSpec.ofJson?_of_presented {a : ActionSpec} {v : Json} (h : a.Presented v)
    (levels : Nat) : ActionSpec.ofJson? (levels + 1) v = some a := by
  cases h with
  | object =>
    rw [ActionSpec.ofJson?]
    cases a with
    | kind k =>
      have hk : ofMember? "type" (.number (some k.code.toInt)) =
          (int32? (.number (some k.code.toInt))).map fun n => .kind ⟨n⟩ := rfl
      rw [key, payload, hk, int32?_number]
      rfl
    | channel ch =>
      have hch : ofMember? "channel" (.number (some ch.number.toNat)) =
          (uint32? (.number (some ch.number.toNat))).map fun n => .channel ⟨n⟩ := rfl
      rw [key, payload, hch, uint32?_number]
      rfl
    | _ => rfl
  | name h =>
    cases a with
    | skip | more | popMode => rfl
    | kind | channel | text | pushMode | mode => contradiction

theorem RuleSpec.ofJson?_of_presented {r : RuleSpec} {v : Json} (h : r.Presented v) {levels : Nat}
    (hn : r.pattern.nesting ≤ levels + 2) : RuleSpec.ofJson? (levels + 3) v = some r := by
  cases h with
  | @mk pattern kind actions h hkind hpattern hactions =>
    have hfields := fields?_of_record (by decide) h
    have hk : orDefault? (nullable? int32?) none kind = some (r.kind.map TokenKind.code) :=
      orDefault?_of_orDefault hkind fun v hv =>
        nullable?_of_orNull hv fun n v hv => hv ▸ ⟨nofun, int32?_number n⟩
    have ha : orDefault? (items? ActionSpec.ofJson? (levels + 2)) [] actions = some r.actions :=
      orDefault?_of_orDefault hactions fun v hv =>
        items?_of_items hv fun a _ v ha => ActionSpec.ofJson?_of_presented ha levels
    have hcode : (r.kind.map TokenKind.code).map TokenKind.mk = r.kind := by cases r.kind <;> rfl
    rw [RuleSpec.ofJson?, hfields]
    dsimp only [bind, Option.bind, text?]
    rw [hk, PatternSpec.ofJson?_of_presented r.pattern hn hpattern, ha]
    dsimp only
    rw [hcode]
    rfl

theorem ModeSpec.ofJson?_of_presented {m : ModeSpec} {v : Json} (levels : Nat) (h : m.Presented v)
    (hn : ∀ r ∈ m.rules, r.pattern.nesting ≤ levels + 2) :
    ModeSpec.ofJson? (levels + 5) v = some m := by
  cases h with
  | @mk rules h hrules =>
    have hfields := fields?_of_record (by decide) h
    have hr : orDefault? (items? RuleSpec.ofJson? (levels + 4)) [] rules = some m.rules :=
      orDefault?_of_orDefault hrules fun v hv =>
        items?_of_items hv fun r hr v hp => RuleSpec.ofJson?_of_presented hp (hn r hr)
    rw [ModeSpec.ofJson?, hfields]
    dsimp only [bind, Option.bind, text?]
    rw [hr]
    rfl

namespace GrammarSpec

variable {spec : GrammarSpec} {v : Json} {text : String}

/-- Whether what presents a specification nests as deep as may be at most: a pattern stands inside
a rule, its mode and the specification, and inside the arrays of the rules and of the modes. -/
def FitsNesting (g : GrammarSpec) : Prop :=
  ∀ m ∈ g.modes, ∀ r ∈ m.rules, 5 + r.pattern.nesting ≤ maxNesting

theorem ofJson?_of_presented (h : spec.Presented v) (hn : spec.FitsNesting) :
    ofJson? maxNesting v = some spec := by
  cases h with
  | @mk modes h hmodes =>
    have hfields := fields?_of_record (by decide) h
    have hm : items? ModeSpec.ofJson? 126 modes = some spec.modes := by
      refine items?_of_items hmodes fun m hm v hp => ?_
      refine ModeSpec.ofJson?_of_presented 120 hp fun r hr => ?_
      have hle := hn m hm r hr
      rw [maxNesting] at hle
      omega
    rw [maxNesting, ofJson?, hfields]
    dsimp only [bind, Option.bind, text?]
    rw [hm]
    rfl

/-- Every text that writes a value which presents a specification is compiled as the specification
is, and as what any calls that put it together make. -/
theorem ofText_of_presented (hw : Json.Writes text v) (hp : spec.Presented v)
    (hn : spec.FitsNesting) :
    ofText? text = some spec ∧ Grammar.ofText text = spec.compile ∧
      (∃ built, spec.Assembled built) ∧
      ∀ built, spec.Assembled built → Grammar.ofText text = built.compile := by
  have hread : ofText? text = some spec := by
    rw [ofText?, Json.parse?_of_writes hw, Option.bind_some, ofJson?_of_presented hp hn]
  have hcompile : Grammar.ofText text = spec.compile := by rw [Grammar.ofText, hread]
  refine ⟨hread, hcompile, exists_assembled spec, fun built hb => ?_⟩
  rw [hb.eq]
  exact hcompile

/-- A mode and its first rule as arrays, the rule without its actions, and the second rule as an
object with its fields in another order and without a kind. -/
def terseText : String :=
  "\x7b\"x\":[-0.5,\x7b\x7d],\"modes\":[[\"M\",[[\"R\",1,\x7b\"literal\":\"a\"\x7d]," ++
    "\x7b\"pattern\":\x7b\"set\":[\"b\"]\x7d,\"actions\":[\"skip\"],\"name\":\"S\"\x7d]]]," ++
    "\"name\":\"\\u0047\" \x7d"

def terseSpec : GrammarSpec where
  name := "G"
  modes := [⟨"M", [.token "R" ⟨1⟩ (.literal "a"),
    (RuleSpec.fragment "S" (.oneOrMore "b")).withAction .skip]⟩]

namespace Terse

def ruleArray : Json :=
  .array [.string (some "R"), .number (some 1), .object [(some "literal", .string (some "a"))]]

def pattern : Option String × Json :=
  (some "pattern", .object [(some "set", .array [.string (some "b")])])

def actions : Option String × Json := (some "actions", .array [.string (some "skip")])

def ruleObject : Json := .object [pattern, actions, (some "name", .string (some "S"))]

def modes : Json := .array [.array [.string (some "M"), .array [ruleArray, ruleObject]]]

def other : Option String × Json := (some "x", .array [.number none, .object []])

def value : Json := .object [other, (some "modes", modes), (some "name", .string (some "G"))]

theorem writes : Json.Writes terseText value := by
  have hx : WrittenMember other _ :=
    .plain (writtenString_plain rfl) (.plain (.array (.more
      (.plain (.number (.negativeFractional 0
        (.point (show Digits ['5'] from ⟨nofun, List.forall_mem_singleton.mpr rfl⟩)))))
      (.last (.plain (.emptyObject blanks_nil))))))
  have hliteral : WrittenValue (.object [(some "literal", .string (some "a"))]) _ :=
    .object (.last (.plain (writtenString_plain rfl)
      (.plain (.string (writtenString_plain rfl)))))
  have harray : WrittenValue ruleArray _ :=
    .array (.more (.plain (.string (writtenString_plain rfl)))
      (.more (.plain (.number (.natural 1))) (.last (.plain hliteral))))
  have hpattern : WrittenMember pattern _ :=
    .plain (writtenString_plain rfl) (.plain (.object (.last
      (.plain (writtenString_plain rfl)
        (.plain (.array (.last (.plain (.string (writtenString_plain rfl))))))))))
  have hactions : WrittenMember actions _ :=
    .plain (writtenString_plain rfl)
      (.plain (.array (.last (.plain (.string (writtenString_plain rfl))))))
  have hobject : WrittenValue ruleObject _ :=
    .object (.more hpattern (.more hactions (.last (.plain (writtenString_plain rfl)
      (.plain (.string (writtenString_plain rfl)))))))
  have hmodes : WrittenMember (some "modes", modes) _ :=
    .plain (writtenString_plain rfl) (.plain (.array (.last (.plain
      (.array (.more (.plain (.string (writtenString_plain rfl)))
        (.last (.plain (.array (.more (.plain harray) (.last (.plain hobject))))))))))))
  have hunit : WrittenLetter (.unit 0x47) ['\\', 'u', '0', '0', '4', '7'] :=
    .unit (i := 0) (j := 0) (k := 4) (l := 7) (by decide) (by decide) (by decide) (by decide)
  have hname : WrittenMember (some "name", .string (some "G")) _ :=
    .plain (writtenString_plain rfl) (.mk blanks_nil (.string (.mk (.cons hunit .nil)))
      (show Blanks [' '] from fun c hc => .inl (List.mem_singleton.mp hc)))
  have h : WrittenElement value _ :=
    .plain (.object (.more hx (.more hmodes (.last hname))))
  exact Eq.mp (congrArg (WrittenElement value) (by decide +kernel)) h

theorem presented : terseSpec.Presented value := by
  have harray : RuleSpec.Presented (.token "R" ⟨1⟩ (.literal "a")) ruleArray :=
    .mk (.array _ 1 rfl) rfl (.literal "a") rfl
  have hset : SetSpec.Presented ⟨"b", false, 1, none⟩ (.array [.string (some "b")]) :=
    .mk (.array _ 3 rfl) rfl rfl rfl
  have hobject : RuleSpec.Presented ((RuleSpec.fragment "S" (.oneOrMore "b")).withAction .skip)
      ruleObject := by
    have hmembers : [pattern, actions, (some "name", .string (some "S"))].Perm
        (membersOf ["name", "type", "pattern", "actions"]
          [some (.string (some "S")), none, some pattern.2, some actions.2] ++ []) :=
      List.perm_append_singleton (some "name", Json.string (some "S")) [pattern, actions]
    exact .mk (.object rfl hmembers nofun) rfl (.set hset) ⟨_, rfl, .cons (.name rfl) .nil⟩
  have hmode : ModeSpec.Presented ⟨"M", [.token "R" ⟨1⟩ (.literal "a"),
      (RuleSpec.fragment "S" (.oneOrMore "b")).withAction .skip]⟩
        (.array [.string (some "M"), .array [ruleArray, ruleObject]]) :=
    .mk (.array _ 0 rfl) ⟨_, rfl, .cons harray (.cons hobject .nil)⟩
  have hmembers : [other, (some "modes", modes), (some "name", .string (some "G"))].Perm
      (membersOf ["name", "modes"] [some (.string (some "G")), some modes] ++ [other]) :=
    (List.reverse_perm _).symm
  refine .mk (.object rfl hmembers fun m hm => ?_) ⟨_, rfl, .cons hmode .nil⟩
  obtain rfl := List.mem_singleton.mp hm
  exact ⟨"x", rfl, by decide⟩

end Terse

theorem ofText_of_presented_terse :
    Json.Writes terseText Terse.value ∧ terseSpec.Presented Terse.value ∧ terseSpec.FitsNesting ∧
      Grammar.ofText terseText = terseSpec.compile ∧
      Grammar.ofText terseText = ((empty "G").addMode "M" |>.addRule
        (.token "R" ⟨1⟩ (.literal "a")) |>.addRule
          ((RuleSpec.fragment "S" (.oneOrMore "b")).withAction .skip)).compile := by
  have hn : terseSpec.FitsNesting := by
    intro m hm r hr
    obtain rfl := List.mem_singleton.mp hm
    rcases List.mem_cons.mp hr with rfl | hr
    · decide
    · obtain rfl := List.mem_singleton.mp hr
      decide
  have hrules : List.Forall₂ RuleSpec.Assembled
      [.token "R" ⟨1⟩ (.literal "a"), (RuleSpec.fragment "S" (.oneOrMore "b")).withAction .skip]
      [.token "R" ⟨1⟩ (.literal "a"), (RuleSpec.fragment "S" (.oneOrMore "b")).withAction .skip] :=
    .cons (.token (.literal "a") []) (.cons (.fragment (.oneOrMore "b") [.skip]) .nil)
  have hbuilt : terseSpec.Assembled ([.mode "M", .rule (.token "R" ⟨1⟩ (.literal "a")),
      .rule ((RuleSpec.fragment "S" (.oneOrMore "b")).withAction .skip)].foldl call (empty "G")) :=
    .declared (.cons (m := ⟨"M", _⟩) hrules .nil)
  obtain ⟨-, hcompile, -, hassembled⟩ := ofText_of_presented Terse.writes Terse.presented hn
  exact ⟨Terse.writes, Terse.presented, hn, hcompile, hassembled _ hbuilt⟩

end GrammarSpec

end ModalLex

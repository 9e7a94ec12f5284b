import ModalLex.Proofs.Json.Lexing

/-!
# Reading back what is written

The lexemes of a value build that value, in whatever is open around it. So every text that writes a
value is read as that value.
-/
namespace ModalLex.Json

namespace Builder

variable {frames : List Frame} {l : Lexeme} {more : List Lexeme}

theorem run_append (b : Builder) (ls more : List Lexeme) :
    b.run (ls ++ more) = (b.run ls).bind (run · more) := by
  induction ls generalizing b with
  | nil => rfl
  | cons l ls ih =>
    rw [List.cons_append, run, run]
    cases b.step l with
    | none => rfl
    | some b => exact ih b

theorem run_singleton (b : Builder) (l : Lexeme) : b.run [l] = b.step l := by
  rw [run]
  cases b.step l <;> rfl

/-- What does not close an array begins its first item. -/
theorem run_firstItem (h : l ≠ .closeArray) :
    run ⟨frames, .firstItem⟩ (l :: more) = run ⟨frames, .value⟩ (l :: more) := by
  rw [run, run, step, if_neg h]
  rfl

theorem run_firstKey (key : Option String) :
    run ⟨frames, .firstKey⟩ (.string key :: more) = run ⟨frames, .key⟩ (.string key :: more) := rfl

end Builder

theorem exists_lexemes_cons (v : Json) : ∃ l rest, v.lexemes = l :: rest ∧ l ≠ .closeArray := by
  cases v <;> exact ⟨_, _, rfl, nofun⟩

theorem exists_itemLexemes_cons (v : Json) (items : List Json) :
    ∃ l rest, itemLexemes (v :: items) = l :: rest ∧ l ≠ .closeArray := by
  obtain ⟨l, rest, hl, hne⟩ := exists_lexemes_cons v
  cases items with
  | nil => exact ⟨l, rest, hl, hne⟩
  | cons w items => exact ⟨l, _, by rw [itemLexemes, hl]; rfl, hne⟩

theorem exists_memberLexemes_cons (m : Option String × Json)
    (members : List (Option String × Json)) :
    ∃ rest, memberLexemes (m :: members) = .string m.1 :: rest := by
  cases members <;> exact ⟨_, rfl⟩

open Builder

mutual

/-- The lexemes of a value are read as that value, whatever is open around it. -/
theorem run_lexemes : ∀ (v : Json) (frames : List Frame),
    run ⟨frames, .value⟩ v.lexemes = deliver v frames
  | .null, _ => run_singleton _ _
  | .bool _, _ => run_singleton _ _
  | .number _, _ => run_singleton _ _
  | .string _, _ => run_singleton _ _
  | .array [], frames => run_singleton ⟨.array [] :: frames, .firstItem⟩ .closeArray
  | .array (v :: items), frames => by
    have hitems := run_itemLexemes (v :: items) [] frames (List.cons_ne_nil _ _)
    obtain ⟨l, rest, hl, hne⟩ := exists_itemLexemes_cons v items
    change run ⟨.array [] :: frames, .firstItem⟩ (itemLexemes (v :: items) ++ [.closeArray]) = _
    rw [hl, List.cons_append, run_firstItem hne, ← List.cons_append, ← hl, run_append, hitems,
      Option.bind_some, run_singleton, List.append_nil]
    change deliver (.array (v :: items).reverse.reverse) frames = _
    rw [List.reverse_reverse]
  | .object [], frames => run_singleton ⟨.object [] :: frames, .firstKey⟩ .closeObject
  | .object (m :: members), frames => by
    have hmembers := run_memberLexemes (m :: members) [] frames (List.cons_ne_nil _ _)
    obtain ⟨rest, hl⟩ := exists_memberLexemes_cons m members
    change run ⟨.object [] :: frames, .firstKey⟩
      (memberLexemes (m :: members) ++ [.closeObject]) = _
    rw [hl, List.cons_append, run_firstKey, ← List.cons_append, ← hl, run_append, hmembers,
      Option.bind_some, run_singleton, List.append_nil]
    change deliver (.object (m :: members).reverse.reverse) frames = _
    rw [List.reverse_reverse]

theorem run_itemLexemes : ∀ (items read : List Json) (frames : List Frame), items ≠ [] →
    run ⟨.array read :: frames, .value⟩ (itemLexemes items) =
      some ⟨.array (items.reverse ++ read) :: frames, .separator⟩
  | [], _, _, h => absurd rfl h
  | [v], read, frames, _ => run_lexemes v (.array read :: frames)
  | v :: w :: items, read, frames, _ => by
    have hrest := run_itemLexemes (w :: items) (v :: read) frames (List.cons_ne_nil _ _)
    rw [itemLexemes, run_append, run_lexemes v (.array read :: frames), List.reverse_cons,
      List.append_assoc]
    exact hrest

theorem run_memberLexemes : ∀ (members read : List (Option String × Json)) (frames : List Frame),
    members ≠ [] →
      run ⟨.object read :: frames, .key⟩ (memberLexemes members) =
        some ⟨.object (members.reverse ++ read) :: frames, .separator⟩
  | [], _, _, h => absurd rfl h
  | [(key, v)], read, frames, _ => run_lexemes v (.member read key :: frames)
  | (key, v) :: m :: members, read, frames, _ => by
    have hrest := run_memberLexemes (m :: members) ((key, v) :: read) frames
      (List.cons_ne_nil _ _)
    rw [memberLexemes, List.reverse_cons, List.append_assoc]
    change run ⟨.member read key :: frames, .value⟩ (v.lexemes ++ _) = _
    rw [run_append, run_lexemes v (.member read key :: frames)]
    exact hrest

end

/-- Every text that writes a value is read as that value. -/
theorem parse?_of_writes {text : String} {v : Json} (h : Writes text v) :
    parse? text = some v := by
  have hrun := run_lexemes v []
  rw [parse?, lexemes?_of_writes h]
  change ofLexemes? v.lexemes = _
  rw [ofLexemes?, Builder.initial, hrun]
  rfl

end ModalLex.Json

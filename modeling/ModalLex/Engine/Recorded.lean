import ModalLex.Engine

/-!
# Recording the matches asked of an engine
-/
namespace ModalLex

/-- An engine with a record of the matches asked of it: the mode and the index of each, the
last one first. -/
structure Recorded (ε : Type) where
  engine : ε
  calls : List (ModeId × Nat)

namespace Recorded

variable {ε : Type} [RecognitionEngine ε]

def ofEngine (engine : ε) : Recorded ε := ⟨engine, []⟩

instance : RecognitionEngine (Recorded ε) where
  matchToken e input mode context :=
    let calls := (mode, CharStream.index input) :: e.calls
    let r := RecognitionEngine.matchToken e.engine input mode context
    ⟨r.outcome, ⟨r.engine, calls⟩, r.input, r.context⟩
  position e := RecognitionEngine.position e.engine
  withPosition e p := { e with engine := RecognitionEngine.withPosition e.engine p }
  text e input := RecognitionEngine.text e.engine input
  consume e input :=
    let (r, engine, input) := RecognitionEngine.consume e.engine input
    (r, { e with engine }, input)
  reset e := { e with engine := RecognitionEngine.reset e.engine }
  modeNames e := RecognitionEngine.modeNames e.engine
  kindNames e := RecognitionEngine.kindNames e.engine
  delay e := RecognitionEngine.delay e.engine

end Recorded

end ModalLex

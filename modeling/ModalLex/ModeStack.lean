import ModalLex.Token

/-!
# The stack of suspended modes
-/
namespace ModalLex

/-- Suspended modes, the most recent first. -/
structure ModeStack where
  modes : List ModeId
  deriving DecidableEq, Repr

namespace ModeStack

def empty : ModeStack := ⟨[]⟩

def push (s : ModeStack) (mode : ModeId) : ModeStack := ⟨mode :: s.modes⟩

/-- Take the most recent mode, if there is one, off the stack. -/
def pop (s : ModeStack) : Option ModeId × ModeStack :=
  match s.modes with
  | [] => (none, ⟨[]⟩)
  | mode :: rest => (some mode, ⟨rest⟩)

def peek? (s : ModeStack) : Option ModeId := s.modes.head?

def size (s : ModeStack) : Nat := s.modes.length

def isEmpty (s : ModeStack) : Bool := s.modes.isEmpty

/-- The suspended modes, the oldest first. -/
def toList (s : ModeStack) : List ModeId := s.modes.reverse

end ModeStack

end ModalLex

import ModalLex.Stream

/-!
# Watching what is done to a stream
-/
namespace ModalLex

/-- An operation that may have changed a stream or has looked at it, with the mark that was taken
or given back. -/
inductive StreamUse where
  | looked (distance : Int)
  | consumed
  | marked (mark : Mark)
  | released (mark : Mark)
  | sought (index : Nat)
  deriving DecidableEq, Repr

namespace StreamUse

/-- Whether the stream was only read: looked at or stepped. -/
def isReading : StreamUse → Bool
  | looked _ | consumed => true
  | marked _ | released _ | sought _ => false

end StreamUse

/-- A stream with a history of its uses and of the states they led to, the last one first. -/
structure Watched (σ : Type) where
  stream : σ
  history : List (StreamUse × σ)

namespace Watched

variable {σ : Type} [CharStream σ]

def used (w : Watched σ) (use : StreamUse) (stream : σ) : Watched σ :=
  ⟨stream, (use, stream) :: w.history⟩

instance : CharStream (Watched σ) where
  index w := CharStream.index w.stream
  la w n :=
    let (c, stream) := CharStream.la w.stream n
    (c, w.used (.looked n) stream)
  consume w :=
    let (r, stream) := CharStream.consume w.stream
    (r, w.used .consumed stream)
  mark w :=
    let (mark, stream) := CharStream.mark w.stream
    (mark, w.used (.marked mark) stream)
  release w mark := w.used (.released mark) (CharStream.release w.stream mark)
  seek w index :=
    let (r, stream) := CharStream.seek w.stream index
    (r, w.used (.sought index) stream)
  text w := CharStream.text w.stream
  sourceName w := CharStream.sourceName w.stream
  extent w := CharStream.extent w.stream

end Watched

end ModalLex

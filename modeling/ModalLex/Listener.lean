import ModalLex.LexError

/-!
# Listeners to diagnostics

Malformed input is reported to listeners in the order of their registration. The first one
that refuses a diagnostic ends the report, and its error ends the call that made it. Every
delivery is logged under the inbox of the listener it went to; listeners that share an inbox
share what they have received.
-/
namespace ModalLex

/-- A report on malformed input, positioned at the start of the failed attempt. -/
structure Diagnostic where
  sourceName : String
  line : Nat
  column : Nat
  message : String
  deriving DecidableEq, Repr

def Diagnostic.consoleLine (d : Diagnostic) : String :=
  s!"line {d.line}:{d.column} {d.message}"

/-- The diagnostics delivered so far, each with the inbox it went to, the oldest first. -/
structure Log where
  entries : Array (Nat × Diagnostic)
  deriving DecidableEq, Repr

namespace Log

def empty : Log := ⟨#[]⟩

def deliver (log : Log) (inbox : Nat) (d : Diagnostic) : Log :=
  ⟨log.entries.push (inbox, d)⟩

/-- What one inbox has received, the oldest first. -/
def received (log : Log) (inbox : Nat) : List Diagnostic :=
  log.entries.toList.filterMap fun e => if e.1 = inbox then some e.2 else none

def clear (log : Log) (inbox : Nat) : Log :=
  ⟨log.entries.filter fun e => e.1 ≠ inbox⟩

end Log

/-- A listener. `refuses` is asked about each diagnostic with the deliveries before it, and
answers with an error to stop the call that reported it. -/
structure Listener where
  inbox : Nat
  refuses : Log → Diagnostic → Option LexError

/-- The inbox whose diagnostics are shown on the console. -/
def consoleInbox : Nat := 0

namespace Listener

/-- Accepts every diagnostic; its inbox is read later. -/
def collector (inbox : Nat) : Listener := ⟨inbox, fun _ _ => none⟩

/-- Shows every diagnostic on the console: the outer layer of a program prints what arrives in
the inbox, and nothing is refused. -/
def console : Listener := ⟨consoleInbox, fun _ _ => none⟩

/-- Turns every diagnostic into an error. -/
def bail (inbox : Nat) : Listener :=
  ⟨inbox, fun _ d => some (.recognition d.line d.column d.message)⟩

/-- Accepts `limit` diagnostics and refuses each one after them. -/
def quota (inbox limit : Nat) : Listener :=
  ⟨inbox, fun log _ =>
    if (log.received inbox).length < limit then none
    else some (.illegalState (.custom "listener full"))⟩

end Listener

structure Listeners where
  registered : List Listener
  log : Log

namespace Listeners

def empty : Listeners := ⟨[], .empty⟩

def add (ls : Listeners) (l : Listener) : Listeners :=
  { ls with registered := ls.registered ++ [l] }

/-- Remove every listener; what they received stays in the log. -/
def removeAll (ls : Listeners) : Listeners := { ls with registered := [] }

def size (ls : Listeners) : Nat := ls.registered.length

def isEmpty (ls : Listeners) : Bool := ls.registered.isEmpty

/-- Deliver a diagnostic to each listener in turn, up to the first one that refuses it. -/
def deliverAll (d : Diagnostic) : List Listener → Log → Except LexError Unit × Log
  | [], log => (.ok (), log)
  | l :: rest, log =>
    match l.refuses log d with
    | some e => (.error e, log.deliver l.inbox d)
    | none => deliverAll d rest (log.deliver l.inbox d)

def dispatch (ls : Listeners) (d : Diagnostic) : Except LexError Unit × Listeners :=
  let (r, log) := deliverAll d ls.registered ls.log
  (r, { ls with log })

def summary (ls : Listeners) : String :=
  "ErrorListeners \x7b len: " ++ toString ls.size ++ " \x7d"

end Listeners

end ModalLex

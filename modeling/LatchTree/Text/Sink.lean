/-!
# Sinks

A sink takes the pieces of a text one after another.  It may have room for a
limited number of characters.  From a piece that exceeds the room it takes what
fits, and then the writing fails.
-/

namespace LatchTree

structure Sink where
  text : String := ""
  /-- The number of characters still accepted, if there is a limit. -/
  room : Option Nat := none
  deriving DecidableEq, Repr

structure SinkFull where
  deriving DecidableEq, Repr

abbrev Writing (α : Type) := EStateM SinkFull Sink α

namespace Sink

def fits (sink : Sink) (piece : String) : Bool :=
  sink.room.all fun room => decide (piece.length ≤ room)

/-- The sink after a piece, or as much of the piece as there is room for. -/
def take (sink : Sink) (piece : String) : Sink :=
  match sink.room with
  | none => { sink with text := sink.text ++ piece }
  | some room => {
      text := sink.text ++ String.ofList (piece.toList.take room)
      room := some (room - piece.length) }

end Sink

namespace Writing

def put (piece : String) : Writing Unit := do
  let sink ← get
  set (sink.take piece)
  unless sink.fits piece do
    throw {}

/-- Writes pieces with a comma and a blank between them. -/
def putList : List String → Writing Unit
  | [] => pure ()
  | [piece] => put piece
  | piece :: rest => do
    put piece
    put ", "
    putList rest

/-- Writes into a fresh sink.  Yields the text that arrived, and whether that
was all of it. -/
def runWithin (writing : Writing Unit) (room : Option Nat) : Bool × String :=
  match writing.run { room } with
  | .ok _ sink => (true, sink.text)
  | .error _ sink => (false, sink.text)

end Writing

end LatchTree

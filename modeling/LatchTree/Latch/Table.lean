import LatchTree.Latch.Access

/-!
# Latched values

A latch guards a value.  At any moment it is free, or held shared by any number
of guards, or held exclusively by one.  A guard is taken only if it need not
wait.  Guards are kept under numbers that the caller chooses; they stay until
they are released or replaced.  Without any guard the values can be set
directly.
-/

namespace LatchTree

structure LatchGuard where
  latch : Nat
  mode : LatchMode
  deriving DecidableEq, Repr

structure LatchTable (α : Type) where
  values : List α
  guards : List (Int × LatchGuard) := []

inductive LatchError where
  | unknownLatch (latch : Nat)
  | unknownGuard (guard : Int)
  | wouldWait (latch : Nat)
  | sharedWrite
  deriving DecidableEq, Repr

def LatchError.message : LatchError → String
  | .unknownLatch latch => s!"there is no latch {latch}"
  | .unknownGuard guard => s!"there is no guard {guard}"
  | .wouldWait latch => s!"latch {latch} is not available"
  | .sharedWrite => "write access requested through a shared latch"

inductive LatchRequest (α : Type) where
  | acquire (guard : Int) (latch : Nat) (mode : LatchMode)
  | lock (guard : Int) (latch : Nat) (mode : LatchMode)
  | read (guard : Int)
  | write (guard : Int) (value : α)
  | latchOf (guard : Int)
  | release (guard : Int)

inductive LatchReply (α : Type) where
  | acquired (isExclusive : Bool) (value : α)
  | value (value : α)
  | latch (index : Nat)
  | done

namespace LatchTable

variable {α : Type}

def value (table : LatchTable α) (latch : Nat) : Except LatchError α :=
  match table.values[latch]? with
  | some value => .ok value
  | none => .error (.unknownLatch latch)

def guard (table : LatchTable α) (id : Int) : Except LatchError LatchGuard :=
  match table.guards.lookup id with
  | some guard => .ok guard
  | none => .error (.unknownGuard id)

/-- Whether a further guard can be taken at once: a shared one if no guard is
exclusive, an exclusive one if there is no guard at all. -/
def isAvailable (table : LatchTable α) (latch : Nat) (mode : LatchMode) :
    Bool :=
  table.guards.all fun (_, guard) =>
    guard.latch ≠ latch || (mode == .shared && guard.mode == .shared)

def release (table : LatchTable α) (id : Int) : LatchTable α :=
  { table with guards := table.guards.filter (·.1 ≠ id) }

def take (table : LatchTable α) (id : Int) (latch : Nat) (mode : LatchMode) :
    Except LatchError (LatchTable α × α) := do
  let value ← table.value latch
  if table.isAvailable latch mode then
    let table := table.release id
    return ({ table with guards := (id, ⟨latch, mode⟩) :: table.guards }, value)
  else
    throw (.wouldWait latch)

def setValue (table : LatchTable α) (latch : Nat) (value : α) : LatchTable α :=
  { table with values := table.values.set latch value }

def perform (table : LatchTable α) :
    LatchRequest α → Except LatchError (LatchTable α × LatchReply α)
  | .acquire id latch mode => do
    let (table, value) ← table.take id latch mode
    return (table, .acquired (mode == .exclusive) value)
  | .lock id latch mode => do
    let (table, value) ← table.take id latch mode
    return (table, .value value)
  | .read id => do
    let guard ← table.guard id
    return (table, .value (← table.value guard.latch))
  | .write id value => do
    let guard ← table.guard id
    match guard.mode with
    | .shared => throw .sharedWrite
    | .exclusive => return (table.setValue guard.latch value, .done)
  | .latchOf id => do
    let guard ← table.guard id
    return (table, .latch guard.latch)
  | .release id => do
    let _ ← table.guard id
    return (table.release id, .done)

/-- Performs requests in order.  One that fails changes nothing. -/
def performAll (table : LatchTable α) :
    List (LatchRequest α) → LatchTable α × List (Except LatchError (LatchReply α))
  | [] => (table, [])
  | request :: rest =>
    match table.perform request with
    | .error error =>
      let (table, replies) := table.performAll rest
      (table, .error error :: replies)
    | .ok (table, reply) =>
      let (table, replies) := table.performAll rest
      (table, .ok reply :: replies)

end LatchTable

/-- Values to be set directly, followed by requests.  All guards are released at
the end. -/
structure LatchRound (α : Type) where
  settings : List (Nat × α)
  requests : List (LatchRequest α)

namespace LatchTable

variable {α : Type}

def performRound (table : LatchTable α) (round : LatchRound α) :
    LatchTable α × List (Except LatchError (LatchReply α)) :=
  let table := round.settings.foldl (fun table (latch, value) => table.setValue latch value) table
  let (table, replies) := table.performAll round.requests
  ({ table with guards := [] }, replies)

def performRounds (table : LatchTable α) :
    List (LatchRound α) → LatchTable α × List (List (Except LatchError (LatchReply α)))
  | [] => (table, [])
  | round :: rest =>
    let (table, replies) := table.performRound round
    let (table, others) := table.performRounds rest
    (table, replies :: others)

end LatchTable

end LatchTree

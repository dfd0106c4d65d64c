import LatchTree.Session.Basic

/-!
# Workloads

A workload is a sequence of phases.  In a phase several threads send requests to
one session, each its own list in order; a phase begins when all threads of the
one before are done.  Here the threads of a phase run one after
another.  Replies can be kept for each thread, or counted over all of them by
outcome.
-/

namespace LatchTree

abbrev Thread (V : Type) := List (Request V)

abbrev Phase (V : Type) := List (Thread V)

namespace Session

variable {V : Type}

def runThread (session : Session V) :
    Thread V → Except Fault (Session V × List (Reply V))
  | [] => return (session, [])
  | request :: rest => do
    let ⟨reply, session, _⟩ ← session.perform request
    let (session, replies) ← session.runThread rest
    return (session, reply :: replies)

def runPhase (session : Session V) :
    Phase V → Except Fault (Session V × List (List (Reply V)))
  | [] => return (session, [])
  | thread :: rest => do
    let (session, replies) ← session.runThread thread
    let (session, others) ← session.runPhase rest
    return (session, replies :: others)

def runPhases (session : Session V) :
    List (Phase V) → Except Fault (Session V × List (List (List (Reply V))))
  | [] => return (session, [])
  | phase :: rest => do
    let (session, replies) ← session.runPhase phase
    let (session, others) ← session.runPhases rest
    return (session, replies :: others)

end Session

namespace Reply

variable {V : Type}

/-- The name of a refusal, or that the request went well. -/
def resultName : Reply V → String
  | .refused error => error.name
  | _ => "ok"

/-- How often each result occurs among the replies to several threads, for
results that do. -/
def totals (replies : List (List (Reply V))) : List (String × Nat) :=
  let names := replies.flatten.map (·.resultName)
  names.eraseDups.map fun name => (name, names.count name)

end Reply

end LatchTree

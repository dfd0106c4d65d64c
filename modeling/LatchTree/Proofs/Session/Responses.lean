import LatchTree.Session.Workload

/-!
# Responses to requests

The requests of one thread are performed one after another, each by the session
that the request before it left.  Here every response is kept in full, with the
session and the events; a run that only keeps the replies is read off from it.
-/

namespace LatchTree.Session

variable {V : Type}

def respondAll (session : Session V) :
    List (Request V) → Except Fault (List (Response V))
  | [] => return []
  | request :: rest => do
    let response ← session.perform request
    return response :: (← response.session.respondAll rest)

theorem respondAll_cons {session : Session V} {request : Request V}
    {rest : List (Request V)} {response : Response V}
    {responses : List (Response V)}
    (hperform : session.perform request = .ok response)
    (hrest : response.session.respondAll rest = .ok responses) :
    session.respondAll (request :: rest) = .ok (response :: responses) := by
  rw [respondAll, hperform]
  simp only [bind, Except.bind, hrest]
  rfl

/-- The session after the last of the responses. -/
def after (session : Session V) : List (Response V) → Session V
  | [] => session
  | response :: rest => response.session.after rest

theorem runThread_eq_respondAll (session : Session V)
    (requests : List (Request V)) :
    session.runThread requests =
      (session.respondAll requests).map fun responses =>
        (session.after responses, responses.map (·.reply)) := by
  induction requests generalizing session with
  | nil => rfl
  | cons request rest ih =>
      rw [runThread, respondAll]
      cases session.perform request with
      | error fault => rfl
      | ok response =>
          simp only [bind, Except.bind, ih]
          cases response.session.respondAll rest <;> rfl

end LatchTree.Session

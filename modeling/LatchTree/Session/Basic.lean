import LatchTree.Scan.Basic
import LatchTree.Tree.Audit
import LatchTree.Tree.Bulk
import LatchTree.Tree.Dump

/-!
# Sessions

A session is a tree with scans that are under way.  Every operation can be asked
for as a request; the session performs it, replies and reports the events that
it caused.  The scans stay open while later requests change the tree.
-/

namespace LatchTree

/-- Scans are known by numbers that the caller chooses. -/
abbrev ScanId := Int

structure Session (V : Type) where
  tree : Tree V
  scans : List (ScanId × Scan V) := []

inductive Request (V : Type) where
  | insert (key : Key) (value : V)
  | remove (key : Key)
  | lookup (key : Key)
  | get (key : Key)
  | contains (key : Key)
  | size
  | isEmpty
  | height
  | degree
  | stats
  | reportStats
  | dump
  | dumpWithin (room : Nat)
  | describe
  | describeIndented
  | audit
  | range (start : Key) (count : Nat)
  | entriesFrom (start : Key)
  | insertAll (entries : List (Key × V))
  | removeAll (keys : List Key)
  | containsAll (keys : List Key)
  | openScan (scan : ScanId) (start : Key)
  | nextEntries (scan : ScanId) (count : Nat)
  | closeScan (scan : ScanId)

inductive Reply (V : Type) where
  | nothing
  /-- Done, without a value to report. -/
  | done
  | refused (error : TreeError)
  /-- Done, with the value of the key that was asked for. -/
  | value (value : V)
  | optional (value : Option V)
  | flag (holds : Bool)
  | count (n : Nat)
  | stats (stats : Stats)
  | text (text : String)
  | cutText (isWhole : Bool) (text : String)
  | audited (verdict : Except Violation Unit)
  | values (values : List V)
  | entries (entries : List (Key × V))
  | tally (tally : Tally)

namespace Reply

variable {V : Type}

def ofInsert : Except TreeError Unit → Reply V
  | .ok _ => .done
  | .error error => .refused error

def ofValue : Except TreeError V → Reply V
  | .ok found => .value found
  | .error error => .refused error

end Reply

/-- A reply, the session after it, and the events that the request caused. -/
structure Response (V : Type) where
  reply : Reply V
  session : Session V
  events : List Event := []

namespace Session

variable {V : Type}

def changed (session : Session V) {α : Type} (outcome : Outcome V α)
    (reply : α → Reply V) :
    Response V where
  reply := reply outcome.result
  session := { session with tree := outcome.tree }
  events := outcome.events

def closeScan (session : Session V) (id : ScanId) : Session V :=
  { session with scans := session.scans.filter (·.1 ≠ id) }

/-- Keeps a scan under its number, in place of an older one. -/
def keepScan (session : Session V) (id : ScanId) (scan : Scan V) : Session V :=
  { session.closeScan id with scans := (id, scan) :: (session.closeScan id).scans }

/-- Up to `count` further entries of an open scan.  A scan that is not open has
none. -/
def nextEntries (session : Session V) (id : ScanId) (count : Nat) :
    Except Fault (Response V) := do
  match session.scans.lookup id with
  | none => return { reply := .entries [], session }
  | some scan =>
    let (entries, scan) ← scan.take session.tree count
    return { reply := .entries entries, session := session.keepScan id scan }

def perform (session : Session V) : Request V → Except Fault (Response V)
  | .insert key value => do
    return session.changed (← session.tree.insert key value) .ofInsert
  | .remove key => do
    return session.changed (← session.tree.remove key) .ofValue
  | .lookup key => do
    return { reply := .ofValue (← session.tree.lookup key), session }
  | .get key => do
    return { reply := .optional (← session.tree.get? key), session }
  | .contains key => do
    return { reply := .flag (← session.tree.contains key), session }
  | .size => do
    return { reply := .count (← session.tree.size), session }
  | .isEmpty => do
    return { reply := .flag (← session.tree.isEmpty), session }
  | .height => return { reply := .count session.tree.height, session }
  | .degree => return { reply := .count session.tree.degree, session }
  | .stats => return { reply := .stats session.tree.stats, session }
  | .reportStats =>
    return { reply := .nothing, session, events := [session.tree.reportStats] }
  | .dump => do
    return { reply := .text (← session.tree.dump), session }
  | .dumpWithin room => do
    let (isWhole, text) ← session.tree.dumpWithin (some room)
    return { reply := .cutText isWhole text, session }
  | .describe => return { reply := .text session.tree.describe.inline, session }
  | .describeIndented =>
    return { reply := .text (session.tree.describe.indented ""), session }
  | .audit => return { reply := .audited session.tree.audit, session }
  | .range start count => do
    return { reply := .values (← session.tree.range start count), session }
  | .entriesFrom start => do
    return { reply := .entries (← session.tree.entriesFrom start), session }
  | .insertAll entries => do
    return session.changed (← session.tree.insertAll entries) .tally
  | .removeAll keys => do
    return session.changed (← session.tree.removeAll keys) .tally
  | .containsAll keys => do
    return { reply := .tally (← session.tree.containsAll keys), session }
  | .openScan id start =>
    return { reply := .nothing, session := session.keepScan id (.start start) }
  | .nextEntries id count => session.nextEntries id count
  | .closeScan id => return { reply := .nothing, session := session.closeScan id }

end Session

end LatchTree

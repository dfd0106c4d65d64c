import LatchTree.Proofs.Subtree.Extent
import LatchTree.Proofs.Tree.Stores

/-!
# Counted events

Seven counters are kept, one for each kind of change.  Every event is counted
under the kind that its message and its fields name.  As each event also stands
for one change of the extent, the events of a change tell how the height and the
number of pages differ before and after it.
-/

namespace LatchTree

open Subtree

variable {V : Type}

/-- What the seven counters of changes count. -/
inductive Counted where
  | split (kind : PageKind)
  | merge (kind : PageKind)
  | borrow
  | rootSplit
  | rootCollapse
  deriving DecidableEq

namespace Counted

def counter (stats : Stats) : Counted → Nat
  | .split .leaf => stats.leafSplits
  | .split .branch => stats.branchSplits
  | .merge .leaf => stats.leafMerges
  | .merge .branch => stats.branchMerges
  | .borrow => stats.borrows
  | .rootSplit => stats.rootSplits
  | .rootCollapse => stats.rootCollapses

/-- The message of the events that are counted. -/
def message : Counted → String
  | .split _ => "page split"
  | .merge _ => "rebalanced page"
  | .borrow => "rebalanced page"
  | .rootSplit => "root split"
  | .rootCollapse => "root collapsed"

/-- The fields that the events have among others. -/
def fields : Counted → List (String × FieldValue)
  | .split kind => [("kind", .word kind.word)]
  | .merge kind => [("kind", .word kind.word), ("action", .word "merge")]
  | .borrow => [("action", .word "borrow")]
  | .rootSplit => []
  | .rootCollapse => []

end Counted

namespace Event

def isCounted (event : Event) (counted : Counted) : Bool :=
  event.message == counted.message &&
    counted.fields.all event.fields.contains

end Event

namespace Stats

theorem counter_record (stats : Stats) (event : Event) (counted : Counted) :
    counted.counter (stats.record event) =
      counted.counter stats + if event.isCounted counted then 1 else 0 := by
  cases event with
  | pageSplit kind size separator =>
      cases counted with
      | split other => cases kind <;> cases other <;> rfl
      | merge other => cases kind <;> cases other <;> rfl
      | _ => cases kind <;> rfl
  | rebalanced kind direction action children =>
      cases counted with
      | split other => cases action <;> cases kind <;> cases other <;> rfl
      | merge other =>
          cases action <;> cases direction <;> cases kind <;> cases other <;>
            rfl
      | _ => cases action <;> cases direction <;> cases kind <;> rfl
  | _ =>
      cases counted with
      | split kind => cases kind <;> rfl
      | merge kind => cases kind <;> rfl
      | _ => rfl

theorem counter_recordAll (events : List Event) (stats : Stats)
    (counted : Counted) :
    counted.counter (events.foldl record stats) =
      counted.counter stats + events.countP (·.isCounted counted) := by
  induction events generalizing stats with
  | nil => rfl
  | cons event rest ih =>
      rw [List.foldl_cons, ih, counter_record, List.countP_cons]
      omega

end Stats

namespace Event

variable {event : Event} {events : List Event} {first mid last : Extent}

/-- The difference between two extents by the number of events of each kind. -/
structure Explain (events : List Event) (first last : Extent) : Prop where
  height :
    last.height + events.countP (·.isCounted .rootCollapse) =
      first.height + events.countP (·.isCounted .rootSplit)
  leaves :
    last.pages .leaf + events.countP (·.isCounted (.merge .leaf)) =
      first.pages .leaf + events.countP (·.isCounted (.split .leaf))
  branches :
    last.pages .branch + events.countP (·.isCounted (.merge .branch)) +
        events.countP (·.isCounted .rootCollapse) =
      first.pages .branch + events.countP (·.isCounted (.split .branch)) +
        events.countP (·.isCounted .rootSplit)

theorem Explain.cons (hevent : Explain [event] first mid)
    (hevents : Explain events mid last) :
    Explain (event :: events) first last := by
  obtain ⟨hheight, hleaves, hbranches⟩ := hevent
  obtain ⟨hheightLater, hleavesLater, hbranchesLater⟩ := hevents
  rw [List.countP_singleton, List.countP_singleton] at hheight hleaves
  simp only [List.countP_singleton] at hbranches
  constructor <;> simp only [List.countP_cons] <;> omega

theorem Alters.explain (halters : event.Alters first last) :
    Explain [event] first last := by
  cases halters with
  | @merge kind direction =>
      cases kind <;> cases direction <;> exact ⟨rfl, rfl, rfl⟩
  | @borrow kind direction =>
      cases kind <;> cases direction <;> exact ⟨rfl, rfl, rfl⟩
  | @pageSplit kind => cases kind <;> exact ⟨rfl, rfl, rfl⟩
  | _ => exact ⟨rfl, rfl, rfl⟩

theorem AlterAll.explain (halters : AlterAll events first last) :
    Explain events first last := by
  induction events generalizing first with
  | nil =>
      cases halters
      exact ⟨rfl, rfl, rfl⟩
  | cons event rest ih =>
      obtain ⟨next, hevent, hrest⟩ := halters
      exact hevent.explain.cons (ih hrest)

end Event

theorem Subtree.length_cells_eq_extent (t : Subtree V) (height : Nat) :
    t.cells.length =
      (t.extent height).pages .leaf + (t.extent height).pages .branch := by
  unfold extent Cell.countKind
  rw [List.length_eq_countP_add_countP (·.2.kind = .leaf)]
  congr 1
  refine List.countP_congr fun cell _ => ?_
  cases cell.2.kind <;> simp

end LatchTree

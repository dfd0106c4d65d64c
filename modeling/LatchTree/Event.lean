import LatchTree.Stats
import LatchTree.Page.Siblings

/-!
# Events

Each structural change of a tree is reported by an event, in the order in which
the changes are made.  An event has a level, a target, a message and further
fields.
-/

namespace LatchTree

inductive RepairAction where
  | merge
  | borrow
  deriving DecidableEq, Repr

def RepairAction.word : RepairAction → String
  | .merge => "merge"
  | .borrow => "borrow"

inductive Level where
  | trace
  | debug
  | info
  deriving DecidableEq, Repr

def Level.word : Level → String
  | .trace => "TRACE"
  | .debug => "DEBUG"
  | .info => "INFO"

inductive FieldValue where
  | count (n : Nat)
  | word (s : String)
  deriving DecidableEq, Repr

inductive Event where
  | created (degree : Nat)
  /-- A page kept `size` entries and gave those from the separator on to a new
  page. -/
  | pageSplit (kind : PageKind) (size : Nat) (separator : Key)
  | rootSplit (height : Nat) (separator : Key)
  /-- A page was repaired with its neighbour, which left `children` children to
  their parent. -/
  | rebalanced (kind : PageKind) (direction : Direction) (action : RepairAction) (children : Nat)
  | rootCollapsed (height : Nat)
  | statsReport (stats : Stats)
  deriving DecidableEq, Repr

namespace Event

def level : Event → Level
  | .created .. => .debug
  | .statsReport .. => .info
  | _ => .trace

def target : Event → String
  | .created .. => "crabtree"
  | .pageSplit .. => "crabtree::split"
  | .rootSplit .. => "crabtree::root"
  | .rebalanced .. => "crabtree::merge"
  | .rootCollapsed .. => "crabtree::root"
  | .statsReport .. => "crabtree::stats"

def message : Event → String
  | .created .. => "created tree"
  | .pageSplit .. => "page split"
  | .rootSplit .. => "root split"
  | .rebalanced .. => "rebalanced page"
  | .rootCollapsed .. => "root collapsed"
  | .statsReport .. => "tree stats snapshot"

def fields : Event → List (String × FieldValue)
  | .created degree => [("degree", .count degree)]
  | .pageSplit kind size separator =>
    [("kind", .word kind.word), ("len", .count size), ("separator", .count separator.toNat)]
  | .rootSplit height separator =>
    [("height", .count height), ("separator", .count separator.toNat)]
  | .rebalanced kind direction action children =>
    [("kind", .word kind.word), ("direction", .word direction.word),
     ("action", .word action.word), ("len", .count children)]
  | .rootCollapsed height => [("height", .count height)]
  | .statsReport stats => stats.fields.map fun (name, n) => (name, .count n)

end Event

end LatchTree

import LatchTree.Text.Description
import LatchTree.Text.Sink
import LatchTree.Tree.Subtree

/-!
# Texts of a tree

The dump of a tree has a head line and then one line for each page, a page
before those below it.  A leaf shows its keys, a branch its separators; lines
drawn in front of the pages show which branch they belong to.  The description
of a tree gives its degree, its height and its counters.
-/

namespace LatchTree

open Writing

namespace Subtree

variable {V : Type}

def putKeys (keys : List Key) : Writing Unit :=
  putList (keys.map fun key => toString key.toNat)

mutual

/-- Writes a page and those below it.  The head stands in front of the page's
own line, the margin in front of the lines below. -/
def write (head margin : String) : Subtree V → Writing Unit
  | .leaf _ contents => do
    put head
    put "leaf ["
    putKeys contents.keys
    put "]\n"
  | .branch _ children => do
    put head
    put "internal ["
    putKeys (children.tail.map (·.1))
    put "]\n"
    writeChildren margin children

def writeChildren (margin : String) : List (Key × Subtree V) → Writing Unit
  | [] => pure ()
  | (_, child) :: rest => do
    if rest.isEmpty then
      child.write (margin ++ "└── ") (margin ++ "    ")
    else
      child.write (margin ++ "├── ") (margin ++ "│   ")
    writeChildren margin rest

end

end Subtree

def Stats.describe (stats : Stats) : Description :=
  .record "StatsSnapshot" (stats.fields.map fun (label, n) => (label, .number n))

def Config.describe (config : Config) : Description :=
  .record "Config" [("degree", .number config.degree)]

namespace Tree

variable {V : Type}

def writeDump (tree : Tree V) (pages : Subtree V) : Writing Unit := do
  put s!"Tree(degree={tree.degree}, height={tree.height})\n"
  pages.write "" ""

/-- As much of the dump as fits into the room, and whether that was all of it.
-/
def dumpWithin (tree : Tree V) (room : Option Nat) :
    Except Fault (Bool × String) := do
  return (tree.writeDump (← tree.subtree)).runWithin room

def dump (tree : Tree V) : Except Fault String := do
  return (← tree.dumpWithin none).2

def describe (tree : Tree V) : Description :=
  .record "Tree" [
    ("degree", .number tree.degree),
    ("height", .number tree.height),
    ("stats", tree.stats.describe)]

end Tree

end LatchTree

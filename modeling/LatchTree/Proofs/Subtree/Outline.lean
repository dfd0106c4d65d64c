import LatchTree.Tree.Dump
import LatchTree.Proofs.Text.Sink

/-!
# Outlines

The outline of a subtree is what a dump shows of it: the kinds of its pages, how
they are nested, the separators of the branches and the keys of the leaves.  The
text of an outline is a function of it alone, and to write a subtree is to put
the text of its outline in one piece.
-/

namespace LatchTree

open Writing

inductive Outline where
  | leaf (keys : List Key)
  | branch (separators : List Key) (children : List Outline)

namespace Outline

def keyText (keys : List Key) : String :=
  ", ".intercalate (keys.map fun key => toString key.toNat)

mutual

/-- The head stands in front of the first line, the margin in front of the
others. -/
def text (head margin : String) : Outline → String
  | .leaf keys => head ++ "leaf [" ++ keyText keys ++ "]\n"
  | .branch separators children =>
      head ++ "internal [" ++ keyText separators ++ "]\n" ++
        textOf margin children

def textOf (margin : String) : List Outline → String
  | [] => ""
  | child :: rest =>
      (if rest.isEmpty then
        child.text (margin ++ "└── ") (margin ++ "    ")
      else
        child.text (margin ++ "├── ") (margin ++ "│   ")) ++
        textOf margin rest

end

end Outline

namespace Subtree

variable {V : Type}

mutual

def outline : Subtree V → Outline
  | .leaf _ contents => .leaf contents.keys
  | .branch _ children =>
      .branch (children.tail.map (·.1)) (outlinesOf children)

def outlinesOf : List (Key × Subtree V) → List Outline
  | [] => []
  | (_, child) :: rest => child.outline :: outlinesOf rest

end

theorem putKeys_eq (keys : List Key) :
    putKeys keys = put (Outline.keyText keys) :=
  putList_eq _

mutual

theorem write_eq_put (t : Subtree V) (head margin : String) :
    t.write head margin = put (t.outline.text head margin) :=
  match t with
  | .leaf page contents => by
      rw [write, outline, Outline.text, putKeys_eq]
      simp only [put_append, String.append_assoc]
  | .branch page children => by
      rw [write, outline, Outline.text, putKeys_eq,
        writeChildren_eq_put children]
      simp only [put_append, String.append_assoc]

theorem writeChildren_eq_put (children : List (Key × Subtree V))
    (margin : String) :
    writeChildren margin children =
      put (Outline.textOf margin (outlinesOf children)) :=
  match children with
  | [] => by
      rw [writeChildren, outlinesOf, Outline.textOf, put_empty]
  | (key, child) :: rest => by
      have hlast : (outlinesOf rest).isEmpty = rest.isEmpty := by
        cases rest <;> rfl
      rw [writeChildren, outlinesOf, Outline.textOf, hlast,
        writeChildren_eq_put rest, ← put_append, write_eq_put child,
        write_eq_put child]
      cases rest.isEmpty <;> rfl

end

end Subtree

end LatchTree

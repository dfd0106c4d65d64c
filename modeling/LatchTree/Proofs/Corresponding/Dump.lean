import LatchTree.Tree.Dump
import LatchTree.Proofs.Corresponding.Table
import LatchTree.Proofs.Subtree.Basic

/-!
# Texts of corresponding trees

The dump shows the keys of leaves and the separators of branches, but no key of
a first child.  So the dump of a tree is the dump of a corresponding one, with
the keys in it mapped.
-/

namespace LatchTree

variable {V : Type} {g : KeyMap}

/-- The fences stay, since no text shows them. -/
def Leaf.mapKeys (g : KeyMap) (leaf : Leaf V) : Leaf V :=
  { leaf with entries := g.mapEntries leaf.entries }

namespace Subtree

mutual

/-- The subtree with the images of its keys in their places. -/
def mapKeys (g : KeyMap) : Subtree V → Subtree V
  | .leaf page contents => .leaf page (contents.mapKeys g)
  | .branch page children => .branch page (mapKeysOf g children)

def mapKeysOf (g : KeyMap) : List (Key × Subtree V) → List (Key × Subtree V)
  | [] => []
  | (key, child) :: rest => (g key, child.mapKeys g) :: mapKeysOf g rest

end

def SameText (t u : Subtree V) : Prop :=
  ∀ head margin, t.write head margin = u.write head margin

theorem writeChildren_congr {children others : List (Key × Subtree V)}
    (hall : List.Forall₂ (fun a b => a.2.SameText b.2) children others)
    (margin : String) :
    writeChildren margin children = writeChildren margin others := by
  induction hall with
  | nil => rfl
  | cons hfirst hrest ih =>
      rw [writeChildren, writeChildren, ih, isEmpty_eq_of_forall₂ hrest, hfirst,
        hfirst]

/-- The keys of the first children are not written. -/
theorem sameText_branch {page : PageId} {key other : Key} {t u : Subtree V}
    {rest more : List (Key × Subtree V)} (hfirst : t.SameText u)
    (hrest : List.Forall₂ (fun a b => a.1 = b.1 ∧ a.2.SameText b.2) rest more) :
    (Subtree.branch page ((key, t) :: rest)).SameText
      (.branch page ((other, u) :: more)) := by
  intro head margin
  have hkeys : rest.map (·.1) = more.map (·.1) := by
    induction hrest with
    | nil => rfl
    | cons hchild _ ih => rw [List.map_cons, List.map_cons, hchild.1, ih]
  have hall : List.Forall₂ (fun a b => a.2.SameText b.2)
      ((key, t) :: rest) ((other, u) :: more) :=
    .cons hfirst (hrest.imp fun _ _ hchild => hchild.2)
  rw [write, write, writeChildren_congr hall, List.tail_cons, List.tail_cons,
    hkeys]

/-- With its keys mapped, the first subtree is written as the second one is, and
the entries correspond. -/
structure Corresponds (g : KeyMap) (t u : Subtree V) : Prop where
  text : (t.mapKeys g).SameText u
  entries : List.Forall₂ g.MapsEntry t.entries u.entries

namespace Corresponds

theorem leaf (page : PageId) {contents other : Leaf V}
    (hleaf : contents.Corresponds g other) :
    (Subtree.leaf page contents).Corresponds g (.leaf page other) where
  text := by
    intro head margin
    have hkeys : (contents.mapKeys g).keys = other.keys := by
      unfold Leaf.keys Leaf.mapKeys
      rw [KeyMap.mapEntries_eq hleaf.entries]
    rw [mapKeys, write, write, hkeys]
  entries := by
    rw [entries_leaf, entries_leaf]
    exact hleaf.entries

/-- The keys of the first children may be any. -/
theorem branch (page : PageId) (key other : Key) {t u : Subtree V}
    (hfirst : t.Corresponds g u) {rest more : List (Key × Subtree V)}
    (hrest : List.Forall₂ (fun a b => g.Maps a.1 b.1 ∧ a.2.Corresponds g b.2)
      rest more) :
    (Subtree.branch page ((key, t) :: rest)).Corresponds g
      (.branch page ((other, u) :: more)) where
  text := by
    have hmapped : List.Forall₂ (fun a b => a.1 = b.1 ∧ a.2.SameText b.2)
        (mapKeysOf g rest) more := by
      induction hrest with
      | nil => exact .nil
      | cons hchild _ ih =>
          exact .cons ⟨hchild.1.image.symm, hchild.2.text⟩ ih
    exact sameText_branch hfirst.text hmapped
  entries := by
    have hbelow : List.Forall₂ g.MapsEntry (Cell.entriesIn (cellsOf rest))
        (Cell.entriesIn (cellsOf more)) := by
      induction hrest with
      | nil => exact .nil
      | cons hchild _ ih =>
          rw [entriesIn_cellsOf_cons, entriesIn_cellsOf_cons]
          exact List.rel_append hchild.2.entries ih
    rw [entries_branch, entries_branch, entriesIn_cellsOf_cons,
      entriesIn_cellsOf_cons]
    exact List.rel_append hfirst.entries hbelow

end Corresponds

/-! ## The identity -/

mutual

theorem mapKeys_identity (t : Subtree V) : t.mapKeys .identity = t :=
  match t with
  | .leaf page contents => by
      rw [mapKeys, Leaf.mapKeys, KeyMap.mapEntries_identity]
  | .branch page children => by
      rw [mapKeys, mapKeysOf_identity children]

theorem mapKeysOf_identity (children : List (Key × Subtree V)) :
    mapKeysOf .identity children = children :=
  match children with
  | [] => rfl
  | (key, child) :: rest => by
      rw [mapKeysOf, mapKeys_identity child, mapKeysOf_identity rest]
      rfl

end

end Subtree

namespace Tree

/-- The dump with the keys in it mapped. -/
def dumpMapped (tree : Tree V) (g : KeyMap) (room : Option Nat) :
    Except Fault (Bool × String) := do
  return (tree.writeDump ((← tree.subtree).mapKeys g)).runWithin room

theorem dumpMapped_identity (tree : Tree V) (room : Option Nat) :
    tree.dumpMapped .identity room = tree.dumpWithin room := by
  unfold dumpMapped dumpWithin
  simp only [Subtree.mapKeys_identity]

namespace Corresponds

variable {first second : Tree V}

theorem subtreeFrom (htree : first.Corresponds g second) (fuel : Nat)
    (page : PageId) :
    Follows (Subtree.Corresponds g) (first.subtreeFrom fuel page)
      (second.subtreeFrom fuel page) := by
  induction fuel generalizing page with
  | zero => exact .error _ _
  | succ fuel ih =>
      rw [Tree.subtreeFrom, Tree.subtreeFrom]
      refine (htree.pages.node page).bind fun left right hnode => ?_
      cases hnode with
      | leaf hleaf => exact .ok (.leaf page hleaf)
      | branch hbranch =>
          cases hbranch with
          | empty => exact .error _ _
          | @rekeyed key other child rest more hrest =>
              have hbelow : Follows
                  (List.Forall₂ fun a b => g.Maps a.1 b.1 ∧
                    a.2.Corresponds g b.2)
                  (rest.mapM fun e => do
                    return (e.1, ← first.subtreeFrom fuel e.2))
                  (more.mapM fun e => do
                    return (e.1, ← second.subtreeFrom fuel e.2)) := by
                refine .mapM (hrest.imp fun e f hentry => ?_)
                rw [← hentry.content]
                exact (ih e.2).bind fun t u hchild => .ok ⟨hentry.key, hchild⟩
              simp only [List.isEmpty_cons, Bool.false_eq_true, if_false,
                List.mapM_cons, bind_assoc, pure_bind]
              refine (ih child).bind fun t u hfirst => ?_
              exact hbelow.bind fun children others hall =>
                .ok (.branch page key other hfirst hall)

theorem subtree (htree : first.Corresponds g second) :
    Follows (Subtree.Corresponds g) first.subtree second.subtree := by
  unfold Tree.subtree
  rw [htree.pages.size_eq, htree.root]
  exact htree.subtreeFrom _ _

theorem dumpWithin (htree : first.Corresponds g second) (room : Option Nat) :
    Follows Eq (first.dumpMapped g room) (second.dumpWithin room) := by
  unfold dumpMapped Tree.dumpWithin
  refine htree.subtree.bind fun t u hpages => .ok ?_
  unfold writeDump degree
  rw [htree.config, htree.height, hpages.text]

theorem describe_eq (htree : first.Corresponds g second) :
    first.describe = second.describe := by
  unfold describe degree
  rw [htree.config, htree.height, htree.stats]

end Corresponds

end Tree

end LatchTree

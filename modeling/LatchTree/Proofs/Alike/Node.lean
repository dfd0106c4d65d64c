import LatchTree.Proofs.Corresponding.Node

/-!
# Nodes that differ in a first key

The first child of a branch stands before every separator, and the key in its
slot is left over from an earlier change.  Two branches are alike if they differ
in nothing but that key.  So alike nodes are nodes that correspond when every
key is mapped to itself.
-/

namespace LatchTree

namespace Branch

/-- The branches have the same children and the same separators. -/
inductive Alike : Branch → Branch → Prop
  | empty : Alike ⟨[]⟩ ⟨[]⟩
  | rekeyed (key other : Key) (child : PageId) (rest : List (Key × PageId)) :
      Alike ⟨(key, child) :: rest⟩ ⟨(other, child) :: rest⟩

namespace Alike

theorem refl (branch : Branch) : branch.Alike branch := by
  obtain ⟨_ | ⟨⟨key, child⟩, rest⟩⟩ := branch
  · exact .empty
  · exact .rekeyed key key child rest

variable {first second : Branch}

theorem separators_eq (halike : first.Alike second) :
    first.separators = second.separators := by
  cases halike <;> rfl

theorem corresponds (halike : first.Alike second) :
    first.Corresponds .identity second := by
  cases halike with
  | empty => exact .empty
  | rekeyed key other child rest =>
      exact .rekeyed key other child (KeyMap.mapsEntry_identity_iff.mpr rfl)

theorem of_corresponds (hbranch : first.Corresponds .identity second) :
    first.Alike second := by
  cases hbranch with
  | empty => exact .empty
  | @rekeyed key other child rest more hrest =>
      cases KeyMap.mapsEntry_identity_iff.mp hrest
      exact .rekeyed key other child rest

end Alike

end Branch

theorem Leaf.corresponds_identity_iff {V : Type} {first second : Leaf V} :
    first.Corresponds .identity second ↔ first = second := by
  constructor
  · intro hleaf
    obtain ⟨entries, low, high⟩ := first
    obtain ⟨others, otherLow, otherHigh⟩ := second
    obtain ⟨hentries, hlow, hhigh⟩ := hleaf
    cases KeyMap.mapsEntry_identity_iff.mp hentries
    cases KeyMap.mapsLow_identity_iff.mp hlow
    cases hhigh with
    | none => rfl
    | some hhigh =>
        cases KeyMap.maps_identity_iff.mp hhigh
        rfl
  · rintro rfl
    have hhigh : Option.Rel KeyMap.identity.Maps first.high first.high := by
      cases first.high with
      | none => exact .none
      | some high => exact .some (KeyMap.maps_identity high)
    exact ⟨KeyMap.mapsEntry_identity_iff.mpr rfl,
      KeyMap.mapsLow_identity_iff.mpr rfl, hhigh⟩

namespace Node

variable {V : Type}

/-- The nodes are the same leaf, or they are alike branches. -/
inductive Alike : Node V → Node V → Prop
  | leaf (contents : Leaf V) : Alike (.leaf contents) (.leaf contents)
  | branch {first second : Branch} :
      first.Alike second → Alike (.branch first) (.branch second)

namespace Alike

theorem refl (node : Node V) : node.Alike node := by
  cases node with
  | leaf contents => exact .leaf contents
  | branch contents => exact .branch (.refl contents)

variable {first second : Node V}

theorem corresponds (halike : first.Alike second) :
    first.Corresponds .identity second := by
  cases halike with
  | leaf contents => exact .leaf (Leaf.corresponds_identity_iff.mpr rfl)
  | branch hbranch => exact .branch hbranch.corresponds

theorem of_corresponds (hnode : first.Corresponds .identity second) :
    first.Alike second := by
  cases hnode with
  | leaf hleaf =>
      cases Leaf.corresponds_identity_iff.mp hleaf
      exact .leaf _
  | branch hbranch => exact .branch (.of_corresponds hbranch)

end Alike

end Node

end LatchTree

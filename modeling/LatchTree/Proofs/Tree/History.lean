import LatchTree.Proofs.Tree.Audit
import LatchTree.Proofs.Tree.Remove

/-!
# Histories of a tree

A history is a run of insertions and removals, refused ones included.  A tree
that is built with an accepted degree is sound, each change leaves a sound tree,
and so every history runs without a fault and ends in a sound tree, which passes
the audit.
-/

namespace LatchTree

open Subtree

variable {V : Type}

inductive Change (V : Type) where
  | insert (key : Key) (value : V)
  | remove (key : Key)

/-- Keys that stand in both lists have the same value in both. -/
def Agree (first second : List (Key × V)) : Prop :=
  ∀ a ∈ first, ∀ b ∈ second, a.1 = b.1 → a = b

namespace Tree

/-- The tree after a change, whether it is made or refused. -/
def change (tree : Tree V) : Change V → Except Fault (Tree V)
  | .insert key value => do return (← tree.insert key value).tree
  | .remove key => do return (← tree.remove key).tree

def changeAll (tree : Tree V) : List (Change V) → Except Fault (Tree V)
  | [] => return tree
  | change :: rest => do (← tree.change change).changeAll rest

theorem sound_empty {config : Config} (hvalid : config.Valid) :
    (Tree.empty config : Tree V).Sound (.leaf 0 {}) where
  root := rfl
  stores := by
    have hnone : ∀ id node, (({} : PageTable V).liveNode? id) ≠ some node := by
      intro id node
      simp [PageTable.liveNode?, PageTable.page?]
    have hholds : ({} : PageTable V).Holds [] := by
      refine ⟨List.nodup_nil, fun id node => ?_⟩
      simp [hnone id node]
    refine ⟨?_, ⟨List.nodup_singleton _, ?_, ?_⟩, ?_, rfl⟩
    · rw [cells_leaf]
      exact hholds.alloc (.leaf {})
    · exact ⟨rfl, rfl, trivial⟩
    · intro id _
      rw [Tree.empty, PageTable.prev?_alloc, PageTable.next?_alloc]
      exact ⟨rfl, rfl⟩
    · intro id hid
      rw [leafPages_leaf, List.mem_singleton] at hid
      subst hid
      exact ⟨{}, by rw [cells_leaf]; exact List.mem_cons_self⟩
  valid := hvalid
  wellFormed :=
    { fits := .leaf Leaf.empty_fitsIn_all
      sized := ⟨Nat.le_refl 0, Nat.zero_le _⟩ }

namespace Sound

variable {tree : Tree V} {t : Subtree V}

/-- A change leaves a sound tree.  The pages of the old tree live on in it, and
no key changes its value. -/
theorem exists_change (hsound : tree.Sound t) (change : Change V) :
    ∃ next u events,
      tree.change change = .ok next ∧ next.Sound u ∧
        tree.Continues next events ∧ Agree t.entries u.entries := by
  have hascending := hsound.wellFormed.fits.ascending
  have hsame : Agree t.entries t.entries := fun a ha b hb hkey =>
    hascending.key_injective ha hb hkey
  cases change with
  | insert key value =>
      cases hlookup : t.entries.lookup key with
      | some found =>
          have hpresent :=
            hsound.insert_present
              (Option.isSome_iff_exists.mpr ⟨found, hlookup⟩) value
          exact ⟨tree, t, [], by rw [Tree.change, hpresent]; rfl,
            hsound, .refl tree, hsame⟩
      | none =>
          obtain ⟨_, _, _, _, settled, next, _, _, hinsert, hnext, hcontinues,
            hmem⟩ :=
            hsound.exists_insert_absent hlookup value
          refine ⟨next, _, _, by rw [Tree.change, hinsert]; rfl, hnext,
            hcontinues, ?_⟩
          intro a ha b hb hkey
          rcases (hmem b).mp hb with rfl | hb
          · have hfound := hascending.lookup_eq_some_iff.mpr ha
            rw [hkey, hlookup] at hfound
            cases hfound
          · exact hsame a ha b hb hkey
  | remove key =>
      cases hlookup : t.entries.lookup key with
      | none =>
          have habsent := hsound.remove_absent hlookup
          exact ⟨tree, t, [], by rw [Tree.change, habsent]; rfl,
            hsound, .refl tree, hsame⟩
      | some value =>
          obtain ⟨_, _, _, _, settled, next, _, _, hremove, hnext, hcontinues,
            hmem⟩ :=
            hsound.exists_remove_present hlookup
          refine ⟨next, _, _, by rw [Tree.change, hremove]; rfl, hnext,
            hcontinues, ?_⟩
          exact fun a ha b hb hkey => hsame a ha b ((hmem b).mp hb).1 hkey

theorem exists_changeAll (hsound : tree.Sound t) (changes : List (Change V)) :
    ∃ next u, tree.changeAll changes = .ok next ∧ next.Sound u := by
  induction changes generalizing tree t with
  | nil => exact ⟨tree, t, rfl, hsound⟩
  | cons change rest ih =>
      obtain ⟨mid, u, _, hchange, hmid, _⟩ := hsound.exists_change change
      obtain ⟨next, last, hrest, hnext⟩ := ih hmid
      refine ⟨next, last, ?_, hnext⟩
      rw [changeAll, hchange]
      exact hrest

end Sound

/-- After any history of a new tree the audit finds nothing: sizes, order and
bounds of the keys, the depth and the fences of the leaves, the leaf chain and
the counter of live pages are right. -/
theorem audit_changeAll {config : Config} (hconfig : config.validate = .ok ())
    (changes : List (Change V)) :
    ∃ tree, (Tree.empty config).changeAll changes = .ok tree ∧
      tree.audit = .ok () ∧ ∃ t, tree.Sound t := by
  have hvalid := Config.validate_eq_ok_iff.mp hconfig
  obtain ⟨tree, t, hrun, hsound⟩ :=
    (sound_empty hvalid).exists_changeAll changes
  exact ⟨tree, hrun, hsound.audit_eq_ok, t, hsound⟩

/-- A root is split, a key is refused, and two removals let leaves merge. -/
theorem audit_changeAll_of_merges :
    ({ degree := 3 } : Config).validate = .ok () ∧
      ∃ tree,
        (Tree.empty { degree := 3 }).changeAll
            [.insert 1 'a', .insert 2 'b', .insert 3 'c', .insert 4 'd',
              .insert 2 'e', .remove 1, .remove 2] = .ok tree ∧
          tree.audit = .ok () ∧ tree.height = 1 := by
  have hconfig : ({ degree := 3 } : Config).validate = .ok () := rfl
  obtain ⟨tree, hrun, haudit, _⟩ := audit_changeAll hconfig
    [.insert 1 'a', .insert 2 'b', .insert 3 'c', .insert 4 'd', .insert 2 'e',
      .remove 1, .remove 2]
  have hheight : ((Tree.empty { degree := 3 }).changeAll
      [.insert 1 'a', .insert 2 'b', .insert 3 'c', .insert 4 'd',
        .insert 2 'e', .remove 1, .remove 2]).map Tree.height = .ok 1 := by
    decide +kernel
  rw [hrun, Except.map, Except.ok.injEq] at hheight
  exact ⟨hconfig, tree, hrun, haudit, hheight⟩

end Tree

end LatchTree

import LatchTree.Proofs.Tree.History

/-!
# Early release of latches

A descent lets go of the latches above each safe page.  A descent that keeps all
latches reaches the same leaf with the same latches at the lower end, and with
those of all other pages on the way and of the root pointer above them.  An
insertion or a removal along these latches does the same as one along the
latches that were kept: splits and repairs never need a latch that was let go,
and never use one that need not have been held.
-/

namespace LatchTree

open Subtree Context

variable {V : Type}

/-- The latch of the root pointer is held, and one of a page on each level. -/
structure LatchPath.Complete (path : LatchPath) (height : Nat) : Prop where
  length : path.links.length = height + 1
  root : path.links.getLast? = some .root

namespace Context

theorem held_prefix (rule : ReleaseRule V) (context : Context V)
    (t : Subtree V) : context.held rule t <+: context.held .never t := by
  induction context generalizing t with
  | nil =>
      rw [held_eq rule]
      split
      next => exact List.nil_prefix
      next => exact List.prefix_rfl
  | cons frame rest ih =>
      rw [held_eq rule]
      split
      next => exact List.nil_prefix
      next => exact (List.prefix_cons_inj _).mpr (ih (frame.plug t))

theorem length_held_never (context : Context V) (t : Subtree V) :
    (context.held .never t).length = context.length + 1 := by
  induction context generalizing t with
  | nil => rfl
  | cons frame rest ih => exact congrArg (· + 1) (ih (frame.plug t))

theorem getLast?_held_never (context : Context V) (t : Subtree V) :
    (context.held .never t).getLast? = some .root := by
  induction context generalizing t with
  | nil => rfl
  | cons frame rest ih =>
      have hrest := ih (frame.plug t)
      change (Link.page frame.page (slot rest) ::
        held .never rest (frame.plug t)).getLast? = some .root
      rw [List.getLast?_cons, hrest]
      rfl

/-- Each frame leads one level up. -/
theorem Fits.length_add_level {config : Config} {height level : Nat}
    {context : Context V} {bounds : Bounds}
    (hcontext : context.Fits config height level bounds) :
    context.length + level = height := by
  induction hcontext with
  | root => exact Nat.zero_add _
  | @inner frame rest level bounds _ _ _ _ ih =>
      rw [List.length_cons]
      omega

end Context

/-- Two paths down to the leaf that covers a key: the full one holds all latches
of the way, and the other one those that are left if each safe page lets go of
the latches above it. -/
structure Tree.Paths (tree : Tree V) (key : Key) (access : Access)
    (path full : LatchPath) : Prop where
  released : tree.descend key access = .ok path
  kept : tree.descendBy .never key access = .ok full
  lower : path.links <+: full.links
  complete : full.Complete tree.height

namespace Tree.Sound

variable {tree : Tree V} {t : Subtree V}

theorem exists_paths (hsound : tree.Sound t) (key : Key) (access : Access) :
    ∃ context page contents bounds,
      Leads tree.config tree.height t key context page contents bounds ∧
        ∃ above all,
          tree.Paths key access ⟨access.mode, .page page context.slot :: above⟩
              ⟨access.mode, .page page context.slot :: all⟩ ∧
            Guards tree.config access above context (.leaf page contents) ∧
            Guards tree.config access all context (.leaf page contents) := by
  obtain ⟨context, page, contents, bounds, hleads, hdescend⟩ :=
    hsound.exists_descend key
  refine ⟨context, page, contents, bounds, hleads, _, _, ⟨?_, ?_, ?_, ?_, ?_⟩,
    guards_held (ReleaseRule.cautious_safe _ _) _ _,
    guards_held (ReleaseRule.cautious_never _ _) _ _⟩
  · rw [descend_eq_descendBy]
    exact hdescend (.safe tree.config access) access
  · exact hdescend .never access
  · exact (List.prefix_cons_inj _).mpr (context.held_prefix _ _)
  · rw [List.length_cons, length_held_never, hleads.outer.length_add_level]
  · rw [List.getLast?_cons, getLast?_held_never]
    rfl

theorem insert_along_both (hsound : tree.Sound t) (key : Key) (value : V) :
    ∃ path full outcome,
      tree.Paths key .insert path full ∧
        tree.insertAlong path key value = .ok outcome ∧
        tree.insertAlong full key value = .ok outcome := by
  obtain ⟨context, page, contents, bounds, hleads, above, all, hpaths, habove,
    hall⟩ := hsound.exists_paths key .insert
  cases hlookup : t.entries.lookup key with
  | some found =>
      have hpresent : (t.entries.lookup key).isSome :=
        Option.isSome_iff_exists.mpr ⟨found, hlookup⟩
      have hrefused := hsound.insertAlong_present hleads hpresent value
      exact ⟨_, _, _, hpaths, hrefused above, hrefused all⟩
  | none =>
      obtain ⟨settled, next, _, hinsert, _⟩ :=
        hsound.exists_insertAlong_absent hleads hlookup value
      exact ⟨_, _, _, hpaths, hinsert above habove, hinsert all hall⟩

theorem remove_along_both (hsound : tree.Sound t) (key : Key) :
    ∃ path full outcome,
      tree.Paths key .delete path full ∧
        tree.removeAlong path key = .ok outcome ∧
        tree.removeAlong full key = .ok outcome := by
  obtain ⟨context, page, contents, bounds, hleads, above, all, hpaths, habove,
    hall⟩ := hsound.exists_paths key .delete
  cases hlookup : t.entries.lookup key with
  | none =>
      have hrefused := hsound.removeAlong_absent hleads hlookup
      exact ⟨_, _, _, hpaths, hrefused above, hrefused all⟩
  | some value =>
      obtain ⟨settled, next, _, hremove, _⟩ :=
        hsound.exists_removeAlong_present hleads hlookup
      exact ⟨_, _, _, hpaths, hremove above habove, hremove all hall⟩

end Tree.Sound

namespace Tree

/-- In any tree that a history of changes leads to, an insertion or a removal
along the latches that its descent kept has the outcome that it has along all
latches of the way: the same result, the same tree with all its pages and
counters, and the same events in the same order. -/
theorem early_release_changes_nothing {config : Config}
    (hconfig : config.validate = .ok ()) (history : List (Change V)) :
    ∃ tree, (Tree.empty config).changeAll history = .ok tree ∧
      ∀ key,
        (∀ value, ∃ path full outcome,
          tree.Paths key .insert path full ∧
            tree.insertAlong path key value = .ok outcome ∧
            tree.insertAlong full key value = .ok outcome) ∧
        ∃ path full outcome,
          tree.Paths key .delete path full ∧
            tree.removeAlong path key = .ok outcome ∧
            tree.removeAlong full key = .ok outcome := by
  have hvalid := Config.validate_eq_ok_iff.mp hconfig
  obtain ⟨tree, t, hrun, hsound⟩ :=
    (sound_empty hvalid).exists_changeAll history
  refine ⟨tree, hrun, fun key => ⟨fun value => ?_, ?_⟩⟩
  · exact hsound.insert_along_both key value
  · exact hsound.remove_along_both key

/-- Two leaves merge below a root with four children.  The root is safe, so the
latch of the root pointer is let go; while it is held, the repair goes on to the
root and finds that nothing is left to do. -/
theorem early_release_changes_nothing_below_wide_root :
    ({ degree := 3 } : Config).validate = .ok () ∧
      ∃ tree path full outcome,
        (Tree.empty { degree := 3 }).changeAll
            [.insert 1 'a', .insert 2 'b', .insert 3 'c', .insert 4 'd',
              .insert 5 'e', .insert 6 'f', .insert 7 'g', .insert 8 'h'] =
          .ok tree ∧
        tree.Paths 1 .delete path full ∧
        path.links = [.page 0 0, .page 2 0] ∧
        full.links = [.page 0 0, .page 2 0, .root] ∧
        tree.removeAlong path 1 = .ok outcome ∧
        tree.removeAlong full 1 = .ok outcome ∧
        outcome.events = [.rebalanced .leaf .right .merge 3] := by
  have hconfig : ({ degree := 3 } : Config).validate = .ok () := rfl
  obtain ⟨tree, hrun, hsame⟩ := early_release_changes_nothing hconfig
    [.insert 1 'a', .insert 2 'b', .insert 3 'c', .insert 4 'd',
      .insert 5 'e', .insert 6 'f', .insert 7 'g', .insert 8 'h']
  obtain ⟨path, full, outcome, hpaths, hpath, hfull⟩ := (hsame 1).2
  have hremove : tree.remove 1 = .ok outcome := by
    rw [remove, hpaths.released]
    exact hpath
  have hfacts : (do
      let tree ← (Tree.empty { degree := 3 }).changeAll
        [.insert 1 'a', .insert 2 'b', .insert 3 'c', .insert 4 'd',
          .insert 5 'e', .insert 6 'f', .insert 7 'g', .insert 8 'h']
      return ((← tree.descend 1 .delete).links,
        (← tree.descendBy .never 1 .delete).links, (← tree.remove 1).events)) =
      Except.ok ([.page 0 0, .page 2 0], [.page 0 0, .page 2 0, .root],
        [.rebalanced .leaf .right .merge 3]) := by
    decide +kernel
  simp only [hrun, hpaths.released, hpaths.kept, hremove, bind, Except.bind,
    pure, Except.pure, Except.ok.injEq, Prod.mk.injEq] at hfacts
  obtain ⟨hpathLinks, hfullLinks, hevents⟩ := hfacts
  exact ⟨hconfig, tree, path, full, outcome, hrun, hpaths, hpathLinks,
    hfullLinks, hpath, hfull, hevents⟩

end Tree

end LatchTree

import LatchTree.Proofs.Scan.Interleaving

/-!
# Parked scans

A scan that is left alone for a while still has its buffer, a lower bound and,
perhaps, a leaf that it remembers.  Meanwhile that leaf may give entries to its
neighbours, take some from them, be split, or be retired.  What the scan has yet
to yield depends on none of this: it is the buffer, followed by the entries from
the bound on that the tree has when the scan goes on.
-/

namespace LatchTree

open Subtree

variable {V : Type}

namespace Tree

/-- The entries that lookups find, in ascending order. -/
structure Lists (tree : Tree V) (entries : List (Key × V)) : Prop where
  ascending : Ascending entries
  mem_iff : ∀ key value,
    (key, value) ∈ entries ↔ tree.get? key = .ok (some value)

theorem Sound.lists {tree : Tree V} {t : Subtree V} (hsound : tree.Sound t) :
    tree.Lists t.entries where
  ascending := hsound.wellFormed.fits.ascending
  mem_iff := by
    intro key value
    have hascending : Ascending t.entries := hsound.wellFormed.fits.ascending
    rw [hsound.get?_eq_lookup, Except.ok.injEq, hascending.lookup_eq_some_iff]

/-- A tree does not list its entries in two ways. -/
theorem Lists.unique {tree : Tree V} {first second : List (Key × V)}
    (hfirst : tree.Lists first) (hsecond : tree.Lists second) :
    first = second := by
  refine hfirst.ascending.ext hsecond.ascending fun e => ?_
  exact (hfirst.mem_iff e.1 e.2).trans (hsecond.mem_iff e.1 e.2).symm

end Tree

namespace Scan

/-- The tree and the scan after the steps. -/
def follow (tree : Tree V) (scan : Scan V) :
    List (ScanStep V) → Except Fault (Tree V × Scan V)
  | [] => return (tree, scan)
  | .change change :: steps => do
    follow (← tree.change change) scan steps
  | .next :: steps => do
    let (_, scan) ← scan.next tree
    follow tree scan steps

/-- The scan is ready for whatever tree the steps lead to. -/
theorem exists_follow {tree : Tree V} {t : Subtree V} {scan : Scan V}
    (hsound : tree.Sound t) (hready : scan.Ready tree.pages)
    (steps : List (ScanStep V)) :
    ∃ last parked u, follow tree scan steps = .ok (last, parked) ∧
      last.Sound u ∧ parked.Ready last.pages := by
  induction steps generalizing tree t scan with
  | nil => exact ⟨tree, scan, t, rfl, hsound, hready⟩
  | cons step steps ih =>
      cases step with
      | change change =>
          obtain ⟨next, u, _, hchange, hnext, hcontinues, _⟩ :=
            hsound.exists_change change
          have hlater := hready.evolve hcontinues.pages
          rw [follow, hchange]
          exact ih hnext hlater
      | next =>
          have hpoised := hready.poised hsound
          obtain ⟨answer, later, hnext, hyields⟩ :=
            exists_next hsound.shows hpoised
          rw [follow, hnext]
          exact ih hsound hyields.poised.toReady

/-- Wherever changes and questions leave a tree and a scan over it, the scan
yields its buffer and then, unless its walk has finished, the entries that the
tree has from the lower bound of the walk on. -/
theorem parked_scan_yields_rest {config : Config}
    (hconfig : config.validate = .ok ())
    (history : List (Change V)) (lower : Key) (steps : List (ScanStep V)) :
    ∃ tree last parked entries,
      (Tree.empty config).changeAll history = .ok tree ∧
        (start lower).follow tree steps = .ok (last, parked) ∧
        last.Lists entries ∧
        parked.drain last =
          .ok (parked.buffer ++
            if parked.walk.cursor = .finished then []
            else entries.filter (parked.walk.lower ≤ ·.1)) := by
  have hvalid := Config.validate_eq_ok_iff.mp hconfig
  obtain ⟨tree, t, hrun, hsound⟩ :=
    (Tree.sound_empty hvalid).exists_changeAll history
  obtain ⟨last, parked, u, hfollow, hlast, hready⟩ :=
    exists_follow hsound (ready_start lower tree.pages) steps
  have hdrain : parked.drain last = .ok (parked.rest u) :=
    drain_eq hlast.shows (hready.poised hlast)
  exact ⟨tree, last, parked, u.entries, hrun, hfollow, hlast.lists, hdrain⟩

/-- The removals retire the leaf that the scan remembers, and the last insertion
still comes in time. -/
theorem parked_scan_yields_rest_past_retired_leaf :
    ({ degree := 3 } : Config).validate = .ok () ∧
      ∃ tree last parked entries,
        (Tree.empty { degree := 3 }).changeAll
            [.insert 1 'a', .insert 2 'b', .insert 3 'c', .insert 4 'd',
              .insert 5 'e', .insert 6 'f', .insert 7 'g'] = .ok tree ∧
          (start 2).follow tree [.next, .next, .change (.remove 7),
            .change (.remove 6), .change (.insert 8 'h')] =
              .ok (last, parked) ∧
          parked.walk = ⟨.leaf 3, 5⟩ ∧
          (last.pages.page 3).map (·.retired) = .ok true ∧
          last.Lists entries ∧
          parked.drain last =
            .ok ([(4, 'd')] ++ entries.filter ((5 : Key) ≤ ·.1)) := by
  have hconfig : ({ degree := 3 } : Config).validate = .ok () := rfl
  obtain ⟨tree, last, parked, entries, hrun, hfollow, hlists, hdrain⟩ :=
    parked_scan_yields_rest hconfig
    [.insert 1 'a', .insert 2 'b', .insert 3 'c', .insert 4 'd', .insert 5 'e',
      .insert 6 'f', .insert 7 'g'] 2
    [.next, .next, .change (.remove 7), .change (.remove 6),
      .change (.insert 8 'h')]
  have hseen : ((Tree.empty { degree := 3 }).changeAll
      [.insert 1 'a', .insert 2 'b', .insert 3 'c', .insert 4 'd',
        .insert 5 'e', .insert 6 'f', .insert 7 'g']).bind
        (fun tree => ((start 2).follow tree [.next, .next,
          .change (.remove 7), .change (.remove 6),
          .change (.insert 8 'h')]).map fun (last, parked) =>
            ((last.pages.page 3).map (·.retired), parked.walk,
              parked.buffer)) =
      .ok (.ok true, ⟨.leaf 3, 5⟩, [(4, 'd')]) := by
    decide +kernel
  rw [hrun, Except.bind, hfollow, Except.map, Except.ok.injEq] at hseen
  obtain ⟨hretired, hseen⟩ := Prod.mk.inj hseen
  obtain ⟨hwalk, hbuffer⟩ := Prod.mk.inj hseen
  rw [hwalk, hbuffer, if_neg (by decide)] at hdrain
  exact ⟨hconfig, tree, last, parked, entries, hrun, hfollow, hwalk, hretired,
    hlists, hdrain⟩

end Scan

end LatchTree

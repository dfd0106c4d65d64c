import LatchTree.Tree.Bulk
import LatchTree.Proofs.Subtree.Extent
import LatchTree.Proofs.Tree.History

/-!
# Transitions of a tree

A transition leads from a tree that stores one subtree to a tree that stores
another.  It leaves a sound tree, its pages live on, and counters and extent
follow the events that were emitted on the way.  An insertion or a removal is a
transition, and so is a run of them.
-/

namespace LatchTree

open Subtree Context

variable {V : Type}

namespace Tree

structure Transition (tree : Tree V) (t : Subtree V) (next : Tree V)
    (u : Subtree V) (events : List Event) : Prop where
  sound : next.Sound u
  continues : tree.Continues next events
  alters : Event.AlterAll events (t.extent tree.height) (u.extent next.height)

namespace Transition

variable {tree next last : Tree V} {t u v : Subtree V}
  {events later : List Event}

theorem refl (hsound : tree.Sound t) : Transition tree t tree t [] :=
  ⟨hsound, .refl tree, rfl⟩

theorem trans (hfirst : Transition tree t next u events)
    (hsecond : Transition next u last v later) :
    Transition tree t last v (events ++ later) where
  sound := hsecond.sound
  continues := hfirst.continues.trans hsecond.continues
  alters := hfirst.alters.append hsecond.alters

theorem created (hsound : tree.Sound t) (degree : Nat) :
    Transition tree t tree t [.created degree] where
  sound := hsound
  continues := ⟨rfl, rfl, .refl tree.pages⟩
  alters := ⟨_, .created, rfl⟩

/-- A report of the counters changes nothing. -/
theorem reportStats (hsound : tree.Sound t) :
    Transition tree t tree t [tree.reportStats] where
  sound := hsound
  continues := ⟨rfl, rfl, .refl tree.pages⟩
  alters := ⟨_, .statsReport, rfl⟩

end Transition

namespace Sound

variable {tree : Tree V} {t : Subtree V}

/-- An insertion, made or refused, is a transition.  An event at the root names
the height that the tree has afterwards. -/
theorem exists_insert (hsound : tree.Sound t) (key : Key) (value : V) :
    ∃ outcome u, tree.insert key value = .ok outcome ∧
      Transition tree t outcome.tree u outcome.events ∧
      Event.NameHeight outcome.events outcome.tree.height := by
  cases hlookup : t.entries.lookup key with
  | some found =>
      have hpresent : (t.entries.lookup key).isSome :=
        Option.isSome_iff_exists.mpr ⟨found, hlookup⟩
      exact ⟨_, t, hsound.insert_present hpresent value, .refl hsound,
        Event.nameHeight_nil _⟩
  | none =>
      obtain ⟨context, page, contents, bounds, settled, next, hleads, hsettled,
        hinsert, hnext, hcontinues, _⟩ :=
        hsound.exists_insert_absent hlookup value
      have habsent := (hleads.get?_eq hsound.wellFormed.fits).trans hlookup
      have hheight : settled.height = next.height := by
        have hwellFormed := splitUp_wellFormed hsound.valid hleads.outer
          (hleads.insert_fits habsent value) (hleads.insert_swollen value)
          tree.pages.size
        rw [← hsettled] at hwellFormed
        exact hwellFormed.fits.height_unique hnext.wellFormed.fits
      have halters := splitUp_alterAll tree.config tree.height context
        tree.pages.size (.leaf page (contents.insert key value))
      have hnames := splitUp_nameHeight tree.config tree.height context
        tree.pages.size (.leaf page (contents.insert key value))
      rw [← hsettled, hheight] at halters hnames
      rw [extent_plug_leaf context _ contents, ← hleads.plug] at halters
      exact ⟨_, _, hinsert, ⟨hnext, hcontinues, halters⟩, hnames⟩

theorem exists_remove (hsound : tree.Sound t) (key : Key) :
    ∃ outcome u, tree.remove key = .ok outcome ∧
      Transition tree t outcome.tree u outcome.events ∧
      Event.NameHeight outcome.events outcome.tree.height := by
  cases hlookup : t.entries.lookup key with
  | none =>
      exact ⟨_, t, hsound.remove_absent hlookup, .refl hsound,
        Event.nameHeight_nil _⟩
  | some value =>
      obtain ⟨context, page, contents, bounds, settled, next, hleads, hsettled,
        hremove, hnext, hcontinues, _⟩ := hsound.exists_remove_present hlookup
      have hpresent := (hleads.get?_eq hsound.wellFormed.fits).trans hlookup
      have hshrunk := hleads.erase_shrunk hpresent
      have hheight : settled.height = next.height := by
        have hwellFormed := (repairUp_correct hsound.valid hleads.outer
          hleads.erase_fits hshrunk).1
        rw [← hsettled] at hwellFormed
        exact hwellFormed.fits.height_unique hnext.wellFormed.fits
      obtain ⟨halters, hnames⟩ := repairUp_alterAll hsound.valid hleads.outer
        hleads.erase_fits hshrunk
      rw [← hsettled, hheight] at halters hnames
      rw [extent_plug_leaf context _ contents, ← hleads.plug] at halters
      exact ⟨_, _, hremove, ⟨hnext, hcontinues, halters⟩, hnames⟩

theorem exists_insertAll (hsound : tree.Sound t) (entries : List (Key × V)) :
    ∃ outcome u, tree.insertAll entries = .ok outcome ∧
      Transition tree t outcome.tree u outcome.events := by
  induction entries generalizing tree t with
  | nil => exact ⟨_, t, rfl, .refl hsound⟩
  | cons e rest ih =>
      obtain ⟨first, u, hinsert, hfirst, _⟩ := hsound.exists_insert e.1 e.2
      obtain ⟨others, last, hrest, hlast⟩ := ih hfirst.sound
      refine ⟨⟨others.result.count first.result.isOk, others.tree,
        first.events ++ others.events⟩, last, ?_, hfirst.trans hlast⟩
      rw [insertAll, hinsert]
      simp only [bind, Except.bind, hrest]
      rfl

theorem exists_removeAll (hsound : tree.Sound t) (keys : List Key) :
    ∃ outcome u, tree.removeAll keys = .ok outcome ∧
      Transition tree t outcome.tree u outcome.events := by
  induction keys generalizing tree t with
  | nil => exact ⟨_, t, rfl, .refl hsound⟩
  | cons key rest ih =>
      obtain ⟨first, u, hremove, hfirst, _⟩ := hsound.exists_remove key
      obtain ⟨others, last, hrest, hlast⟩ := ih hfirst.sound
      refine ⟨⟨others.result.count first.result.isOk, others.tree,
        first.events ++ others.events⟩, last, ?_, hfirst.trans hlast⟩
      rw [removeAll, hremove]
      simp only [bind, Except.bind, hrest]
      rfl

end Sound

end Tree

end LatchTree

import LatchTree.Proofs.Session.Safety
import LatchTree.Proofs.Tree.Counters

/-!
# The accounts of a session

Seven counters are kept, one for each kind of change, and one more for the pages
in use.  Every event is counted under the kind that its message and its fields
name.  Since every event also stands for one change of the extent, the counters
determine the height of the tree and the number of its pages of each kind, at
the end of any run and at every event on the way.
-/

namespace LatchTree

open Subtree

variable {V : Type}

namespace Event

/-- An event at the root has this height in its fields. -/
def CarriesHeight (event : Event) (height : Nat) : Prop :=
  event.isCounted .rootSplit ∨ event.isCounted .rootCollapse →
    ("height", .count height) ∈ event.fields

theorem NameHeight.carries {events : List Event} {height : Nat}
    (hnames : NameHeight events height) {event : Event}
    (hevent : event ∈ events) : event.CarriesHeight height := by
  intro hroot
  cases event with
  | rootSplit named separator =>
      rw [← hnames _ hevent named rfl]
      exact List.mem_cons_self
  | rootCollapsed named =>
      rw [← hnames _ hevent named rfl]
      exact List.mem_cons_self
  | _ => simp [isCounted, Counted.message, message] at hroot

end Event

namespace Stats

/-- The counters agree with the extent.  The equations are written as sums, so
nothing is ever taken from less. -/
structure Balanced (stats : Stats) (extent : Extent) : Prop where
  height : extent.height + stats.rootCollapses = 1 + stats.rootSplits
  leaves : extent.pages .leaf + stats.leafMerges = 1 + stats.leafSplits
  branches :
    extent.pages .branch + stats.branchMerges + stats.rootCollapses =
      stats.branchSplits + stats.rootSplits
  livePages : stats.livePages = extent.pages .leaf + extent.pages .branch

namespace Balanced

theorem of_new (config : Config) :
    (Tree.empty config : Tree V).stats.Balanced
      ((Subtree.leaf 0 ({} : Leaf V)).extent 1) :=
  ⟨rfl, rfl, rfl, rfl⟩

theorem record {stats : Stats} {event : Event} {first last : Extent}
    (hbalanced : stats.Balanced first) (halters : event.Alters first last) :
    (stats.record event).Balanced last := by
  obtain ⟨hheight, hleaves, hbranches, hlive⟩ := hbalanced
  cases halters with
  | @pageSplit kind _ _ extent =>
      cases kind <;> constructor <;>
        simp [Stats.record, countAllocated, countSplit, Extent.withPage] <;>
        omega
  | @rootSplit _ _ extent =>
      constructor <;>
        simp [Stats.record, countAllocated, countRootSplit, Extent.withRoot,
          Extent.withPage] <;>
        omega
  | @merge kind _ _ extent =>
      cases kind <;>
        simp [Extent.withPage] at hheight hleaves hbranches hlive <;>
        constructor <;>
        simp [Stats.record, countRetired, countMerge] <;>
        omega
  | @rootCollapsed _ extent =>
      simp [Extent.withRoot, Extent.withPage]
        at hheight hleaves hbranches hlive
      constructor <;>
        simp [Stats.record, countRetired, countRootCollapse] <;>
        omega
  | _ => exact ⟨hheight, hleaves, hbranches, hlive⟩

theorem recordAll {events : List Event} {stats : Stats} {first last : Extent}
    (hbalanced : stats.Balanced first)
    (halters : Event.AlterAll events first last) :
    (events.foldl Stats.record stats).Balanced last := by
  induction events generalizing stats first with
  | nil =>
      cases halters
      exact hbalanced
  | cons event rest ih =>
      obtain ⟨mid, hevent, hrest⟩ := halters
      exact ih (hbalanced.record hevent) hrest

end Balanced

/-- On the way, too, the counters balance after each event, and an event at the
root names the height at that point. -/
theorem exists_balanced {events : List Event} {stats : Stats}
    {first last : Extent} (hbalanced : stats.Balanced first)
    (halters : Event.AlterAll events first last) {before after : List Event}
    {event : Event} (hevents : events = before ++ event :: after) :
    ∃ extent, ((before ++ [event]).foldl record stats).Balanced extent ∧
      event.CarriesHeight extent.height := by
  rw [hevents] at halters
  obtain ⟨mid, hbefore, next, hevent, _⟩ := halters.exists_mid
  have hone : Event.AlterAll [event] mid next := ⟨next, hevent, rfl⟩
  exact ⟨next, hbalanced.recordAll (hbefore.append hone),
    hevent.nameHeight.carries List.mem_cons_self⟩

end Stats

namespace Session

/-- The accounts of a session over the events since its tree was built. -/
structure Accounts (session : Session V) (events : List Event)
    (t : Subtree V) : Prop where
  stored : session.tree.subtree = .ok t
  distinct : t.pages.Nodup
  counters : ∀ counted : Counted, counted.counter session.tree.stats =
    events.countP (·.isCounted counted)
  balanced : session.tree.stats.Balanced (t.extent session.tree.height)
  /-- The counters up to any event balance as well. -/
  underWay : ∀ before event after, events = before ++ event :: after →
    ∃ extent, Stats.Balanced ((before ++ [event]).foldl Stats.record
        (Tree.empty session.tree.config : Tree V).stats) extent ∧
      event.CarriesHeight extent.height
  insertAtRoot : ∀ key value outcome,
    session.tree.insert key value = .ok outcome →
      ∀ event ∈ outcome.events, event.CarriesHeight outcome.tree.height
  removeAtRoot : ∀ key outcome, session.tree.remove key = .ok outcome →
    ∀ event ∈ outcome.events, event.CarriesHeight outcome.tree.height

theorem Sound.accounts {session : Session V} {t : Subtree V}
    {events : List Event} {built : Tree V} {new : Subtree V}
    (hsession : session.Sound t)
    (hrun : Tree.Transition built new session.tree t events)
    (hbuilt : built.stats = (Tree.empty session.tree.config : Tree V).stats)
    (hnew : built.stats.Balanced (new.extent built.height))
    (hzero : ∀ counted : Counted, counted.counter built.stats = 0) :
    session.Accounts events t where
  stored := hsession.tree.subtree_eq
  distinct := hsession.tree.stores.holds.nodup
  counters := fun counted => by
    rw [hrun.continues.stats, Stats.counter_recordAll, hzero, Nat.zero_add]
  balanced := by
    rw [hrun.continues.stats]
    exact hnew.recordAll hrun.alters
  underWay := fun before event after hevents => by
    rw [← hbuilt]
    exact Stats.exists_balanced hnew hrun.alters hevents
  insertAtRoot := fun key value outcome hinsert event hevent => by
    obtain ⟨_, _, hsame, _, hnames⟩ := hsession.tree.exists_insert key value
    cases hsame.symm.trans hinsert
    exact hnames.carries hevent
  removeAtRoot := fun key outcome hremove event hevent => by
    obtain ⟨_, _, hsame, _, hnames⟩ := hsession.tree.exists_remove key
    cases hsame.symm.trans hremove
    exact hnames.carries hevent

/-- Whatever a session over a new tree is asked, its accounts balance.  Its
height is one more than the root splits less the root collapses; its leaves are
one more than the leaf splits less the leaf merges; its branches are the branch
splits and root splits less the branch merges and root collapses; the counter of
live pages is the sum of both.  Each counter of changes is the number of events
of its kind, and each event at the root carries the height of the tree right
after it. -/
theorem accounts_balance {config : Config} {built : Outcome V Unit}
    (hbuilt : Tree.withConfig config = .ok built)
    (requests : List (Request V)) :
    ∃ responses t,
      Session.respondAll ⟨built.tree, []⟩ requests = .ok responses ∧
        (Session.after ⟨built.tree, []⟩ responses).Accounts
          (built.events ++ responses.flatMap (·.events)) t := by
  obtain ⟨_, hconfig, hresult⟩ := exists_of_bind_eq_ok hbuilt
  have hvalid := Config.validate_eq_ok_iff.mp hconfig
  cases hresult
  have hsound : Session.Sound ⟨Tree.empty config, []⟩ (.leaf 0 ({} : Leaf V)) :=
    sound_new hvalid
  obtain ⟨responses, t, hrespond, hlast, hrun⟩ :=
    hsound.exists_respondAll requests
  have hbuild := Tree.Transition.created hsound.tree config.degree
  refine ⟨responses, t, hrespond, hlast.accounts (hbuild.trans hrun) ?_ ?_ ?_⟩
  · rw [hrun.continues.config]
    rfl
  · exact Stats.Balanced.of_new config
  · intro counted
    cases counted with
    | split kind => cases kind <;> rfl
    | merge kind => cases kind <;> rfl
    | _ => rfl

/-- A split of the root, a borrow, a merge and a collapse of the root. -/
theorem accounts_balance_after_collapse :
    Tree.withConfig { degree := 3 } =
        .ok (Tree.build { degree := 3 } : Outcome Char Unit) ∧
      ∃ responses t,
        Session.respondAll ⟨Tree.empty { degree := 3 }, []⟩
            [.insert 1 'a', .insert 2 'b', .insert 3 'c', .insert 4 'd',
              .insert 5 'e', .remove 1, .remove 2] = .ok responses ∧
          responses.flatMap (·.events) =
            [.pageSplit .leaf 2 3, .rootSplit 2 3,
              .rebalanced .leaf .right .borrow 2,
              .rebalanced .leaf .right .merge 1, .rootCollapsed 1] ∧
          (Session.after ⟨Tree.empty { degree := 3 }, []⟩ responses).Accounts
            (.created 3 :: responses.flatMap (·.events)) t := by
  have hbuilt : Tree.withConfig { degree := 3 } =
      .ok (Tree.build { degree := 3 } : Outcome Char Unit) := rfl
  obtain ⟨responses, t, hrespond, haccounts⟩ := accounts_balance hbuilt
    [.insert 1 'a', .insert 2 'b', .insert 3 'c', .insert 4 'd', .insert 5 'e',
      .remove 1, .remove 2]
  have hevents : (Session.respondAll ⟨Tree.empty { degree := 3 }, []⟩
      [.insert 1 'a', .insert 2 'b', .insert 3 'c', .insert 4 'd',
        .insert 5 'e', .remove 1, .remove 2]).map
        (fun responses => responses.flatMap (·.events)) =
      .ok [.pageSplit .leaf 2 3, .rootSplit 2 3,
        .rebalanced .leaf .right .borrow 2,
        .rebalanced .leaf .right .merge 1, .rootCollapsed 1] := by
    decide +kernel
  have hrun : Session.respondAll ⟨Tree.empty { degree := 3 }, []⟩
      [.insert 1 'a', .insert 2 'b', .insert 3 'c', .insert 4 'd',
        .insert 5 'e', .remove 1, .remove 2] = .ok responses := hrespond
  rw [hrun, Except.map, Except.ok.injEq] at hevents
  exact ⟨hbuilt, responses, t, hrun, hevents, haccounts⟩

end Session

end LatchTree

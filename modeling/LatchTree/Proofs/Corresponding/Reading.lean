import LatchTree.Scan.Basic
import LatchTree.Tree.Bulk
import LatchTree.Proofs.Corresponding.Table

/-!
# Reading corresponding trees

A descent for a key and a descent for its image take the same path through
corresponding trees.  So lookups give the same answers, and walks and scans that
begin at corresponding keys visit the same leaves and yield corresponding
entries.
-/

namespace LatchTree

variable {V : Type} {g : KeyMap}

def TreeError.mapKeys (g : KeyMap) : TreeError → TreeError
  | .alreadyExists key => .alreadyExists (g key)
  | .notFound key => .notFound (g key)
  | .invalidDegree degree => .invalidDegree degree

theorem TreeError.mapKeys_identity (error : TreeError) :
    error.mapKeys .identity = error := by
  cases error <;> rfl

/-- A refusal names the image of the key. -/
def MapsResult {α : Type} (g : KeyMap) (first second : Except TreeError α) :
    Prop :=
  second = first.mapError (TreeError.mapKeys g)

theorem MapsResult.isOk_eq {α : Type} {first second : Except TreeError α}
    (hresult : MapsResult g first second) : first.isOk = second.isOk := by
  cases hresult
  cases first <;> rfl

namespace Tree.Corresponds

variable {first second : Tree V}

/-! ## Descents -/

section Key

variable {key other : Key}

theorem heldLinks_eq (htree : first.Corresponds g second) (access : Access)
    {left right : Node V} (hnode : left.Corresponds g right) (link : Link)
    (above : List Link) :
    first.heldLinks access left link above =
      second.heldLinks access right link above := by
  unfold heldLinks
  rw [htree.config, hnode.isSafe_eq]

theorem descendFrom (htree : first.Corresponds g second)
    (hkey : g.Maps key other) (access : Access) (fuel : Nat) (page : PageId)
    (slot : Nat) (above : List Link) :
    Follows Eq (first.descendFrom key access fuel page slot above)
      (second.descendFrom other access fuel page slot above) := by
  induction fuel generalizing page slot above with
  | zero => exact .error _ _
  | succ fuel ih =>
      rw [Tree.descendFrom, Tree.descendFrom]
      refine (htree.pages.node page).bind fun left right hnode => ?_
      simp only [htree.heldLinks_eq access hnode]
      cases hnode with
      | leaf hleaf => exact .ok rfl
      | branch hbranch =>
          simp only [hbranch.slotFor_eq hkey, hbranch.child_eq]
          exact .bind_same _ fun child _ => ih child _ _

theorem descend (htree : first.Corresponds g second) (hkey : g.Maps key other)
    (access : Access) :
    Follows Eq (first.descend key access) (second.descend other access) := by
  unfold Tree.descend
  rw [htree.pages.size_eq, htree.root]
  refine (htree.descendFrom hkey access _ _ _ _).bind ?_
  rintro links _ rfl
  exact .ok rfl

theorem leafFor (htree : first.Corresponds g second)
    (hkey : g.Maps key other) :
    Follows (fun a b => a.1 = b.1 ∧ a.2.Corresponds g b.2)
      (first.leafFor key) (second.leafFor other) := by
  unfold Tree.leafFor
  refine (htree.descend hkey .read).bind ?_
  rintro path _ rfl
  refine .bind_same _ fun page _ => ?_
  exact (htree.pages.leaf page).bind fun _ _ hleaf => .ok ⟨rfl, hleaf⟩

theorem get? (htree : first.Corresponds g second) (hkey : g.Maps key other) :
    Follows Eq (first.get? key) (second.get? other) := by
  unfold Tree.get?
  exact (htree.leafFor hkey).bind fun _ _ hleaf =>
    .ok (hleaf.2.get?_eq hkey)

theorem contains (htree : first.Corresponds g second)
    (hkey : g.Maps key other) :
    Follows Eq (first.contains key) (second.contains other) := by
  unfold Tree.contains
  exact (htree.get? hkey).bind fun _ _ hfound =>
    .ok (congrArg Option.isSome hfound)

theorem lookup (htree : first.Corresponds g second) (hkey : g.Maps key other) :
    Follows (MapsResult g) (first.lookup key) (second.lookup other) := by
  unfold Tree.lookup
  refine (htree.get? hkey).bind ?_
  rintro found _ rfl
  cases found with
  | none => exact .ok (by rw [hkey.image]; rfl)
  | some value => exact .ok rfl

theorem containsAll (htree : first.Corresponds g second) {keys others : List Key}
    (hkeys : List.Forall₂ g.Maps keys others) :
    Follows Eq (first.containsAll keys) (second.containsAll others) := by
  induction hkeys with
  | nil => exact .ok rfl
  | cons hkey _ ih =>
      rw [Tree.containsAll, Tree.containsAll]
      refine (htree.contains hkey).bind ?_
      rintro found _ rfl
      exact ih.bind fun _ _ hmore => .ok (congrArg (Tally.count · found) hmore)

end Key

end Tree.Corresponds

/-! ## Walks and scans -/

structure Walk.Corresponds (g : KeyMap) (walk other : Walk) : Prop where
  cursor : walk.cursor = other.cursor
  lower : g.Maps walk.lower other.lower

structure Visit.Corresponds (g : KeyMap) (visit other : Visit V) : Prop where
  page : visit.page = other.page
  descended : visit.descended = other.descended
  entries : List.Forall₂ g.MapsEntry visit.entries other.entries
  next : visit.next = other.next
  high : Option.Rel g.Maps visit.high other.high

structure Scan.Corresponds (g : KeyMap) (scan other : Scan V) : Prop where
  walk : scan.walk.Corresponds g other.walk
  buffer : List.Forall₂ g.MapsEntry scan.buffer other.buffer

theorem Walk.corresponds_start {key other : Key} (hkey : g.Maps key other) :
    (Walk.start key).Corresponds g (.start other) :=
  ⟨rfl, hkey⟩

theorem Scan.corresponds_start {key other : Key} (hkey : g.Maps key other) :
    (Scan.start key : Scan V).Corresponds g (.start other) :=
  ⟨Walk.corresponds_start hkey, .nil⟩

namespace Walk.Corresponds

variable {first second : Tree V} {walk other : Walk}

theorem after (hwalk : walk.Corresponds g other) {visit later : Visit V}
    (hvisit : visit.Corresponds g later) :
    (walk.after visit).Corresponds g (other.after later) := by
  have hnext := hvisit.next
  have hhigh := hvisit.high
  unfold Walk.after
  rw [hnext]
  generalize visit.high = high at hhigh ⊢
  generalize later.high = otherHigh at hhigh ⊢
  cases hhigh with
  | none => exact ⟨rfl, hwalk.lower⟩
  | some hhigh =>
      cases later.next with
      | none => exact ⟨rfl, hwalk.lower⟩
      | some next => exact ⟨rfl, hwalk.lower.max hhigh⟩

theorem visit (hwalk : walk.Corresponds g other)
    (htree : first.Corresponds g second) (page : PageId) (descended : Bool)
    {left right : Leaf V} (hleaf : left.Corresponds g right) :
    (walk.visit first page descended left).Corresponds g
      (other.visit second page descended right) where
  page := rfl
  descended := rfl
  entries := hleaf.entriesFrom hwalk.lower
  next := htree.pages.next?_eq page
  high := hleaf.high

theorem seekLeaf (hwalk : walk.Corresponds g other)
    (htree : first.Corresponds g second) :
    Follows (Visit.Corresponds g) (walk.seekLeaf first)
      (other.seekLeaf second) := by
  unfold Walk.seekLeaf
  refine (htree.leafFor hwalk.lower).bind ?_
  rintro ⟨page, leaf⟩ ⟨_, otherLeaf⟩ ⟨rfl, hleaf⟩
  exact .ok (hwalk.visit htree page true hleaf)

/-- Both walks trust the leaf that they remember, or both descend. -/
theorem nextVisit? (hwalk : walk.Corresponds g other)
    (htree : first.Corresponds g second) :
    Follows (Option.Rel (Visit.Corresponds g)) (walk.nextVisit? first)
      (other.nextVisit? second) := by
  have hseek : Follows (Option.Rel (Visit.Corresponds g))
      (do return some (← walk.seekLeaf first))
      (do return some (← other.seekLeaf second)) :=
    (hwalk.seekLeaf htree).bind fun _ _ hvisit => .ok (.some hvisit)
  unfold Walk.nextVisit?
  rw [hwalk.cursor]
  cases other.cursor with
  | finished => exact .ok .none
  | seek => exact hseek
  | leaf id =>
      refine (htree.pages.page id).bind fun page otherPage hpage => ?_
      refine (htree.pages.leaf id).bind fun leaf otherLeaf hleaf => ?_
      have hbelow : decide (walk.lower < leaf.low) =
          decide (other.lower < otherLeaf.low) :=
        decide_eq_decide.mpr (hleaf.low.lt_iff hwalk.lower)
      rw [hpage.retired, hbelow]
      split
      · exact hseek
      · exact .ok (.some (hwalk.visit htree id false hleaf))

theorem visitsWithin (hwalk : walk.Corresponds g other)
    (htree : first.Corresponds g second) (fuel : Nat) :
    Follows (List.Forall₂ (Visit.Corresponds g))
      (Walk.visitsWithin first fuel walk)
      (Walk.visitsWithin second fuel other) := by
  induction fuel generalizing walk other with
  | zero => exact .error _ _
  | succ fuel ih =>
      rw [Walk.visitsWithin, Walk.visitsWithin]
      refine (hwalk.nextVisit? htree).bind fun visit? later? hvisit => ?_
      cases hvisit with
      | none => exact .ok .nil
      | some hvisit =>
          exact (ih (hwalk.after hvisit)).bind fun _ _ hrest =>
            .ok (.cons hvisit hrest)

end Walk.Corresponds

namespace Scan.Corresponds

variable {first second : Tree V} {scan other : Scan V}

theorem fillWithin (hscan : scan.Corresponds g other)
    (htree : first.Corresponds g second) (fuel : Nat) :
    Follows (fun a b => a.2.Corresponds g b.2)
      (Scan.fillWithin first fuel scan)
      (Scan.fillWithin second fuel other) := by
  induction fuel generalizing scan other with
  | zero => exact .error _ _
  | succ fuel ih =>
      rw [Scan.fillWithin, Scan.fillWithin, isEmpty_eq_of_forall₂ hscan.buffer]
      split
      · refine (hscan.walk.nextVisit? htree).bind fun visit? later? hvisit => ?_
        cases hvisit with
        | none => exact .ok hscan
        | some hvisit =>
            refine Follows.bind (ih ?_) fun _ _ hrest => .ok hrest
            exact ⟨hscan.walk.after hvisit, hvisit.entries⟩
      · exact .ok hscan

theorem next (hscan : scan.Corresponds g other)
    (htree : first.Corresponds g second) :
    Follows (fun a b => Option.Rel g.MapsEntry a.1 b.1 ∧ a.2.Corresponds g b.2)
      (scan.next first) (other.next second) := by
  unfold Scan.next Scan.fill
  rw [htree.pages.size_eq]
  refine (hscan.fillWithin htree _).bind ?_
  rintro ⟨visits, filled⟩ ⟨laters, otherFilled⟩ ⟨hwalk, hbuffer⟩
  obtain ⟨walk, buffer⟩ := filled
  obtain ⟨otherWalk, otherBuffer⟩ := otherFilled
  cases hbuffer with
  | nil => exact .ok ⟨.none, hwalk, .nil⟩
  | cons hentry hrest => exact .ok ⟨.some hentry, hwalk, hrest⟩

theorem take (hscan : scan.Corresponds g other)
    (htree : first.Corresponds g second) (count : Nat) :
    Follows
      (fun a b => List.Forall₂ g.MapsEntry a.1 b.1 ∧ a.2.Corresponds g b.2)
      (Scan.take first count scan) (Scan.take second count other) := by
  induction count generalizing scan other with
  | zero => exact .ok ⟨.nil, hscan⟩
  | succ count ih =>
      rw [Scan.take, Scan.take]
      refine (hscan.next htree).bind ?_
      rintro ⟨entry, scan⟩ ⟨otherEntry, other⟩ ⟨hentry, hlater⟩
      cases hentry with
      | none => exact .ok ⟨.nil, hlater⟩
      | some hentry =>
          exact (ih hlater).bind fun _ _ hrest =>
            .ok ⟨.cons hentry hrest.1, hrest.2⟩

end Scan.Corresponds

namespace Tree.Corresponds

variable {first second : Tree V} {start other : Key}

theorem entriesFrom (htree : first.Corresponds g second)
    (hstart : g.Maps start other) :
    Follows (List.Forall₂ g.MapsEntry) (first.entriesFrom start)
      (second.entriesFrom other) := by
  unfold Tree.entriesFrom Scan.drain
  exact ((Scan.corresponds_start hstart).take htree _).bind
    fun _ _ htaken => .ok htaken.1

theorem range (htree : first.Corresponds g second)
    (hstart : g.Maps start other) (count : Nat) :
    Follows Eq (first.range start count) (second.range other count) := by
  unfold Tree.range
  refine ((Scan.corresponds_start hstart).take htree count).bind ?_
  rintro ⟨entries, scan⟩ ⟨others, otherScan⟩ ⟨hentries, _⟩
  have hvalues : List.Forall₂ Eq (entries.map (·.2)) (others.map (·.2)) :=
    List.rel_map (fun _ _ hentry => hentry.content) hentries
  exact .ok (List.forall₂_eq_eq_eq ▸ hvalues)

/-- A walk through the whole tree begins at the key 0, so here the map has to
send it to itself. -/
theorem size (htree : first.Corresponds g second) (hzero : g.Maps 0 0) :
    Follows Eq first.size second.size := by
  unfold Tree.size Walk.visits
  rw [htree.pages.size_eq]
  refine ((Walk.corresponds_start hzero).visitsWithin htree _).bind
    fun visits others hvisits => .ok ?_
  exact (List.rel_flatMap hvisits fun _ _ hvisit => hvisit.entries).length_eq

theorem isEmpty (htree : first.Corresponds g second) (hzero : g.Maps 0 0) :
    Follows Eq first.isEmpty second.isEmpty := by
  unfold Tree.isEmpty
  refine ((Scan.corresponds_start hzero).next htree).bind ?_
  rintro ⟨entry, scan⟩ ⟨other, otherScan⟩ ⟨hentry, _⟩
  cases hentry with
  | none => exact .ok rfl
  | some => exact .ok rfl

end Tree.Corresponds

end LatchTree

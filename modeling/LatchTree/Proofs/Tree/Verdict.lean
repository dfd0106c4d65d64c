import LatchTree.Proofs.Scan.Rest
import LatchTree.Proofs.Tree.Audit

/-!
# What an audit finds out

The audit is run on any table of pages, whatever made it.  If it finds no
violation, the pages below the root are those of one well-formed subtree.  Two
branches never share a page: every page below the root holds entries or leads to
some, and a shared page would put the same entry on both sides of a separator.
So whoever reads the tree reads that subtree.
-/

namespace LatchTree

open Subtree

variable {V : Type}

/-! ## Single checks -/

theorem Violation.of_unlessHolds {violation : Violation} {condition : Bool}
    (hcheck : violation.unlessHolds condition = .ok ()) : condition = true := by
  unfold unlessHolds at hcheck
  split at hcheck
  · assumption
  · cases hcheck

theorem Key.pairwise_of_ascending {keys : List Key}
    (hkeys : Key.ascending keys = true) : keys.Pairwise (· < ·) := by
  rw [← List.isChain_iff_pairwise]
  induction keys with
  | nil => exact .nil
  | cons a rest ih =>
      cases rest with
      | nil => exact .singleton a
      | cons b rest =>
          rw [Key.ascending, Bool.and_eq_true, decide_eq_true_eq] at hkeys
          exact .cons_cons hkeys.1 (ih hkeys.2)

theorem Bounds.admits_of_checks {bounds : Bounds} {key : Key}
    (hbelow : bounds.admitsBelow key = true)
    (habove : bounds.admitsAbove key = true) : bounds.Admits key where
  lower := fun lower hlower => by
    rw [admitsBelow, Option.mem_def.mp hlower] at hbelow
    exact of_decide_eq_true hbelow
  upper := fun upper hupper => by
    rw [admitsAbove, Option.mem_def.mp hupper] at habove
    exact of_decide_eq_true habove

theorem Config.Valid.leastSize_branch_pos {config : Config}
    (hvalid : config.Valid) (isRoot : Bool) :
    0 < config.leastSize isRoot .branch := by
  have hleast := (hvalid.minSize_bounds .branch).2.2
  cases isRoot with
  | true => exact Nat.two_pos
  | false => exact Nat.lt_of_lt_of_le Nat.two_pos hleast

namespace Tree

variable {tree : Tree V}

theorem sized_of_auditSize {id : PageId} {node : Node V} {isRoot : Bool}
    (hcheck : tree.auditSize id node isRoot = .ok ()) :
    tree.config.leastSize isRoot node.kind ≤ node.size ∧
      node.size ≤ tree.config.capacity node.kind := by
  obtain ⟨_, hmost, hleast⟩ := exists_of_bind_eq_ok hcheck
  have hleast := of_decide_eq_true (Violation.of_unlessHolds hleast)
  refine ⟨Nat.le_trans (Nat.le_of_eq ?_) hleast,
    of_decide_eq_true (Violation.of_unlessHolds hmost)⟩
  cases isRoot <;> cases node <;> rfl

theorem admits_of_auditKeys {id : PageId} {keys : List Key} {bounds : Bounds}
    (hcheck : auditKeys id keys bounds = .ok ()) :
    keys.Pairwise (· < ·) ∧ ∀ key ∈ keys, bounds.Admits key := by
  obtain ⟨_, hsorted, hcheck⟩ := exists_of_bind_eq_ok hcheck
  obtain ⟨_, hbelow, habove⟩ := exists_of_bind_eq_ok hcheck
  have hbelow := List.all_eq_true.mp (Violation.of_unlessHolds hbelow)
  have habove := List.all_eq_true.mp (Violation.of_unlessHolds habove)
  exact ⟨Key.pairwise_of_ascending (Violation.of_unlessHolds hsorted),
    fun key hkey => Bounds.admits_of_checks (hbelow key hkey) (habove key hkey)⟩

theorem liveNode?_of_checks {id : PageId} {page : Page V}
    (hpage : (tree.pages.page id).mapError Violation.damaged = .ok page)
    (hlive : (Violation.retiredPage id).unlessHolds (!page.retired) = .ok ()) :
    tree.pages.liveNode? id = some page.node := by
  have hretired : page.retired = false := by
    simpa using Violation.of_unlessHolds hlive
  refine PageTable.liveNode?_eq_some_iff.mpr ⟨page, ?_, hretired, rfl⟩
  unfold PageTable.page at hpage
  cases hfound : tree.pages.page? id with
  | none =>
      rw [hfound] at hpage
      cases hpage
  | some found =>
      rw [hfound] at hpage
      cases hpage
      rfl

theorem linked_of_auditChain {before : Option PageId} {ids : List PageId}
    (hcheck : tree.auditChain before ids = .ok ()) :
    tree.pages.Linked before ids none := by
  induction ids generalizing before with
  | nil => trivial
  | cons id rest ih =>
      obtain ⟨_, hprev, hcheck⟩ := exists_of_bind_eq_ok hcheck
      obtain ⟨_, hnext, hrest⟩ := exists_of_bind_eq_ok hcheck
      have hnext := of_decide_eq_true (Violation.of_unlessHolds hnext)
      refine ⟨of_decide_eq_true (Violation.of_unlessHolds hprev), ?_, ih hrest⟩
      rw [hnext, Option.or_none]

/-! ## Pages -/

/-- What the audit of a page finds out about the subtree below it. -/
structure Audited (tree : Tree V) (height : Nat) (isRoot : Bool)
    (bounds : Bounds) (t : Subtree V) : Prop where
  fits : t.Fits tree.config height bounds
  sized : t.Sized tree.config isRoot
  carries : tree.pages.Carries t.cells

theorem exists_children {height : Nat} {entries : List (Key × PageId)}
    (hchild : ∀ id bounds census,
      tree.auditPage height id false bounds = .ok census →
        ∃ t : Subtree V, t.page = id ∧ t.census = census ∧
          tree.Audited height false bounds t)
    {bounds : Bounds} {censuses : List Census}
    (haudit : (Branch.boundsFrom bounds entries).mapM
      (fun c => tree.auditPage height c.1 false c.2) = .ok censuses) :
    ∃ children : List (Key × Subtree V), slots children = entries ∧
      (Subtree.childBounds bounds children).map (·.2.census) = censuses ∧
        ∀ c ∈ Subtree.childBounds bounds children,
          tree.Audited height false c.1 c.2 := by
  induction entries generalizing bounds censuses with
  | nil =>
      cases haudit
      exact ⟨[], rfl, rfl, by simp [Subtree.childBounds]⟩
  | cons first rest ih =>
      obtain ⟨key, id⟩ := first
      cases rest with
      | nil =>
          rw [Branch.boundsFrom, List.mapM_cons] at haudit
          obtain ⟨census, hcensus, haudit⟩ := exists_of_bind_eq_ok haudit
          obtain ⟨t, rfl, rfl, ht⟩ := hchild id bounds census hcensus
          cases haudit
          refine ⟨[(key, t)], rfl, rfl, ?_⟩
          simpa [Subtree.childBounds] using ht
      | cons second rest =>
          obtain ⟨separator, next⟩ := second
          rw [Branch.boundsFrom, List.mapM_cons] at haudit
          obtain ⟨census, hcensus, haudit⟩ := exists_of_bind_eq_ok haudit
          obtain ⟨others, hothers, haudit⟩ := exists_of_bind_eq_ok haudit
          obtain ⟨t, rfl, rfl, ht⟩ := hchild id _ census hcensus
          obtain ⟨children, hslots, rfl, hchildren⟩ := ih hothers
          cases haudit
          cases children with
          | nil => cases hslots
          | cons e children =>
              obtain ⟨key', child⟩ := e
              rw [slots_cons, List.cons.injEq, Prod.mk.injEq] at hslots
              obtain ⟨⟨rfl, rfl⟩, rfl⟩ := hslots
              refine ⟨(key, t) :: (key', child) :: children, rfl, rfl, ?_⟩
              rw [Subtree.childBounds]
              exact List.forall_mem_cons.mpr ⟨ht, hchildren⟩

/-- A leaf that passes the audit fits into its bounds.  There is room between the
bounds, for a leaf that is not the root is not empty. -/
theorem fitsIn_of_audit (hvalid : tree.config.Valid) {id : PageId}
    {isRoot : Bool} {bounds : Bounds} {contents : Leaf V}
    (hroot : isRoot = true → bounds.Proper)
    (hsized : (Subtree.leaf id contents).Sized tree.config isRoot)
    (hkeys : auditKeys id contents.keys bounds = .ok ())
    (hlow : contents.low = bounds.lower.getD 0)
    (hhigh : contents.high = bounds.upper) : contents.FitsIn bounds := by
  obtain ⟨hascending, hadmits⟩ := admits_of_auditKeys hkeys
  have hentries : ∀ e ∈ contents.entries, bounds.Admits e.1 :=
    fun e he => hadmits e.1 (List.mem_map_of_mem he)
  refine ⟨?_, List.pairwise_map.mp hascending, hentries, hlow, hhigh⟩
  cases isRoot with
  | true => exact hroot rfl
  | false =>
      have hleast := (hvalid.minSize_bounds .leaf).2.2
      have hpos : 0 < contents.entries.length :=
        Nat.lt_of_lt_of_le Nat.two_pos (Nat.le_trans hleast hsized.1)
      obtain ⟨e, he⟩ := List.exists_mem_of_length_pos hpos
      exact (hentries e he).proper

theorem exists_of_auditPage (hvalid : tree.config.Valid) {height : Nat}
    {id : PageId} {isRoot : Bool} {bounds : Bounds} {census : Census}
    (hroot : isRoot = true → bounds.Proper)
    (haudit : tree.auditPage height id isRoot bounds = .ok census) :
    ∃ t : Subtree V, t.page = id ∧ t.census = census ∧
      tree.Audited height isRoot bounds t := by
  induction height generalizing id isRoot bounds census with
  | zero => cases haudit
  | succ height ih =>
      obtain ⟨page, hpage, haudit⟩ := exists_of_bind_eq_ok haudit
      obtain ⟨_, hlive, haudit⟩ := exists_of_bind_eq_ok haudit
      obtain ⟨_, hsize, haudit⟩ := exists_of_bind_eq_ok haudit
      have hcell := liveNode?_of_checks hpage hlive
      have hsized := sized_of_auditSize hsize
      obtain ⟨node, prev, next, retired⟩ := page
      cases node with
      | leaf contents =>
          obtain ⟨_, hkeys, haudit⟩ := exists_of_bind_eq_ok haudit
          obtain ⟨_, hdepth, haudit⟩ := exists_of_bind_eq_ok haudit
          obtain ⟨_, hlow, haudit⟩ := exists_of_bind_eq_ok haudit
          obtain ⟨_, hhigh, haudit⟩ := exists_of_bind_eq_ok haudit
          have hdepth := of_decide_eq_true (Violation.of_unlessHolds hdepth)
          have hlow := of_decide_eq_true (Violation.of_unlessHolds hlow)
          have hhigh := of_decide_eq_true (Violation.of_unlessHolds hhigh)
          cases haudit
          subst hdepth
          refine ⟨.leaf id contents, rfl, ?_, .leaf ?_, hsized, ?_⟩
          · rw [census, cells_leaf, leafPages_leaf]
            rfl
          · exact fitsIn_of_audit hvalid hroot hsized hkeys hlow hhigh
          · intro other otherNode hmem
            rw [cells_leaf, List.mem_singleton] at hmem
            cases hmem
            exact hcell
      | branch contents =>
          obtain ⟨_, _, haudit⟩ := exists_of_bind_eq_ok haudit
          obtain ⟨_, _, haudit⟩ := exists_of_bind_eq_ok haudit
          obtain ⟨censuses, hbelow, haudit⟩ := exists_of_bind_eq_ok haudit
          obtain ⟨children, hslots, rfl, hchildren⟩ := exists_children
            (fun _ _ _ => ih fun hroot => absurd hroot Bool.false_ne_true) hbelow
          cases haudit
          obtain rfl : contents = ⟨slots children⟩ := by rw [hslots]
          have hcells : ∀ e ∈ children, e.2.Sized tree.config false ∧
              tree.pages.Carries e.2.cells := by
            intro e he
            obtain ⟨inner, hinner⟩ := exists_childBounds bounds he
            have hchild := hchildren _ hinner
            exact ⟨hchild.sized, hchild.carries⟩
          have hne : children ≠ [] := by
            rintro rfl
            exact absurd hsized.1
              (Nat.not_le.mpr (hvalid.leastSize_branch_pos isRoot))
          refine ⟨.branch id children, rfl, ?_, .branch hne ?_ ?_, hsized, ?_⟩
          · exact (census_branch id bounds children).symm
          · exact fun e he => (hcells e he).1
          · exact fun c hc => (hchildren c hc).fits
          · intro other node hmem
            rw [cells_branch, List.mem_cons] at hmem
            rcases hmem with heq | hmem
            · cases heq
              exact hcell
            · obtain ⟨e, he, hmem⟩ := exists_mem_of_cellsOf hmem
              exact (hcells e he).2 other node hmem

end Tree

/-! ## Pages are not shared -/

namespace Subtree

theorem Fits.entries_ne_nil {config : Config} {height : Nat} {bounds : Bounds}
    {t : Subtree V} (hfits : t.Fits config height bounds)
    (hvalid : config.Valid) (hsized : t.Sized config false) :
    t.entries ≠ [] := by
  induction hfits with
  | @leaf bounds page contents hleaf =>
      have hleast := (hvalid.minSize_bounds .leaf).2.2
      have hpos : 0 < contents.entries.length :=
        Nat.lt_of_lt_of_le Nat.two_pos (Nat.le_trans hleast hsized.1)
      rw [entries_leaf]
      exact List.ne_nil_of_length_pos hpos
  | @branch height bounds page children hne hall hchildren ih =>
      obtain ⟨⟨key, child⟩, rest, rfl⟩ := List.exists_cons_of_ne_nil hne
      have hmem : (key, child) ∈ (key, child) :: rest := List.mem_cons_self
      obtain ⟨inner, hinner⟩ := exists_childBounds bounds hmem
      rw [entries_branch, entriesIn_cellsOf_cons]
      exact List.append_ne_nil_of_left_ne_nil (ih _ hinner (hall _ hmem)) _

theorem child_cells_part {children : List (Key × Subtree V)}
    {e : Key × Subtree V} (he : e ∈ children) :
    e.2.cells <:+: cellsOf children := by
  obtain ⟨left, right, rfl⟩ := List.append_of_mem he
  rw [cellsOf_append, cellsOf_cons]
  exact ⟨_, _, List.append_assoc _ _ _⟩

theorem entriesIn_subset_of_part {part whole : List (Cell V)}
    (hpart : part <:+: whole) : Cell.entriesIn part ⊆ Cell.entriesIn whole := by
  obtain ⟨before, after, rfl⟩ := hpart
  rw [Cell.entriesIn_append, Cell.entriesIn_append]
  exact fun e he => List.mem_append_left _ (List.mem_append_right _ he)

end Subtree

namespace Tree

variable {tree : Tree V} {t : Subtree V} {height : Nat} {bounds : Bounds}

/-- What is unfolded from a page of a subtree below the root is a part of it, and
not an empty one. -/
theorem exists_part (hvalid : tree.config.Valid)
    (hfits : t.Fits tree.config height bounds)
    (hsized : t.Sized tree.config false)
    (hcarries : tree.pages.Carries t.cells) {cell : Cell V}
    (hcell : cell ∈ t.cells) {fuel : Nat} (hfuel : height ≤ fuel) :
    ∃ part, tree.subtreeFrom fuel cell.1 = .ok part ∧
      part.cells <:+: t.cells ∧ part.entries ≠ [] := by
  induction hfits generalizing fuel with
  | @leaf bounds page contents hleaf =>
      have hfits : (Subtree.leaf page contents).Fits tree.config 1 bounds :=
        .leaf hleaf
      rw [cells_leaf, List.mem_singleton] at hcell
      rw [hcell]
      exact ⟨_, subtreeFrom_eq hfits hcarries hfuel, List.infix_refl _,
        hfits.entries_ne_nil hvalid hsized⟩
  | @branch height bounds page children hne hall hchildren ih =>
      have hfits : (Subtree.branch page children).Fits tree.config (height + 1)
          bounds := .branch hne hall hchildren
      rw [cells_branch, List.mem_cons] at hcell
      rcases hcell with rfl | hcell
      · exact ⟨_, subtreeFrom_eq hfits hcarries hfuel, List.infix_refl _,
          hfits.entries_ne_nil hvalid hsized⟩
      · obtain ⟨e, he, hmem⟩ := exists_mem_of_cellsOf hcell
        obtain ⟨inner, hinner⟩ := exists_childBounds bounds he
        rw [cells_branch] at hcarries ⊢
        have hchildPart : e.2.cells <:+: (page, .branch ⟨slots children⟩) ::
            cellsOf children := (child_cells_part he).trans
          (List.suffix_cons _ _).isInfix
        obtain ⟨part, hunfold, hpart, hentries⟩ :=
          ih _ hinner (hall e he) (hcarries.mono hchildPart.subset) hmem
            (Nat.le_of_succ_le hfuel)
        exact ⟨part, hunfold, hpart.trans hchildPart, hentries⟩

/-- Children with parts below them do not share a page, since their entries
ascend. -/
theorem nodup_cellsOf {children : List (Key × Subtree V)} {fuel : Nat}
    (hascending : Ascending (Cell.entriesIn (cellsOf children)))
    (hparts : ∀ e ∈ children, ∀ cell ∈ e.2.cells,
      ∃ part, tree.subtreeFrom fuel cell.1 = .ok part ∧
        part.cells <:+: e.2.cells ∧ part.entries ≠ [])
    (hnodup : ∀ e ∈ children, (e.2.cells.map (·.1)).Nodup) :
    ((cellsOf children).map (·.1)).Nodup := by
  induction children with
  | nil => exact List.nodup_nil
  | cons first rest ih =>
      obtain ⟨key, child⟩ := first
      obtain ⟨hfirst, hrest⟩ := List.forall_mem_cons.mp hparts
      obtain ⟨hfirstNodup, hrestNodup⟩ := List.forall_mem_cons.mp hnodup
      rw [entriesIn_cellsOf_cons, Ascending.append_iff] at hascending
      obtain ⟨_, hrestAscending, hapart⟩ := hascending
      rw [cellsOf_cons, List.map_append, List.nodup_append]
      refine ⟨hfirstNodup, ih hrestAscending hrest hrestNodup, ?_⟩
      -- A shared page unfolds to one part, whose entries stand in both.
      rintro _ hleft _ hright rfl
      obtain ⟨cell, hcell, hpage⟩ := List.mem_map.mp hleft
      obtain ⟨other, hother, hotherPage⟩ := List.mem_map.mp hright
      obtain ⟨e, he, hotherCell⟩ := exists_mem_of_cellsOf hother
      obtain ⟨part, hunfold, hpart, hne⟩ := hfirst cell hcell
      obtain ⟨same, hunfoldSame, hsame, _⟩ := hrest e he other hotherCell
      rw [hpage] at hunfold
      rw [hotherPage, hunfold, Except.ok.injEq] at hunfoldSame
      subst hunfoldSame
      obtain ⟨entry, hentry⟩ := List.exists_mem_of_ne_nil _ hne
      have hboth := hapart entry (entriesIn_subset_of_part hpart hentry) entry
        (entriesIn_subset_of_part (hsame.trans (child_cells_part he))
          hentry)
      exact absurd hboth (UInt64.lt_irrefl _)

theorem nodup_cells (hvalid : tree.config.Valid)
    (hfits : t.Fits tree.config height bounds)
    (hcarries : tree.pages.Carries t.cells) : (t.cells.map (·.1)).Nodup := by
  induction hfits with
  | @leaf bounds page contents hleaf =>
      rw [cells_leaf]
      exact List.nodup_singleton _
  | @branch height bounds page children hne hall hchildren ih =>
      have hfits : (Subtree.branch page children).Fits tree.config (height + 1)
          bounds := .branch hne hall hchildren
      have hself := subtreeFrom_eq hfits hcarries (Nat.le_refl _)
      have hascending := hfits.ascending
      rw [entries_branch] at hascending
      rw [cells_branch] at hcarries ⊢
      have hcarriesChild : ∀ e ∈ children, tree.pages.Carries e.2.cells :=
        fun e he => hcarries.mono
          fun cell hcell => List.mem_cons_of_mem _ (mem_cellsOf he hcell)
      have hparts : ∀ e ∈ children, ∀ cell ∈ e.2.cells,
          ∃ part, tree.subtreeFrom (height + 1) cell.1 = .ok part ∧
            part.cells <:+: e.2.cells ∧ part.entries ≠ [] := by
        intro e he cell hcell
        obtain ⟨inner, hinner⟩ := exists_childBounds bounds he
        exact exists_part hvalid (hchildren _ hinner) (hall e he)
          (hcarriesChild e he) hcell (Nat.le_succ height)
      rw [List.map_cons, List.nodup_cons]
      constructor
      · -- A page below itself would be unfolded to a part of itself.
        intro hbelow
        obtain ⟨cell, hcell, hpage⟩ := List.mem_map.mp hbelow
        obtain ⟨e, he, hmem⟩ := exists_mem_of_cellsOf hcell
        obtain ⟨part, hunfold, hpart, _⟩ := hparts e he cell hmem
        rw [hpage] at hunfold
        cases hself.symm.trans hunfold
        have hlength := (hpart.trans (child_cells_part he)).length_le
        rw [cells_branch, List.length_cons] at hlength
        exact absurd hlength (Nat.not_succ_le_self _)
      · refine nodup_cellsOf hascending hparts fun e he => ?_
        obtain ⟨inner, hinner⟩ := exists_childBounds bounds he
        exact ih _ hinner (hcarriesChild e he)

/-! ## The verdict -/

theorem exists_shows_of_audit (hvalid : tree.config.Valid)
    (haudit : tree.audit = .ok ()) : ∃ t, tree.Shows t := by
  obtain ⟨census, hpages, haudit⟩ := exists_of_bind_eq_ok haudit
  obtain ⟨_, _, hchain⟩ := exists_of_bind_eq_ok haudit
  obtain ⟨t, hroot, rfl, haudited⟩ :=
    exists_of_auditPage hvalid (fun _ => Bounds.all_proper) hpages
  exact ⟨t, hroot.symm, haudited.carries,
    nodup_cells hvalid haudited.fits haudited.carries,
    linked_of_auditChain hchain, haudited.fits, haudited.sized⟩

/-- Take any tree of a valid degree, made in whatever way, in which the audit
finds no violation.  The entries of its leaves, in order, ascend.  A look-up finds
what they hold for the key, a new scan yields those from its first key on, and the
size of the tree is their number. -/
theorem reads_of_audited (hconfig : tree.config.validate = .ok ())
    (haudit : tree.audit = .ok ()) :
    ∃ t, tree.subtree = .ok t ∧ Ascending t.entries ∧
      (∀ key, tree.get? key = .ok (t.entries.lookup key)) ∧
        (∀ start, tree.entriesFrom start =
          .ok (t.entries.filter (start ≤ ·.1))) ∧
          tree.size = .ok t.entries.length := by
  have hvalid := Config.validate_eq_ok_iff.mp hconfig
  obtain ⟨t, hshows⟩ := exists_shows_of_audit hvalid haudit
  exact ⟨t, hshows.subtree_eq, hshows.wellFormed.fits.ascending,
    hshows.get?_eq_lookup, hshows.entriesFrom_eq, hshows.size_eq⟩

/-- A tree that no operations make: nothing leads to page 1, which is in use, and
the root keeps its first child under a key above the others. -/
def stray : Tree Char where
  config := { degree := 3 }
  pages := ⟨#[
    { node := .leaf ⟨[(1, 'a'), (2, 'b')], 0, some 5⟩, next := some 3 },
    { node := .leaf {} },
    { node := .branch ⟨[(99, 0), (5, 3)]⟩ },
    { node := .leaf ⟨[(5, 'c'), (9, 'd')], 5, none⟩, prev := some 0 }]⟩
  root := 2
  height := 2
  stats := { livePages := 3 }

theorem reads_of_audited_stray :
    stray.config.validate = .ok () ∧ stray.audit = .ok () ∧
      ∃ t, stray.subtree = .ok t ∧
        t.entries = [(1, 'a'), (2, 'b'), (5, 'c'), (9, 'd')] ∧
        Ascending t.entries ∧
        (∀ key, stray.get? key = .ok (t.entries.lookup key)) ∧
          (∀ start, stray.entriesFrom start =
            .ok (t.entries.filter (start ≤ ·.1))) ∧
            stray.size = .ok t.entries.length := by
  have hconfig : stray.config.validate = .ok () := rfl
  have haudit : stray.audit = .ok () := by decide +kernel
  obtain ⟨t, hsubtree, hreads⟩ := reads_of_audited hconfig haudit
  have hentries : stray.subtree.map (·.entries) =
      .ok [(1, 'a'), (2, 'b'), (5, 'c'), (9, 'd')] := by
    decide +kernel
  rw [hsubtree, Except.map, Except.ok.injEq] at hentries
  exact ⟨hconfig, haudit, t, hsubtree, hentries, hreads⟩

end Tree

end LatchTree

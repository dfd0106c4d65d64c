import LatchTree.Proofs.Runs
import LatchTree.Proofs.Tree.History
import LatchTree.Proofs.Tree.Reach

/-!
# Calls that retire pages

A removal retires pages when it merges neighbours or collapses the root, and it
notes the page of each such call.  Over a history of a new tree each retired page is noted once, and no
other page is noted at all.  That no call hits a page for a second time is a
matter of counting: each call lowers the counter of live pages by one, and the
counter is right at the end.
-/

namespace LatchTree

open Subtree

variable {V : Type}

/-! ## Noted calls -/

namespace Tree

def removeNoted (tree : Tree V) (key : Key) :
    Except Fault (Outcome V (Except TreeError V) × List PageId) := do
  tree.removeAlongNoted (← tree.descend key .delete) key

/-- The tree after a change, and the pages that calls have retired.  An insertion
does not retire any. -/
def changeNoted (tree : Tree V) :
    Change V → Except Fault (Tree V × List PageId)
  | .insert key value => do return ((← tree.insert key value).tree, [])
  | .remove key => do
      let (outcome, noted) ← tree.removeNoted key
      return (outcome.tree, noted)

def changeAllNoted (tree : Tree V) :
    List (Change V) → Except Fault (Tree V × List PageId)
  | [] => return (tree, [])
  | change :: rest => do
      let (tree, noted) ← tree.changeNoted change
      let (tree, later) ← tree.changeAllNoted rest
      return (tree, noted ++ later)

end Tree

/-! ## Marks of retired pages -/

namespace PageTable

variable {table : PageTable V}

def isRetired (table : PageTable V) (id : PageId) : Bool :=
  (table.page? id).any (·.retired)

theorem isRetired_of_page? {id : PageId} {page : Page V}
    (hpage : table.page? id = some page) :
    table.isRetired id = page.retired := by
  rw [isRetired, hpage]
  rfl

theorem isRetired_modify (table : PageTable V) (id : PageId)
    (f : Page V → Page V) (hretired : ∀ page, (f page).retired = page.retired)
    (other : PageId) :
    (table.modify id f).isRetired other = table.isRetired other := by
  unfold isRetired
  rw [page?_modify]
  by_cases hid : id = other
  · rw [if_pos hid]
    cases table.page? other with
    | none => rfl
    | some page => exact hretired page
  · rw [if_neg hid]

@[simp] theorem isRetired_setNode (table : PageTable V) (id : PageId)
    (node : Node V) (other : PageId) :
    (table.setNode id node).isRetired other = table.isRetired other := by
  apply isRetired_modify
  exact fun _ => rfl

@[simp] theorem isRetired_setPrev (table : PageTable V) (id : PageId)
    (prev : Option PageId) (other : PageId) :
    (table.setPrev id prev).isRetired other = table.isRetired other := by
  apply isRetired_modify
  exact fun _ => rfl

@[simp] theorem isRetired_setNext (table : PageTable V) (id : PageId)
    (next : Option PageId) (other : PageId) :
    (table.setNext id next).isRetired other = table.isRetired other := by
  apply isRetired_modify
  exact fun _ => rfl

@[simp] theorem isRetired_linkAfter (table : PageTable V)
    (left right other : PageId) :
    (table.linkAfter left right).isRetired other = table.isRetired other := by
  rw [linkAfter_eq]
  cases table.next? left <;> simp

@[simp] theorem isRetired_unlink (table : PageTable V) (id other : PageId) :
    (table.unlink id).isRetired other = table.isRetired other := by
  unfold unlink
  cases table.prev? id <;> cases table.next? id <;> simp

@[simp] theorem isRetired_alloc (table : PageTable V) (node : Node V)
    (other : PageId) :
    (table.alloc node).isRetired other = table.isRetired other := by
  unfold isRetired
  rw [page?_alloc]
  by_cases hid : other = table.size
  · rw [if_pos hid, hid, page?_size]
    rfl
  · rw [if_neg hid]

theorem isRetired_markRetired {id other : PageId}
    (hretired : (table.markRetired id).isRetired other = true) :
    table.isRetired other = true ∨ other = id := by
  by_cases hid : id = other
  · exact .inr hid.symm
  · rw [isRetired, markRetired, page?_modify, if_neg hid] at hretired
    exact .inl hretired

theorem isRetired_iff {id : PageId} :
    table.isRetired id = true ↔
      ∃ page, table.page? id = some page ∧ page.retired = true := by
  unfold isRetired
  cases table.page? id with
  | none => simp
  | some page => simp

theorem Evolves.isRetired {old new : PageTable V} (hevolves : old.Evolves new)
    {id : PageId} (hretired : old.isRetired id = true) :
    new.isRetired id = true := by
  obtain ⟨page, hpage, hmark⟩ := isRetired_iff.mp hretired
  obtain ⟨later, hlater, _, hkept⟩ := hevolves id page hpage
  have hsame := hkept hmark
  exact isRetired_iff.mpr ⟨later, hlater, hsame ▸ hmark⟩

theorem lt_size_of_isRetired {id : PageId}
    (hretired : table.isRetired id = true) : id < table.size := by
  obtain ⟨page, hpage, _⟩ := isRetired_iff.mp hretired
  exact lt_size_of_page? hpage

/-- The pages that are retired in the second table but not in the first. -/
def newlyRetired (old new : PageTable V) : List PageId :=
  (List.range old.size).filter fun id => new.isRetired id && !old.isRetired id

section NewlyRetired

variable {old new : PageTable V}

theorem nodup_newlyRetired : (old.newlyRetired new).Nodup :=
  List.nodup_range.filter _

theorem mem_newlyRetired {id : PageId} :
    id ∈ old.newlyRetired new ↔
      id < old.size ∧ new.isRetired id = true ∧ old.isRetired id = false := by
  rw [newlyRetired, List.mem_filter, List.mem_range, Bool.and_eq_true,
    Bool.not_eq_true']

theorem count_newlyRetired (hevolves : old.Evolves new)
    (hsize : new.size = old.size) (id : PageId) :
    (old.newlyRetired new).count id + (old.isRetired id).toNat =
      (new.isRetired id).toNat := by
  rw [nodup_newlyRetired.count]
  cases hnew : new.isRetired id with
  | false =>
      have hold : old.isRetired id = false := by
        by_contra hretired
        rw [Bool.not_eq_false] at hretired
        rw [hevolves.isRetired hretired] at hnew
        cases hnew
      simp [mem_newlyRetired, hnew, hold]
  | true =>
      have hid : id < old.size := hsize ▸ lt_size_of_isRetired hnew
      cases hold : old.isRetired id with
      | false => simp [mem_newlyRetired, hid, hnew, hold]
      | true => simp [mem_newlyRetired, hold]

end NewlyRetired

end PageTable

namespace Tree

/-- Between two states of a tree no page was allocated, all pages newly marked
were noted, and for each noted page the counter of live pages went down. -/
structure Retires (old new : Tree V) (noted : List PageId) : Prop where
  size : new.pages.size = old.pages.size
  retired : ∀ id, new.pages.isRetired id = true →
    old.pages.isRetired id = true ∨ id ∈ noted
  livePages : new.stats.livePages = old.stats.livePages - noted.length

namespace Retires

theorem of_same {old new : Tree V} (hpages : new.pages = old.pages)
    (hlive : new.stats.livePages = old.stats.livePages) :
    old.Retires new [] where
  size := by rw [hpages]
  retired := fun id hretired => .inl (hpages ▸ hretired)
  livePages := hlive

theorem trans {first second third : Tree V} {noted later : List PageId}
    (hfirst : first.Retires second noted)
    (hsecond : second.Retires third later) :
    first.Retires third (noted ++ later) where
  size := hsecond.size.trans hfirst.size
  retired := fun id hretired => by
    rcases hsecond.retired id hretired with hretired | hlater
    · rcases hfirst.retired id hretired with hretired | hnoted
      · exact .inl hretired
      · exact .inr (List.mem_append_left _ hnoted)
    · exact .inr (List.mem_append_right _ hlater)
  livePages := by
    rw [hsecond.livePages, hfirst.livePages, List.length_append, Nat.sub_sub]

theorem setNode (tree : Tree V) (page : PageId) (node : Node V) :
    tree.Retires (tree.setNode page node) [] where
  size := PageTable.size_modify tree.pages page _
  retired := fun id hretired => by
    rw [Tree.setNode, PageTable.isRetired_setNode] at hretired
    exact .inl hretired
  livePages := rfl

/-- Changes to links retire nothing. -/
theorem markRetired {tree : Tree V} {linked : PageTable V}
    (hsize : linked.size = tree.pages.size)
    (hsame : ∀ id, linked.isRetired id = tree.pages.isRetired id)
    (page : PageId) :
    tree.Retires
      { tree with
        pages := linked.markRetired page, stats := tree.stats.countRetired }
      [page] := by
  refine ⟨?_, fun id hretired => ?_, rfl⟩
  · exact (PageTable.size_modify _ page _).trans hsize
  · rcases PageTable.isRetired_markRetired hretired with hretired | rfl
    · exact .inl ((hsame id).symm.trans hretired)
    · exact .inr List.mem_cons_self

theorem retire (tree : Tree V) (page : PageId) (kind : PageKind) :
    tree.Retires (tree.retire page kind) [page] := by
  cases kind with
  | leaf =>
      exact .markRetired (tree.pages.size_unlink page)
        (fun id => PageTable.isRetired_unlink tree.pages page id) page
  | branch => exact .markRetired rfl (fun _ => rfl) page

end Retires

/-! ## Removals -/

theorem retires_of_mergePair {tree : Tree V} {parent : PageId}
    {branch : Branch} {pages : Neighbours} {pair : Siblings (Node V)}
    {result : Tree V × List PageId}
    (hmerge : tree.mergePair parent branch pages pair = .ok result) :
    tree.Retires result.1 result.2 := by
  obtain ⟨⟨merged, drained⟩, _, hresult⟩ := exists_of_bind_eq_ok hmerge
  cases hresult
  have hleft := Retires.setNode tree pages.left merged
  have hright := Retires.setNode (tree.setNode pages.left merged)
    pages.right drained
  have hparent := Retires.setNode
    ((tree.setNode pages.left merged).setNode pages.right drained) parent
    (.branch (branch.eraseSlot pages.slot))
  have hretire := Retires.retire
    (((tree.setNode pages.left merged).setNode pages.right drained).setNode
      parent (.branch (branch.eraseSlot pages.slot))) pages.right
    pair.left.kind
  have hall := ((hleft.trans hright).trans hparent).trans hretire
  refine hall.trans (.of_same rfl ?_)
  cases pair.left.kind <;> rfl

theorem retires_of_borrowInPair {tree next : Tree V} {donor : Direction}
    {parent : PageId} {branch : Branch} {pages : Neighbours}
    {pair : Siblings (Node V)}
    (hborrow : tree.borrowInPair donor parent branch pages pair = .ok next) :
    tree.Retires next [] := by
  obtain ⟨shifted, _, hnext⟩ := exists_of_bind_eq_ok hborrow
  cases hnext
  have hleft := Retires.setNode tree pages.left shifted.left
  have hright := Retires.setNode (tree.setNode pages.left shifted.left)
    pages.right shifted.right
  have hparent := Retires.setNode
    ((tree.setNode pages.left shifted.left).setNode pages.right shifted.right)
    parent (.branch (branch.setKey pages.slot shifted.separator))
  exact ((hleft.trans hright).trans hparent).trans (.of_same rfl rfl)

theorem retires_of_repair {tree : Tree V} {page : PageId} {slot : Nat}
    {parent : PageId} {result : Tree V × RepairAction × Event × List PageId}
    (hrepair : tree.repair page slot parent = .ok result) :
    tree.Retires result.1 result.2.2.2 := by
  obtain ⟨branch, _, hrepair⟩ := exists_of_bind_eq_ok hrepair
  obtain ⟨⟨direction, pages⟩, _, hrepair⟩ := exists_of_bind_eq_ok hrepair
  obtain ⟨pair, _, hrepair⟩ := exists_of_bind_eq_ok hrepair
  by_cases hfits : pair.left.size + pair.right.size ≤
      tree.config.capacity pair.left.kind
  · simp only [if_pos hfits] at hrepair
    obtain ⟨merged, hmerge, hresult⟩ := exists_of_bind_eq_ok hrepair
    cases hresult
    exact retires_of_mergePair hmerge
  · simp only [if_neg hfits] at hrepair
    obtain ⟨next, hborrow, hresult⟩ := exists_of_bind_eq_ok hrepair
    cases hresult
    exact retires_of_borrowInPair hborrow

theorem retires_of_collapseRoot {tree : Tree V} {page : PageId}
    {result : Tree V × List Event × List PageId}
    (hcollapse : tree.collapseRoot page = .ok result) :
    tree.Retires result.1 result.2.2 := by
  obtain ⟨node, _, hresult⟩ := exists_of_bind_eq_ok hcollapse
  match node with
  | .leaf contents | .branch ⟨[]⟩ | .branch ⟨_ :: _ :: _⟩ =>
      cases hresult
      exact .of_same rfl rfl
  | .branch ⟨[(_, child)]⟩ =>
      cases hresult
      let collapsed : Tree V := { tree with
        root := child
        height := tree.height - 1
        stats := tree.stats.countRootCollapse }
      have hsame : tree.Retires collapsed [] := .of_same rfl rfl
      exact hsame.trans (.retire collapsed page .branch)

theorem retires_of_repairUnderfull {tree : Tree V} {page : PageId}
    {slot : Nat} {above : List Link}
    {result : Tree V × List Event × List PageId}
    (hrepair : tree.repairUnderfull page slot above = .ok result) :
    tree.Retires result.1 result.2.2 := by
  induction above generalizing tree page slot result with
  | nil =>
      cases hrepair
      exact .of_same rfl rfl
  | cons link rest ih =>
      cases link with
      | root => exact retires_of_collapseRoot hrepair
      | page parent parentSlot =>
          obtain ⟨node, _, hrepair⟩ := exists_of_bind_eq_ok hrepair
          by_cases hunder : node.isUnderfull tree.config
          · rw [if_pos hunder] at hrepair
            obtain ⟨⟨mid, action, event, noted⟩, hstep, hrepair⟩ :=
              exists_of_bind_eq_ok hrepair
            have hretires := retires_of_repair hstep
            cases action with
            | borrow =>
                cases hrepair
                exact hretires
            | merge =>
                obtain ⟨⟨next, events, later⟩, hrest, hresult⟩ :=
                  exists_of_bind_eq_ok hrepair
                cases hresult
                exact hretires.trans (ih hrest)
          · rw [if_neg hunder] at hrepair
            cases hrepair
            exact .of_same rfl rfl

theorem retires_of_removeAlongNoted {tree : Tree V} {path : LatchPath}
    {key : Key} {result : Outcome V (Except TreeError V) × List PageId}
    (hremove : tree.removeAlongNoted path key = .ok result) :
    tree.Retires result.1.tree result.2 := by
  obtain ⟨⟨page, slot, above⟩, _, hremove⟩ := exists_of_bind_eq_ok hremove
  obtain ⟨leaf, _, hremove⟩ := exists_of_bind_eq_ok hremove
  cases hget : leaf.get? key with
  | none =>
      simp only [hget] at hremove
      cases hremove
      exact .of_same rfl rfl
  | some value =>
      simp only [hget] at hremove
      obtain ⟨⟨next, events, noted⟩, hrepair, hresult⟩ :=
        exists_of_bind_eq_ok hremove
      cases hresult
      exact (Retires.setNode tree page _).trans
        (retires_of_repairUnderfull hrepair)

theorem exists_removeNoted {tree : Tree V} {key : Key}
    {outcome : Outcome V (Except TreeError V)}
    (hremove : tree.remove key = .ok outcome) :
    ∃ noted, tree.removeNoted key = .ok (outcome, noted) ∧
      tree.Retires outcome.tree noted := by
  obtain ⟨path, hpath, hremove⟩ := exists_of_bind_eq_ok hremove
  obtain ⟨⟨removed, noted⟩, hnoted, hresult⟩ := exists_of_bind_eq_ok hremove
  cases hresult
  refine ⟨noted, ?_, retires_of_removeAlongNoted hnoted⟩
  rw [removeNoted, hpath]
  exact hnoted

/-! ## Insertions -/

theorem isRetired_of_splitPage {tree next : Tree V} {page : PageId}
    {entry : Key × PageId} {event : Event}
    (hsplit : tree.splitPage page = .ok (next, entry, event)) (id : PageId) :
    next.pages.isRetired id = tree.pages.isRetired id := by
  obtain ⟨node, _, hsplit⟩ := exists_of_bind_eq_ok hsplit
  obtain ⟨halves, _, hnext⟩ := exists_of_bind_eq_ok hsplit
  cases hnext
  cases node <;> simp [Node.kind]

/-- What each step of the splits keeps, they keep as a whole. -/
theorem splitOverfull_keeps {P : Tree V → Prop} {tree : Tree V} {page : PageId}
    {slot : Nat} {above : List Link} {result : Tree V × List Event}
    (hsplit : tree.splitOverfull page slot above = .ok result)
    (hpage : ∀ {old next : Tree V} {page entry event},
      old.splitPage page = .ok (next, entry, event) → P old → P next)
    (hset : ∀ {old : Tree V} page node, P old → P (old.setNode page node))
    (hgrow : .root ∈ above →
      ∀ {old : Tree V} entry, P old → P (old.growRoot entry).1)
    (hkept : P tree) : P result.1 := by
  induction above generalizing tree page slot result with
  | nil =>
      rw [splitOverfull] at hsplit
      obtain ⟨node, _, hsplit⟩ := exists_of_bind_eq_ok hsplit
      by_cases hfull : node.isOverfull tree.config
      · rw [if_pos hfull] at hsplit
        obtain ⟨_, _, hfault⟩ := exists_of_bind_eq_ok hsplit
        cases hfault
      · rw [if_neg hfull] at hsplit
        cases hsplit
        exact hkept
  | cons link rest ih =>
      rw [splitOverfull] at hsplit
      obtain ⟨node, _, hsplit⟩ := exists_of_bind_eq_ok hsplit
      by_cases hfull : node.isOverfull tree.config
      · rw [if_pos hfull] at hsplit
        obtain ⟨⟨mid, entry, event⟩, hstep, hsplit⟩ :=
          exists_of_bind_eq_ok hsplit
        have hmid := hpage hstep hkept
        cases link with
        | root =>
            cases hsplit
            exact hgrow List.mem_cons_self entry hmid
        | page parent parentSlot =>
            obtain ⟨branch, _, hsplit⟩ := exists_of_bind_eq_ok hsplit
            obtain ⟨grown, _, hsplit⟩ := exists_of_bind_eq_ok hsplit
            obtain ⟨⟨next, events⟩, hrest, hresult⟩ :=
              exists_of_bind_eq_ok hsplit
            cases hresult
            have hnext := ih hrest
              (fun hroot => hgrow (List.mem_cons_of_mem _ hroot))
              (hset parent _ hmid)
            exact hnext
      · rw [if_neg hfull] at hsplit
        cases hsplit
        exact hkept

theorem isRetired_of_splitOverfull {tree : Tree V} {page : PageId} {slot : Nat}
    {above : List Link} {result : Tree V × List Event}
    (hsplit : tree.splitOverfull page slot above = .ok result) (id : PageId) :
    result.1.pages.isRetired id = tree.pages.isRetired id := by
  refine splitOverfull_keeps
    (P := fun next => next.pages.isRetired id = tree.pages.isRetired id)
    hsplit ?_ ?_ ?_ rfl
  · intro old next page entry event hstep hkept
    exact (isRetired_of_splitPage hstep id).trans hkept
  · intro old page node hkept
    exact (PageTable.isRetired_setNode old.pages page node id).trans hkept
  · intro _ old entry hkept
    exact (PageTable.isRetired_alloc old.pages _ id).trans hkept

theorem isRetired_of_insert {tree : Tree V} {key : Key} {value : V}
    {outcome : Outcome V (Except TreeError Unit)}
    (hinsert : tree.insert key value = .ok outcome) (id : PageId) :
    outcome.tree.pages.isRetired id = tree.pages.isRetired id := by
  obtain ⟨path, _, hinsert⟩ := exists_of_bind_eq_ok hinsert
  obtain ⟨⟨page, slot, above⟩, _, hinsert⟩ := exists_of_bind_eq_ok hinsert
  obtain ⟨leaf, _, hinsert⟩ := exists_of_bind_eq_ok hinsert
  by_cases hpresent : (leaf.get? key).isSome
  · simp only [if_pos hpresent] at hinsert
    cases hinsert
    rfl
  · simp only [if_neg hpresent] at hinsert
    obtain ⟨⟨next, events⟩, hsplit, hresult⟩ := exists_of_bind_eq_ok hinsert
    cases hresult
    apply (isRetired_of_splitOverfull hsplit id).trans
    exact PageTable.isRetired_setNode tree.pages page _ id

/-! ## Counting -/

namespace Sound

variable {tree next : Tree V} {t u : Subtree V}

theorem length_unretired (hsound : tree.Sound t) :
    ((List.range tree.pages.size).filter
      fun id => !tree.pages.isRetired id).length = tree.stats.livePages := by
  have hperm : ((List.range tree.pages.size).filter
      fun id => !tree.pages.isRetired id).Perm t.pages := by
    apply (List.perm_ext_iff_of_nodup (List.nodup_range.filter _)
      hsound.stores.holds.nodup).mpr
    intro id
    rw [List.mem_filter, List.mem_range, Bool.not_eq_true']
    constructor
    · rintro ⟨hsize, hlive⟩
      obtain ⟨page, hpage⟩ := PageTable.exists_page?_of_lt hsize
      rw [PageTable.isRetired_of_page? hpage] at hlive
      exact (hsound.mem_pages_iff hpage).mpr hlive
    · intro hid
      obtain ⟨cell, hcell, rfl⟩ := List.mem_map.mp hid
      obtain ⟨page, hpage, hlive, _⟩ := hsound.stores.holds.page_eq hcell
      rw [PageTable.isRetired_of_page? hpage]
      exact ⟨PageTable.lt_size_of_page? hpage, hlive⟩
  rw [hperm.length_eq, hsound.stores.livePages, Subtree.pages, List.length_map]

theorem length_newlyRetired (hsound : tree.Sound t) (hnext : next.Sound u)
    (hevolves : tree.pages.Evolves next.pages)
    (hsize : next.pages.size = tree.pages.size) :
    (tree.pages.newlyRetired next.pages).length + next.stats.livePages =
      tree.stats.livePages := by
  have hkept : ((List.range tree.pages.size).filter fun id =>
      !next.pages.isRetired id && !tree.pages.isRetired id) =
      (List.range tree.pages.size).filter
        fun id => !next.pages.isRetired id := by
    apply List.filter_congr
    intro id _
    cases hmark : tree.pages.isRetired id with
    | false => exact Bool.and_true _
    | true => rw [hevolves.isRetired hmark]; rfl
  have hold := hsound.length_unretired
  have hnew := hnext.length_unretired
  rw [hsize] at hnew
  have hparts := List.length_eq_length_filter_add
    (l := (List.range tree.pages.size).filter
      fun id => !tree.pages.isRetired id)
    next.pages.isRetired
  rw [List.filter_filter, List.filter_filter, hkept] at hparts
  rw [← hold, ← hnew, hparts]
  rfl

theorem livePages_pos (hsound : tree.Sound t) : 0 < tree.stats.livePages := by
  rw [hsound.stores.livePages, cells_eq]
  exact Nat.succ_pos _

/-- All pages newly marked as retired are noted, and there are no more notes
than such pages. -/
theorem newlyRetired_perm (hsound : tree.Sound t) (hnext : next.Sound u)
    (hevolves : tree.pages.Evolves next.pages) {noted : List PageId}
    (hretires : tree.Retires next noted) :
    (tree.pages.newlyRetired next.pages).Perm noted := by
  have hcounted := hsound.length_newlyRetired hnext hevolves hretires.size
  have hlivePages := hretires.livePages
  have hpos := hnext.livePages_pos
  have hlength : noted.length ≤
      (tree.pages.newlyRetired next.pages).length := by omega
  have hsubset : tree.pages.newlyRetired next.pages ⊆ noted := by
    intro id hid
    obtain ⟨_, hnew, hlive⟩ := PageTable.mem_newlyRetired.mp hid
    rcases hretires.retired id hnew with hretired | hnoted
    · rw [hretired] at hlive
      cases hlive
    · exact hnoted
  exact (PageTable.nodup_newlyRetired.subperm hsubset).perm_of_length_le hlength

theorem exists_changeNoted (hsound : tree.Sound t) (change : Change V) :
    ∃ next u noted,
      tree.change change = .ok next ∧
        tree.changeNoted change = .ok (next, noted) ∧ next.Sound u ∧
        tree.pages.Evolves next.pages ∧
        ∀ id, noted.count id + (tree.pages.isRetired id).toNat =
          (next.pages.isRetired id).toNat := by
  obtain ⟨next, u, events, hchange, hnext, hcontinues, _⟩ :=
    hsound.exists_change change
  cases change with
  | insert key value =>
      obtain ⟨outcome, hinsert, hresult⟩ := exists_of_bind_eq_ok hchange
      cases hresult
      refine ⟨_, u, [], hchange, ?_, hnext, hcontinues.pages, fun id => ?_⟩
      · rw [changeNoted, hinsert]
        rfl
      · rw [isRetired_of_insert hinsert, List.count_nil, Nat.zero_add]
  | remove key =>
      obtain ⟨outcome, hremove, hresult⟩ := exists_of_bind_eq_ok hchange
      cases hresult
      obtain ⟨noted, hnoted, hretires⟩ := exists_removeNoted hremove
      refine ⟨_, u, noted, hchange, ?_, hnext, hcontinues.pages, ?_⟩
      · rw [changeNoted, hnoted]
        rfl
      · intro id
        have hperm := hsound.newlyRetired_perm hnext hcontinues.pages hretires
        rw [← hperm.count_eq id]
        exact PageTable.count_newlyRetired hcontinues.pages hretires.size id

/-- Over a history each page is noted as often as it is marked, which is once or
not at all. -/
theorem exists_changeAllNoted (hsound : tree.Sound t)
    (changes : List (Change V)) :
    ∃ next u noted,
      tree.changeAll changes = .ok next ∧
        tree.changeAllNoted changes = .ok (next, noted) ∧ next.Sound u ∧
        tree.pages.Evolves next.pages ∧
        ∀ id, noted.count id + (tree.pages.isRetired id).toNat =
          (next.pages.isRetired id).toNat := by
  induction changes generalizing tree t with
  | nil =>
      refine ⟨tree, t, [], rfl, rfl, hsound, .refl _, fun id => ?_⟩
      rw [List.count_nil, Nat.zero_add]
  | cons change rest ih =>
      obtain ⟨mid, u, noted, hchange, hnoted, hmid, hevolves, hcount⟩ :=
        hsound.exists_changeNoted change
      obtain ⟨next, last, later, hrest, hlater, hnext, hlast, hlaterCount⟩ :=
        ih hmid
      refine ⟨next, last, noted ++ later, ?_, ?_, hnext, hevolves.trans hlast,
        fun id => ?_⟩
      · rw [changeAll, hchange]
        exact hrest
      · rw [changeAllNoted, hnoted]
        simp only [bind, Except.bind, hlater]
        rfl
      · rw [List.count_append, ← hlaterCount, ← hcount]
        omega

end Sound

end Tree

end LatchTree

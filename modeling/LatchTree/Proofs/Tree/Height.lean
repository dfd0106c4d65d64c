import LatchTree.Tree.Bulk
import LatchTree.Proofs.Scan.Walk
import LatchTree.Proofs.Tree.Cascade

/-!
# Height and pages against the number of entries

All pages keep their size limits, so the number of entries lies between two
products whose number of factors grows with the height.  Each leaf below a branch
is at least half full, and each branch has two children or more, so the entries
also limit the number of pages in use.  A tree with fewer entries than two leaves
need is a single leaf.
-/

namespace LatchTree

open Subtree

variable {V : Type}

namespace Subtree

/-! ## Rows of subtrees -/

/-- What the size limits say of the cells of subtrees that stand side by side
below the root, `width` of them, each with `level` levels of branches above its
leaves. -/
structure Row (config : Config) (level width : Nat) (cells : List (Cell V)) :
    Prop where
  least : width * (config.minSize .branch ^ level * config.minSize .leaf) ≤
    (Cell.entriesIn cells).length
  most : (Cell.entriesIn cells).length ≤
    width * (config.capacity .leaf * config.capacity .branch ^ level)
  leaves : (Cell.leavesIn cells).length * config.minSize .leaf ≤
    (Cell.entriesIn cells).length
  pages : cells.length + width ≤ 2 * (Cell.leavesIn cells).length

namespace Row

variable {config : Config} {level width more : Nat} {cells others : List (Cell V)}

theorem nil (config : Config) (level : Nat) :
    Row config level 0 ([] : List (Cell V)) := by
  constructor <;> simp [Cell.entriesIn]

theorem append (hcells : Row config level width cells)
    (hothers : Row config level more others) :
    Row config level (width + more) (cells ++ others) := by
  obtain ⟨hleast, hmost, hleaves, hpages⟩ := hcells
  obtain ⟨hleastMore, hmostMore, hleavesMore, hpagesMore⟩ := hothers
  constructor <;>
    simp only [Cell.entriesIn_append, Cell.leavesIn_append, List.length_append,
      Nat.add_mul] <;>
    omega

theorem leaf {page : PageId} {contents : Leaf V}
    (hsized : (Subtree.leaf page contents).Sized config false) :
    Row config 0 1 [(page, .leaf contents)] := by
  have hleast : config.minSize .leaf ≤ contents.entries.length := hsized.1
  have hmost : contents.entries.length ≤ config.capacity .leaf := hsized.2
  have hentries : Cell.entriesIn [(page, .leaf contents)] = contents.entries := by
    rw [← cells_leaf]
    exact entries_leaf page contents
  refine ⟨?_, ?_, ?_, ?_⟩
  · rw [hentries, Nat.pow_zero, Nat.one_mul, Nat.one_mul]
    exact hleast
  · rw [hentries, Nat.pow_zero, Nat.mul_one, Nat.one_mul]
    exact hmost
  · rw [hentries]
    simpa using hleast
  · simp

/-- Subtrees get a branch above them. -/
theorem branch (hcells : Row config level width cells)
    (hleast : config.minSize .branch ≤ width)
    (hmost : width ≤ config.capacity .branch) (htwo : 2 ≤ width)
    (page : PageId) (contents : Branch) :
    Row config (level + 1) 1 ((page, .branch contents) :: cells) := by
  refine ⟨?_, ?_, ?_, ?_⟩
  · calc
      1 * (config.minSize .branch ^ (level + 1) * config.minSize .leaf) =
          config.minSize .branch *
            (config.minSize .branch ^ level * config.minSize .leaf) := by
        rw [Nat.one_mul, Nat.pow_succ', Nat.mul_assoc]
      _ ≤ width * (config.minSize .branch ^ level * config.minSize .leaf) :=
        Nat.mul_le_mul_right _ hleast
      _ ≤ _ := hcells.least
  · calc
      (Cell.entriesIn cells).length ≤
          width * (config.capacity .leaf * config.capacity .branch ^ level) :=
        hcells.most
      _ ≤ config.capacity .branch *
            (config.capacity .leaf * config.capacity .branch ^ level) :=
        Nat.mul_le_mul_right _ hmost
      _ = 1 * (config.capacity .leaf * config.capacity .branch ^ (level + 1)) := by
        rw [Nat.one_mul, Nat.pow_succ', Nat.mul_left_comm]
  · exact hcells.leaves
  · have hpages := hcells.pages
    rw [Cell.leavesIn_branch, List.length_cons]
    omega

theorem of_children {children : List (Key × Subtree V)}
    (hall : ∀ e ∈ children, Row config level 1 e.2.cells) :
    Row config level children.length (cellsOf children) := by
  induction children with
  | nil => exact nil config level
  | cons first rest ih =>
      obtain ⟨hfirst, hrest⟩ := List.forall_mem_cons.mp hall
      rw [cellsOf_cons first.1, List.length_cons, Nat.add_comm]
      exact hfirst.append (ih hrest)

end Row

namespace Fits

variable {config : Config} {height : Nat} {bounds : Bounds}

theorem row {t : Subtree V} (hfits : t.Fits config height bounds)
    (hvalid : config.Valid) (hsized : t.Sized config false) :
    Row config (height - 1) 1 t.cells := by
  induction hfits with
  | leaf hleaf =>
      rw [cells_leaf]
      exact .leaf hsized
  | @branch height bounds page children hne hall hchildren ih =>
      have hbranch : (Subtree.branch page children).Fits config (height + 1)
          bounds := .branch hne hall hchildren
      have hrow : Row config (height - 1) children.length (cellsOf children) := by
        refine .of_children fun e he => ?_
        obtain ⟨inner, hinner⟩ := exists_childBounds bounds he
        exact ih _ hinner (hall e he)
      obtain ⟨hleast, hmost⟩ := hsized
      rw [size_branch, kind_branch] at hleast hmost
      have htwo := (hvalid.minSize_bounds .branch).2.2
      have hlevel : height + 1 - 1 = height - 1 + 1 := by
        have := hbranch.one_lt_height
        omega
      rw [cells_branch, hlevel]
      exact hrow.branch hleast hmost (Nat.le_trans htwo hleast) page _

/-- The children of a branch, the root included, are a row. -/
theorem row_below {page : PageId} {children : List (Key × Subtree V)}
    (hfits : (Subtree.branch page children).Fits config height bounds)
    (hvalid : config.Valid) :
    Row config (height - 2) children.length (cellsOf children) := by
  cases hfits with
  | branch hne hall hchildren =>
      refine .of_children fun e he => ?_
      obtain ⟨inner, hinner⟩ := exists_childBounds bounds he
      exact (hchildren _ hinner).row hvalid (hall e he)

end Fits

end Subtree

namespace Tree

/-- The height and the pages in use against the number of entries.  Below a root
that is a branch, leaves have at least `(degree - 1) / 2 + 1` entries and branches
at least `degree / 2 + 1` children. -/
structure Proportioned (tree : Tree V) (n : Nat) : Prop where
  most : n ≤ tree.degree * (tree.degree + 1) ^ (tree.height - 1)
  least : 2 ≤ tree.height →
    2 * (tree.degree / 2 + 1) ^ (tree.height - 2) *
      ((tree.degree - 1) / 2 + 1) ≤ n
  pages : 2 ≤ tree.height →
    tree.stats.livePages ≤ 2 * (n / ((tree.degree - 1) / 2 + 1)) - 1
  single : n < 2 * ((tree.degree - 1) / 2 + 1) →
    tree.height = 1 ∧ tree.stats.livePages = 1 ∧
      ∃ contents, tree.subtree = .ok (.leaf tree.root contents)

namespace Sound

variable {tree : Tree V} {t : Subtree V}

theorem proportioned_leaf {page : PageId} {contents : Leaf V}
    (hsound : tree.Sound (.leaf page contents)) :
    tree.Proportioned contents.entries.length := by
  have hlive : tree.stats.livePages = 1 := by
    rw [hsound.stores.livePages, cells_leaf]
    rfl
  have hmost : contents.entries.length ≤ tree.degree := hsound.wellFormed.sized.2
  have hheight : tree.height = 1 := by
    have hkind := hsound.wellFormed.fits.kind_eq
    by_contra hne
    rw [if_neg hne] at hkind
    cases hkind
  refine ⟨?_, ?_, ?_, fun _ => ⟨hheight, hlive, contents, ?_⟩⟩
  · rw [hheight, Nat.sub_self, Nat.pow_zero, Nat.mul_one]
    exact hmost
  · omega
  · omega
  · rw [hsound.shows.subtree_eq, hsound.root]
    rfl

theorem proportioned_branch {page : PageId} {children : List (Key × Subtree V)}
    (hsound : tree.Sound (.branch page children)) :
    tree.Proportioned (Cell.entriesIn (cellsOf children)).length := by
  have hrow := hsound.wellFormed.fits.row_below hsound.valid
  have hheight := hsound.wellFormed.fits.one_lt_height
  obtain ⟨htwo, hcapacity⟩ := hsound.wellFormed.sized
  rw [size_branch, kind_branch] at htwo hcapacity
  have hleast : 2 * (tree.degree / 2 + 1) ^ (tree.height - 2) *
      ((tree.degree - 1) / 2 + 1) ≤
        (Cell.entriesIn (cellsOf children)).length := by
    rw [Nat.mul_assoc]
    exact Nat.le_trans (Nat.mul_le_mul_right _ htwo) hrow.least
  refine ⟨?_, fun _ => hleast, fun _ => ?_, fun hfew => ?_⟩
  · calc
      (Cell.entriesIn (cellsOf children)).length ≤
          children.length *
            (tree.degree * (tree.degree + 1) ^ (tree.height - 2)) :=
        hrow.most
      _ ≤ (tree.degree + 1) *
            (tree.degree * (tree.degree + 1) ^ (tree.height - 2)) :=
        Nat.mul_le_mul_right _ hcapacity
      _ = tree.degree * (tree.degree + 1) ^ (tree.height - 2 + 1) := by
        rw [Nat.mul_left_comm, Nat.pow_succ']
      _ = tree.degree * (tree.degree + 1) ^ (tree.height - 1) := by
        rw [show tree.height - 2 + 1 = tree.height - 1 by omega]
  · have hlive := hsound.stores.livePages
    have hpages := hrow.pages
    have hleaves : (Cell.leavesIn (cellsOf children)).length ≤
        (Cell.entriesIn (cellsOf children)).length /
          ((tree.degree - 1) / 2 + 1) :=
      (Nat.le_div_iff_mul_le (Nat.succ_pos _)).mpr hrow.leaves
    rw [cells_branch, List.length_cons] at hlive
    have htwoChildren : 2 ≤ children.length := htwo
    omega
  · have hpos : 0 < (tree.degree / 2 + 1) ^ (tree.height - 2) :=
      Nat.pow_pos (Nat.succ_pos _)
    have hhalves : 2 * ((tree.degree - 1) / 2 + 1) ≤
        2 * (tree.degree / 2 + 1) ^ (tree.height - 2) *
          ((tree.degree - 1) / 2 + 1) :=
      Nat.mul_le_mul_right _ (Nat.le_mul_of_pos_right 2 hpos)
    omega

/-- The number of entries of a sound tree fits its height and its pages. -/
theorem proportioned (hsound : tree.Sound t) :
    tree.Proportioned t.entries.length := by
  cases t with
  | leaf page contents =>
      rw [entries_leaf]
      exact hsound.proportioned_leaf
  | branch page children =>
      rw [entries_branch]
      exact hsound.proportioned_branch

theorem exists_remove_entries (hsound : tree.Sound t) (key : Key) :
    ∃ outcome u, tree.remove key = .ok outcome ∧ outcome.tree.Sound u ∧
      ∀ e, e ∈ u.entries ↔ e ∈ t.entries ∧ e.1 ≠ key := by
  cases hlookup : t.entries.lookup key with
  | none =>
      refine ⟨_, t, hsound.remove_absent hlookup, hsound, fun e => ?_⟩
      have hothers := List.lookup_eq_none_iff.mp hlookup e
      rw [bne_iff_ne] at hothers
      exact ⟨fun he => ⟨he, (hothers he).symm⟩, fun he => he.1⟩
  | some value =>
      obtain ⟨_, _, _, _, settled, next, _, _, hremove, hnext, _, hmem⟩ :=
        hsound.exists_remove_present hlookup
      exact ⟨_, _, hremove, hnext, hmem⟩

/-- Keys that are not in the tree may stand among those to be removed. -/
theorem exists_removeAll_entries (hsound : tree.Sound t) (keys : List Key) :
    ∃ outcome u, tree.removeAll keys = .ok outcome ∧ outcome.tree.Sound u ∧
      ∀ e, e ∈ u.entries ↔ e ∈ t.entries ∧ e.1 ∉ keys := by
  induction keys generalizing tree t with
  | nil => exact ⟨_, t, rfl, hsound, fun e => by simp⟩
  | cons key rest ih =>
      obtain ⟨removed, mid, hremove, hmid, hmem⟩ :=
        hsound.exists_remove_entries key
      obtain ⟨others, u, hrest, hu, hmemRest⟩ := ih hmid
      refine ⟨⟨others.result.count removed.result.isOk, others.tree,
        removed.events ++ others.events⟩, u, ?_, hu, fun e => ?_⟩
      · rw [removeAll, hremove]
        simp only [bind, Except.bind, hrest]
        rfl
      · rw [hmemRest, hmem, List.mem_cons, not_or, and_assoc]

theorem exists_removeAll_single (hsound : tree.Sound t) {keys : List Key}
    (hkeys : ∀ e ∈ t.entries, e.1 ∈ keys) :
    ∃ outcome, tree.removeAll keys = .ok outcome ∧ outcome.tree.height = 1 ∧
      outcome.tree.stats.livePages = 1 := by
  obtain ⟨outcome, u, hremove, hu, hmem⟩ := hsound.exists_removeAll_entries keys
  have hnone : u.entries = [] := List.eq_nil_iff_forall_not_mem.mpr
    fun e he => ((hmem e).mp he).2 (hkeys e ((hmem e).mp he).1)
  have hfew : u.entries.length < 2 * ((outcome.tree.degree - 1) / 2 + 1) := by
    rw [hnone, List.length_nil]
    omega
  obtain ⟨hheight, hlive, _⟩ := hu.proportioned.single hfew
  exact ⟨outcome, hremove, hheight, hlive⟩

end Sound

/-- After any history of a new tree the height and the number of pages in use
are bounded by the number of entries and the degree.  To remove all keys, in
whatever order, leaves a single leaf. -/
theorem entries_bound_height_and_pages {config : Config}
    (hconfig : config.validate = .ok ()) (history : List (Change V)) :
    ∃ tree t, (Tree.empty config).changeAll history = .ok tree ∧
      tree.degree = config.degree ∧ tree.subtree = .ok t ∧
        tree.size = .ok t.entries.length ∧
        tree.Proportioned t.entries.length ∧
        ∀ keys : List Key, (∀ e ∈ t.entries, e.1 ∈ keys) →
          ∃ outcome, tree.removeAll keys = .ok outcome ∧
            outcome.tree.height = 1 ∧ outcome.tree.stats.livePages = 1 := by
  have hempty := sound_empty (V := V) (Config.validate_eq_ok_iff.mp hconfig)
  obtain ⟨tree, t, hrun, hsound⟩ := hempty.exists_changeAll history
  have hdegree : tree.degree = config.degree := by
    rw [degree, hempty.changeAll_config hrun]
    rfl
  exact ⟨tree, t, hrun, hdegree, hsound.shows.subtree_eq, hsound.size_eq,
    hsound.proportioned, fun _ hkeys => hsound.exists_removeAll_single hkeys⟩

/-- Every leaf has the least size. -/
theorem entries_bound_height_and_pages_at_least_size :
    ({ degree := 3 } : Config).validate = .ok () ∧
      ∃ tree t,
        (Tree.empty { degree := 3 }).changeAll
            (([1, 2, 3, 4, 5, 6, 7, 8, 9, 10] : List Key).map (.insert · 'a')) =
              .ok tree ∧
          tree.subtree = .ok t ∧ t.entries.length = 10 ∧ tree.height = 3 ∧
          tree.stats.livePages = 8 ∧ tree.Proportioned 10 ∧
          ∃ outcome,
            tree.removeAll [5, 10, 1, 6, 2, 7, 3, 8, 4, 9, 5] = .ok outcome ∧
              outcome.tree.height = 1 ∧ outcome.tree.stats.livePages = 1 := by
  have hconfig : ({ degree := 3 } : Config).validate = .ok () := rfl
  obtain ⟨tree, t, hrun, _, hsubtree, hsize, hproportioned, hemptied⟩ :=
    entries_bound_height_and_pages hconfig
      (([1, 2, 3, 4, 5, 6, 7, 8, 9, 10] : List Key).map (.insert · 'a'))
  have hseen : ((Tree.empty { degree := 3 }).changeAll
      (([1, 2, 3, 4, 5, 6, 7, 8, 9, 10] : List Key).map (.insert · 'a'))).bind
        (fun tree => tree.subtree.map fun t =>
          (t.entries.map (·.1), tree.height, tree.stats.livePages)) =
      .ok ([1, 2, 3, 4, 5, 6, 7, 8, 9, 10], 3, 8) := by
    decide +kernel
  rw [hrun, Except.bind, hsubtree, Except.map, Except.ok.injEq] at hseen
  obtain ⟨hkeys, hseen⟩ := Prod.mk.inj hseen
  obtain ⟨hheight, hlive⟩ := Prod.mk.inj hseen
  have hlength : t.entries.length = 10 := by
    rw [← List.length_map (f := fun e : Key × Char => e.1), hkeys]
    rfl
  rw [hlength] at hproportioned
  have hall : ([1, 2, 3, 4, 5, 6, 7, 8, 9, 10] : List Key) ⊆
      [5, 10, 1, 6, 2, 7, 3, 8, 4, 9, 5] := by
    decide
  refine ⟨hconfig, tree, t, hrun, hsubtree, hlength, hheight, hlive,
    hproportioned, hemptied _ fun e he => hall ?_⟩
  rw [← hkeys]
  exact List.mem_map_of_mem he

end Tree

end LatchTree

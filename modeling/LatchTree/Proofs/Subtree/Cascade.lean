import LatchTree.Proofs.Subtree.SplitUp

/-!
# Cascades of splits

A full page that takes up one entry more is halved, and the branch above it
takes up the upper half in turn.  So the splits climb from a leaf exactly as far
as the pages on the way are full: the first page that is not full takes up the
last upper half and stays whole, and nothing above it changes.  If all pages are
full, a new root takes up the halves of the old one.
-/

namespace LatchTree

open Subtree

variable {V : Type}

/-- What a page keeps when all its slots are taken and it is halved. -/
def Config.keptSize (config : Config) (kind : PageKind) : Nat :=
  config.slots kind - config.slots kind / 2

namespace Node

def isFull (node : Node V) (config : Config) : Bool :=
  decide (node.size = config.capacity node.kind)

def firstKey? : Node V → Option Key
  | .leaf contents => contents.entries.head?.map (·.1)
  | .branch contents => contents.entries.head?.map (·.1)

/-- The halves of a full node that took up one entry more. -/
structure Halved (config : Config) (old : Node V) (pair : Siblings (Node V)) :
    Prop where
  leftKind : pair.left.kind = old.kind
  rightKind : pair.right.kind = old.kind
  leftSize : pair.left.size = config.keptSize old.kind
  rightSize : pair.right.size = config.slots old.kind / 2
  separator : pair.right.firstKey? = some pair.separator

/-- A node that took up one entry more. -/
structure Gains (old new : Node V) : Prop where
  kind : new.kind = old.kind
  size : new.size = old.size + 1

theorem gains_insert (contents : Leaf V) (key : Key) (value : V) :
    (Node.leaf contents).Gains (.leaf (contents.insert key value)) where
  kind := rfl
  size := Leaf.length_insert contents key value

end Node

namespace Cell

/-- The full pages at the beginning of a path. -/
def fullRun (config : Config) (path : List (Cell V)) : List (Cell V) :=
  path.takeWhile (·.2.isFull config)

section FullRun

variable {config : Config} {cell : Cell V} {path : List (Cell V)}

theorem fullRun_cons_of_full (hfull : cell.2.isFull config = true) :
    fullRun config (cell :: path) = cell :: fullRun config path :=
  List.takeWhile_cons_of_pos hfull

theorem fullRun_cons_of_not_full (hnot : cell.2.isFull config = false) :
    fullRun config (cell :: path) = [] :=
  List.takeWhile_cons_of_neg (by simp [hnot])

end FullRun

end Cell

namespace Subtree

variable {config : Config} {t : Subtree V} {fresh : PageId}
  {pair : Siblings (Subtree V)}

theorem firstKey?_of_cut {n : Nat} (hcut : t.cut n fresh = some pair) :
    pair.right.node.firstKey? = some pair.separator := by
  cases t with
  | leaf page contents =>
      obtain ⟨parts, hparts, rfl⟩ := Option.map_eq_some_iff.mp hcut
      unfold Leaf.cut at hparts
      cases hdrop : contents.entries.drop n with
      | nil =>
          rw [hdrop] at hparts
          cases hparts
      | cons first rest =>
          rw [hdrop] at hparts
          cases hparts
          rfl
  | branch page children =>
      obtain ⟨parts, hparts, rfl⟩ := Option.map_eq_some_iff.mp hcut
      obtain ⟨child, rest, _, hright, _⟩ := Branch.cutEntries_eq_some hparts
      simp [node, slots, hright, Node.firstKey?]

theorem isFull_iff_of_gains {old : Node V} (hgains : old.Gains t.node) :
    old.isFull config = true ↔ t.size = config.slots t.kind := by
  have hkind : t.kind = old.kind := hgains.kind
  have hsize : t.size = old.size + 1 := hgains.size
  rw [Node.isFull, decide_eq_true_iff, hkind, hsize, Config.slots]
  omega

theorem halved_of_halve {old : Node V} (hgains : old.Gains t.node)
    (hsize : t.size = config.slots t.kind)
    (hhalve : t.halve fresh = some pair) :
    old.Halved config (pair.map node) := by
  have hparts := cutInto hhalve
  have hkind : t.kind = old.kind := hgains.kind
  constructor
  · exact hparts.leftKind.trans hkind
  · exact hparts.rightKind.trans hkind
  · have hleft : pair.left.size = t.size - t.size / 2 := hparts.leftSize
    rwa [hsize, hkind] at hleft
  · have hright : pair.right.size = t.size - (t.size - t.size / 2) :=
      hparts.rightSize
    have hhalf : t.size - (t.size - t.size / 2) = t.size / 2 := by omega
    rwa [hhalf, hsize, hkind] at hright
  · exact firstKey?_of_cut hhalve

end Subtree

namespace Context

/-- The pages from that in the gap up to the root. -/
def cellsUp : Context V → Subtree V → List (Cell V)
  | [], t => [(t.page, t.node)]
  | frame :: rest, t => (t.page, t.node) :: cellsUp rest (frame.plug t)

theorem head?_cellsUp (context : Context V) (t : Subtree V) :
    (context.cellsUp t).head? = some (t.page, t.node) := by
  cases context <;> rfl

@[simp] theorem length_cellsUp (context : Context V) (t : Subtree V) :
    (context.cellsUp t).length = context.length + 1 := by
  induction context generalizing t with
  | nil => rfl
  | cons frame rest ih => rw [cellsUp, List.length_cons, ih, List.length_cons]

theorem kinds_cellsUp (context : Context V) (t : Subtree V) :
    (context.cellsUp t).map (·.2.kind) =
      t.kind :: List.replicate context.length .branch := by
  induction context generalizing t with
  | nil => rfl
  | cons frame rest ih =>
      rw [cellsUp, List.map_cons, ih, Frame.plug_kind, List.length_cons,
        List.replicate_succ]
      rfl

theorem cellsUp_subset (context : Context V) (t : Subtree V) :
    context.cellsUp t ⊆ (context.plug t).cells := by
  induction context generalizing t with
  | nil =>
      rw [cellsUp, plug, cells_eq]
      exact List.cons_subset_cons _ (List.nil_subset _)
  | cons frame rest ih =>
      refine List.cons_subset.mpr ⟨?_, ih (frame.plug t)⟩
      rw [(cells_plug_perm (frame :: rest) t).mem_iff, cells_eq]
      exact List.mem_append_left _ List.mem_cons_self

/-! ## What a climb leaves alone -/

section Halves

variable {config : Config} {fresh : PageId} {t : Subtree V}
  {pair : Siblings (Subtree V)}

theorem mem_halves_of_mem_cellsBelow
    (hoverflow : t.overflow config fresh = some pair) {cell : Cell V}
    (hcell : cell ∈ t.cellsBelow) :
    cell ∈ pair.left.cells ∨ cell ∈ pair.right.cells := by
  have hparts := cutInto (overflow_eq_halve hoverflow)
  rw [← hparts.cellsBelow, List.mem_append] at hcell
  rw [cells_eq, cells_eq]
  exact hcell.imp (List.mem_cons_of_mem _) (List.mem_cons_of_mem _)

theorem mem_cellsBelow_fill_iff {frame : Frame V} {cell : Cell V} :
    cell ∈ (frame.fill [(frame.key, pair.left),
        (pair.separator, pair.right)]).cellsBelow ↔
      cell ∈ cellsOf frame.left ∨
        (cell ∈ pair.left.cells ∨ cell ∈ pair.right.cells) ∨
          cell ∈ cellsOf frame.right := by
  simp [Frame.fill, cellsBelow, or_assoc]

end Halves

/-- The pages below a page stay, though they may come under another parent. -/
theorem cellsBelow_subset_splitUp (config : Config) (height : Nat)
    (context : Context V) (fresh : PageId) (t : Subtree V) :
    t.cellsBelow ⊆ (context.splitUp config height fresh t).tree.cells := by
  induction context generalizing fresh t with
  | nil =>
      intro cell hcell
      rw [splitUp]
      cases hoverflow : t.overflow config fresh with
      | none =>
          rw [cells_eq]
          exact List.mem_cons_of_mem _ hcell
      | some pair =>
          have hhalves := mem_halves_of_mem_cellsBelow hoverflow hcell
          rw [cells_branch, cellsOf_cons, cellsOf_cons, cellsOf_nil,
            List.append_nil]
          exact List.mem_cons_of_mem _ (List.mem_append.mpr hhalves)
  | cons frame rest ih =>
      intro cell hcell
      rw [splitUp]
      cases hoverflow : t.overflow config fresh with
      | none =>
          have hmem : cell ∈ (Context.plug (frame :: rest) t).cells := by
            rw [(cells_plug_perm (frame :: rest) t).mem_iff, cells_eq]
            exact List.mem_append_left _ (List.mem_cons_of_mem _ hcell)
          exact hmem
      | some pair =>
          have hhalves := mem_halves_of_mem_cellsBelow hoverflow hcell
          exact ih _ _ (mem_cellsBelow_fill_iff.mpr (.inr (.inl hhalves)))

/-- Both halves of a page stay as they are. -/
theorem halves_subset_splitUp {config : Config} (height : Nat)
    (context : Context V) {fresh : PageId} {t : Subtree V}
    {pair : Siblings (Subtree V)}
    (hoverflow : t.overflow config fresh = some pair) {cell : Cell V}
    (hcell : cell ∈ pair.left.cells ∨ cell ∈ pair.right.cells) :
    cell ∈ (context.splitUp config height fresh t).tree.cells := by
  cases context with
  | nil =>
      rw [splitUp, hoverflow, cells_branch, cellsOf_cons, cellsOf_cons,
        cellsOf_nil, List.append_nil]
      exact List.mem_cons_of_mem _ (List.mem_append.mpr hcell)
  | cons frame rest =>
      rw [splitUp, hoverflow]
      exact cellsBelow_subset_splitUp config height rest (fresh + 1) _
        (mem_cellsBelow_fill_iff.mpr (.inr (.inl hcell)))

theorem mem_plug_fill {frame : Frame V} {rest : Context V} {t : Subtree V}
    {pair : Siblings (Subtree V)} {config : Config} {fresh : PageId}
    (hoverflow : t.overflow config fresh = some pair) {cell : Cell V}
    (hcell : cell ∈ (rest.plug (frame.plug t)).cells) (hpage : cell.1 ≠ t.page)
    (hframe : cell.1 ≠ frame.page) :
    cell ∈ (rest.plug (frame.fill [(frame.key, pair.left),
      (pair.separator, pair.right)])).cells := by
  refine mem_plug_fill_of_imp hcell hframe fun hinside => ?_
  rw [cellsOf_cons, cellsOf_nil, List.append_nil, cells_eq, List.mem_cons]
    at hinside
  rw [cellsOf_cons, cellsOf_cons, cellsOf_nil, List.append_nil,
    List.mem_append]
  rcases hinside with rfl | hbelow
  · exact absurd rfl hpage
  · exact mem_halves_of_mem_cellsBelow hoverflow hbelow

/-! ## The climb -/

/-- What becomes of the cells of a tree, and of a path to the root in it, when
the lowest page of the path takes up an entry. -/
structure Cascades (config : Config) (height : Nat) (cells path : List (Cell V))
    (fresh : PageId) (settled : Settled V)
    (halves : List (Siblings (Node V))) : Prop where
  halved : List.Forall₂
    (fun e pair => e.1.2.Halved config pair ∧
      (e.1.1, pair.left) ∈ settled.tree.cells ∧
        (e.2, pair.right) ∈ settled.tree.cells)
    ((Cell.fullRun config path).zipIdx fresh) halves
  gains : ∀ cell ∈ path[(Cell.fullRun config path).length]?,
    ∃ node, cell.2.Gains node ∧ (cell.1, node) ∈ settled.tree.cells
  keeps : ∀ cell ∈ cells,
    (∀ e ∈ path.take ((Cell.fullRun config path).length + 1), e.1 ≠ cell.1) →
      cell ∈ settled.tree.cells
  events : settled.events =
    halves.map (fun pair =>
      .pageSplit pair.left.kind pair.left.size pair.separator) ++
    if (Cell.fullRun config path).length = path.length then
      (halves.getLast?.map fun pair =>
        .rootSplit (height + 1) pair.separator).toList
    else []
  height : settled.height = height +
    if (Cell.fullRun config path).length = path.length then 1 else 0

theorem Cascades.forall₂_halved {config : Config} {height : Nat}
    {cells path : List (Cell V)} {fresh : PageId} {settled : Settled V}
    {halves : List (Siblings (Node V))}
    (hcascades : Cascades config height cells path fresh settled halves) :
    List.Forall₂ (fun old pair => old.2.Halved config pair)
      (Cell.fullRun config path) halves := by
  have hsplit := hcascades.halved.imp fun e pair hpair => hpair.1
  rw [← List.zipIdx_map_fst fresh (Cell.fullRun config path)]
  exact List.forall₂_map_left_iff.mpr hsplit

section Climb

variable {config : Config} {height : Nat} {fresh : PageId} {t old : Subtree V}

/-- A page that has room for the entry stays whole, and no page above it
changes. -/
theorem cascades_of_size_le (context : Context V) (hpage : t.page = old.page)
    (hgains : old.node.Gains t.node) (hsize : t.size ≤ config.capacity t.kind) :
    Cascades config height (context.plug t).cells (context.cellsUp old) fresh
      (context.splitUp config height fresh t) [] := by
  have hnot : old.node.isFull config = false := by
    refine eq_false_of_ne_true fun hfull => ?_
    have hslots := (isFull_iff_of_gains hgains).mp hfull
    rw [hslots, Config.slots] at hsize
    exact Nat.lt_irrefl _ hsize
  have hrun : Cell.fullRun config (context.cellsUp old) = [] := by
    cases context <;> exact Cell.fullRun_cons_of_not_full hnot
  have hshort : (0 : Nat) ≠ (context.cellsUp old).length := by
    rw [length_cellsUp]
    exact (Nat.succ_ne_zero _).symm
  rw [splitUp_of_size_le height context fresh hsize]
  constructor
  · rw [hrun]
    exact .nil
  · intro cell hcell
    rw [hrun, List.length_nil, ← List.head?_eq_getElem?, head?_cellsUp]
      at hcell
    obtain rfl := Option.mem_some.mp hcell
    refine ⟨t.node, hgains, ?_⟩
    rw [(context.cells_plug_perm t).mem_iff, cells_eq, hpage]
    exact List.mem_append_left _ List.mem_cons_self
  · exact fun cell hcell _ => hcell
  · rw [hrun, List.length_nil, if_neg hshort]
    rfl
  · rw [hrun, List.length_nil, if_neg hshort]
    rfl

/-- The page is halved, and both halves are found where the split page and the
fresh one are. -/
theorem halved_of_overflow (height : Nat) (context : Context V)
    (hpage : t.page = old.page) (hgains : old.node.Gains t.node)
    (hsize : t.size = config.slots t.kind)
    {pair : Siblings (Subtree V)}
    (hoverflow : t.overflow config fresh = some pair) :
    old.node.Halved config (pair.map node) ∧
      (old.page, pair.left.node) ∈
        (context.splitUp config height fresh t).tree.cells ∧
      (fresh, pair.right.node) ∈
        (context.splitUp config height fresh t).tree.cells := by
  have hparts := cutInto (overflow_eq_halve hoverflow)
  constructor
  · exact halved_of_halve hgains hsize (overflow_eq_halve hoverflow)
  constructor
  · apply halves_subset_splitUp height context hoverflow
    rw [cells_eq pair.left, hparts.leftPage, hpage]
    exact .inl List.mem_cons_self
  · apply halves_subset_splitUp height context hoverflow
    rw [cells_eq pair.right, hparts.rightPage]
    exact .inr List.mem_cons_self

theorem cascades_root (hpage : t.page = old.page)
    (hgains : old.node.Gains t.node) (hsize : t.size = config.slots t.kind)
    {pair : Siblings (Subtree V)}
    (hoverflow : t.overflow config fresh = some pair) :
    Cascades config height t.cells (cellsUp [] old) fresh
      (splitUp config height [] fresh t) [pair.map node] := by
  have hparts := cutInto (overflow_eq_halve hoverflow)
  have hfull := (isFull_iff_of_gains hgains).mpr hsize
  have hrun : Cell.fullRun config (cellsUp [] old) = [(old.page, old.node)] :=
    Cell.fullRun_cons_of_full hfull
  have hall : (Cell.fullRun config (cellsUp [] old)).length =
      (cellsUp [] old).length := by
    rw [hrun]
    rfl
  constructor
  · rw [hrun]
    have hhalved := halved_of_overflow height [] hpage hgains hsize hoverflow
    exact .cons hhalved .nil
  · intro cell hcell
    rw [hall, List.getElem?_length] at hcell
    cases hcell
  · intro cell hcell haway
    have hfirst : old.page ≠ cell.1 := haway _ List.mem_cons_self
    rw [cells_eq, List.mem_cons] at hcell
    rcases hcell with rfl | hinside
    · exact absurd hpage.symm hfirst
    · exact cellsBelow_subset_splitUp config height [] fresh t hinside
  · rw [if_pos hall, splitUp, hoverflow]
    have hkind : (pair.map node).left.kind = t.kind := hparts.leftKind
    rw [List.map_singleton, hkind]
    rfl
  · rw [if_pos hall, splitUp, hoverflow]

/-- A full page is halved, and the branch above it takes up the upper half. -/
theorem Cascades.climb {frame : Frame V} {rest : Context V}
    {pair : Siblings (Subtree V)} {halves : List (Siblings (Node V))}
    (hpage : t.page = old.page)
    (hgains : old.node.Gains t.node) (hsize : t.size = config.slots t.kind)
    (hoverflow : t.overflow config fresh = some pair)
    (hrest : Cascades config height
      (rest.plug (frame.fill [(frame.key, pair.left),
        (pair.separator, pair.right)])).cells
      (rest.cellsUp (frame.plug old)) (fresh + 1)
      (rest.splitUp config height (fresh + 1) (frame.fill
        [(frame.key, pair.left), (pair.separator, pair.right)])) halves) :
    Cascades config height (rest.plug (frame.plug t)).cells
      (cellsUp (frame :: rest) old) fresh
      (splitUp config height (frame :: rest) fresh t)
      (pair.map node :: halves) := by
  have hparts := cutInto (overflow_eq_halve hoverflow)
  have hfull := (isFull_iff_of_gains hgains).mpr hsize
  have hrun : Cell.fullRun config (cellsUp (frame :: rest) old) =
      (old.page, old.node) ::
        Cell.fullRun config (rest.cellsUp (frame.plug old)) :=
    Cell.fullRun_cons_of_full hfull
  have hall : (Cell.fullRun config (cellsUp (frame :: rest) old)).length =
        (cellsUp (frame :: rest) old).length ↔
      (Cell.fullRun config (rest.cellsUp (frame.plug old))).length =
        (rest.cellsUp (frame.plug old)).length := by
    rw [hrun, cellsUp, List.length_cons, List.length_cons]
    exact Nat.add_right_cancel_iff
  have hhalved := halved_of_overflow height (frame :: rest) hpage hgains hsize
    hoverflow
  have hsettled : splitUp config height (frame :: rest) fresh t =
      (rest.splitUp config height (fresh + 1) (frame.fill
        [(frame.key, pair.left), (pair.separator, pair.right)])).report
          (.pageSplit t.kind pair.left.size pair.separator) := by
    rw [splitUp, hoverflow]
  rw [hsettled] at hhalved ⊢
  constructor
  · rw [hrun, List.zipIdx_cons]
    exact .cons hhalved hrest.halved
  · rw [hrun, cellsUp, List.length_cons, List.getElem?_cons_succ]
    exact hrest.gains
  · intro cell hcell haway
    rw [hrun, cellsUp, List.length_cons, List.take_succ_cons] at haway
    obtain ⟨hfirst, hothers⟩ := List.forall_mem_cons.mp haway
    have hhead := head?_cellsUp rest (frame.plug old)
    obtain ⟨others, hpath⟩ := List.head?_eq_some_iff.mp hhead
    have hframe : frame.page ≠ cell.1 := by
      rw [hpath, List.take_succ_cons] at hothers
      exact hothers _ List.mem_cons_self
    rw [hpage.symm] at hfirst
    exact hrest.keeps cell
      (mem_plug_fill hoverflow hcell hfirst.symm hframe.symm) hothers
  · have hlast : (Cell.fullRun config (rest.cellsUp (frame.plug old))).length =
        (rest.cellsUp (frame.plug old)).length →
        (pair.map node :: halves).getLast? = halves.getLast? := by
      intro hlength
      have hhalves := hrest.halved.length_eq
      rw [List.length_zipIdx, hlength, length_cellsUp] at hhalves
      have hne : halves ≠ [] := List.ne_nil_of_length_eq_add_one hhalves.symm
      exact List.getLast?_cons_of_ne_nil hne
    have hkind : (pair.map node).left.kind = t.kind := hparts.leftKind
    change _ :: Settled.events _ = _
    rw [hrest.events, List.map_cons, hkind, List.cons_append]
    by_cases hlength : (Cell.fullRun config
        (rest.cellsUp (frame.plug old))).length =
          (rest.cellsUp (frame.plug old)).length
    · rw [if_pos hlength, if_pos (hall.mpr hlength), hlast hlength]
      rfl
    · rw [if_neg hlength, if_neg (mt hall.mp hlength)]
      rfl
  · refine hrest.height.trans ?_
    simp only [hall]

end Climb

theorem exists_cascades {config : Config} {height level : Nat}
    {context : Context V} {bounds : Bounds} {t old : Subtree V}
    (hvalid : config.Valid) (hcontext : context.Fits config height level bounds)
    (hfits : t.Fits config level bounds)
    (hswollen : t.Swollen config context.isEmpty) (hpage : t.page = old.page)
    (hgains : old.node.Gains t.node) (fresh : PageId) :
    ∃ halves, Cascades config height (context.plug t).cells
      (context.cellsUp old) fresh
      (context.splitUp config height fresh t) halves := by
  induction hcontext generalizing t old fresh with
  | root =>
      rcases Nat.lt_or_eq_of_le hswollen.2 with hlt | hsize
      · exact ⟨[], cascades_of_size_le [] hpage hgains (Nat.le_of_lt_succ hlt)⟩
      · obtain ⟨pair, hoverflow, _⟩ := exists_overflow hvalid hsize fresh
        exact ⟨_, cascades_root hpage hgains hsize hoverflow⟩
  | @inner frame rest level bounds hrest haround hwidth hcapacity ih =>
      rcases Nat.lt_or_eq_of_le hswollen.2 with hlt | hsize
      · exact ⟨[], cascades_of_size_le (frame :: rest) hpage hgains
          (Nat.le_of_lt_succ hlt)⟩
      · obtain ⟨pair, hoverflow, hhalve⟩ := exists_overflow hvalid hsize fresh
        obtain ⟨hbranch, hbranchSize⟩ :=
          branch_swollen hvalid haround hwidth hcapacity hfits hsize hhalve
        have hwider : (frame.plug old).node.Gains (frame.fill
            [(frame.key, pair.left), (pair.separator, pair.right)]).node := by
          constructor
          · rfl
          · change (frame.fill _).size = (frame.plug old).size + 1
            rw [Frame.fill_size, Frame.plug_size, Frame.width]
            simp only [List.length_cons, List.length_nil]
            omega
        obtain ⟨halves, hcascades⟩ :=
          ih hbranch hbranchSize (frame.plug_page old).symm hwider (fresh + 1)
        exact ⟨_, hcascades.climb hpage hgains hsize hoverflow⟩

end Context

end LatchTree

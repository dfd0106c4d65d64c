import LatchTree.Proofs.Subtree.Rearrange
import Mathlib.Algebra.Order.Group.Multiset
import Mathlib.Tactic.Abel

/-!
# A subtree in its context

A context is what surrounds a page on the way up to the root: for each branch on
the way a frame, which is the branch with a gap in the place of one child, the
innermost frame first.  Changes work at the page in the gap and climb the
context frame by frame.  A context that fits grants its gap bounds and a depth;
plugging in a subtree that fits there gives a tree that fits.
-/

namespace LatchTree

open Subtree

/-- A branch with a gap between its children.  The key is the one under which
the branch keeps the child in the gap. -/
structure Frame (V : Type) where
  page : PageId
  left : List (Key × Subtree V)
  key : Key
  right : List (Key × Subtree V)

namespace Frame

variable {V : Type}

/-- The branch with children in the gap. -/
def fill (frame : Frame V) (middle : List (Key × Subtree V)) : Subtree V :=
  .branch frame.page (frame.left ++ middle ++ frame.right)

def plug (frame : Frame V) (t : Subtree V) : Subtree V :=
  frame.fill [(frame.key, t)]

/-- The number of children, with one child in the gap. -/
def width (frame : Frame V) : Nat :=
  frame.left.length + 1 + frame.right.length

/-- The bounds of the gap within the bounds of the branch. -/
def gap (frame : Frame V) (bounds : Bounds) : Bounds where
  lower := if frame.left.isEmpty then bounds.lower else some frame.key
  upper := (firstKey frame.right).or bounds.upper

@[simp] theorem fill_page (frame : Frame V) (middle : List (Key × Subtree V)) :
    (frame.fill middle).page = frame.page :=
  rfl

@[simp] theorem plug_page (frame : Frame V) (t : Subtree V) :
    (frame.plug t).page = frame.page :=
  rfl

@[simp] theorem fill_kind (frame : Frame V) (middle : List (Key × Subtree V)) :
    (frame.fill middle).kind = .branch :=
  rfl

@[simp] theorem plug_kind (frame : Frame V) (t : Subtree V) :
    (frame.plug t).kind = .branch :=
  rfl

theorem fill_size (frame : Frame V) (middle : List (Key × Subtree V)) :
    (frame.fill middle).size =
      frame.left.length + middle.length + frame.right.length := by
  simp [fill, Nat.add_assoc]

@[simp] theorem plug_size (frame : Frame V) (t : Subtree V) :
    (frame.plug t).size = frame.width :=
  frame.fill_size _

theorem entries_fill (frame : Frame V) (middle : List (Key × Subtree V)) :
    (frame.fill middle).entries =
      Cell.entriesIn (cellsOf frame.left) ++ Cell.entriesIn (cellsOf middle) ++
        Cell.entriesIn (cellsOf frame.right) := by
  rw [fill, entries_branch, cellsOf_append, cellsOf_append,
    Cell.entriesIn_append, Cell.entriesIn_append]

theorem childBounds_fill (frame : Frame V) (bounds : Bounds) (t : Subtree V)
    (rest : List (Key × Subtree V)) :
    childBounds bounds (frame.left ++ (frame.key, t) :: rest ++ frame.right) =
      childBounds ⟨bounds.lower, some frame.key⟩ frame.left ++
        childBounds (frame.gap bounds) ((frame.key, t) :: rest) ++
          childBounds ⟨firstKey frame.right, bounds.upper⟩ frame.right := by
  rw [List.append_assoc]
  cases hleft : frame.left with
  | nil =>
      rw [List.nil_append, childBounds_append bounds (by simp)]
      simp [gap, hleft, childBounds]
  | cons first left =>
      rw [childBounds_append bounds (by simp), List.cons_append, firstKey_cons,
        Option.some_or, ← List.cons_append,
        childBounds_append ⟨some frame.key, bounds.upper⟩ (by simp)]
      simp [gap, hleft]

/-- The children beside the gap keep their size limits and fit into their
bounds. -/
structure FitsAround (frame : Frame V) (config : Config) (height : Nat)
    (bounds : Bounds) : Prop where
  sized : ∀ e ∈ frame.left ++ frame.right, e.2.Sized config false
  left : ∀ c ∈ childBounds ⟨bounds.lower, some frame.key⟩ frame.left,
    c.2.Fits config height c.1
  right : ∀ c ∈ childBounds ⟨firstKey frame.right, bounds.upper⟩ frame.right,
    c.2.Fits config height c.1

section FitsAround

variable {frame : Frame V} {config : Config} {height : Nat} {bounds : Bounds}

theorem proper_beside {inner : Bounds} {children : List (Key × Subtree V)}
    (hchildren : ∀ c ∈ childBounds inner children, c.2.Fits config height c.1)
    (hne : children ≠ []) : inner.Proper :=
  proper_of_children hne fun c hc => (hchildren c hc).proper

theorem FitsAround.admits_of_gap
    (haround : frame.FitsAround config height bounds)
    {key : Key} (hkey : (frame.gap bounds).Admits key) : bounds.Admits key := by
  constructor
  · intro lower hlower
    cases hleft : frame.left with
    | nil => exact hkey.lower lower (by simpa [gap, hleft] using hlower)
    | cons first rest =>
        have hproper := proper_beside haround.left (by simp [hleft])
        have hbelow := hkey.lower frame.key (by simp [gap, hleft])
        exact UInt64.le_of_lt
          (UInt64.lt_of_lt_of_le (hproper lower hlower frame.key rfl) hbelow)
  · intro upper hupper
    cases hright : frame.right with
    | nil => exact hkey.upper upper (by simpa [gap, hright] using hupper)
    | cons first rest =>
        have hproper := proper_beside haround.right (by simp [hright])
        have habove := hkey.upper first.1 (by simp [gap, hright])
        exact UInt64.lt_trans habove
          (hproper first.1 (by simp [hright]) upper hupper)

theorem FitsAround.not_mem_beside
    (haround : frame.FitsAround config height bounds)
    {e : Key × V} (hkey : (frame.gap bounds).Admits e.1) :
    e ∉ Cell.entriesIn (cellsOf frame.left) ∧
      e ∉ Cell.entriesIn (cellsOf frame.right) := by
  constructor
  · intro he
    have hne : frame.left ≠ [] := by
      rintro hnil
      simp [hnil, Cell.entriesIn] at he
    have hbelow := (admits_of_children haround.left he).upper frame.key rfl
    have habove := hkey.lower frame.key (by simp [gap, hne])
    exact UInt64.not_lt.mpr habove hbelow
  · intro he
    have hne : frame.right ≠ [] := by
      rintro hnil
      simp [hnil, Cell.entriesIn] at he
    obtain ⟨first, rest, hright⟩ := List.exists_cons_of_ne_nil hne
    have habove :=
      (admits_of_children haround.right he).lower first.1 (by simp [hright])
    have hbelow := hkey.upper first.1 (by simp [gap, hright])
    exact UInt64.not_lt.mpr habove hbelow

theorem FitsAround.fill (haround : frame.FitsAround config height bounds)
    {t : Subtree V} {rest : List (Key × Subtree V)}
    (hsized : ∀ e ∈ (frame.key, t) :: rest, e.2.Sized config false)
    (hfits : ∀ c ∈ childBounds (frame.gap bounds) ((frame.key, t) :: rest),
      c.2.Fits config height c.1) :
    (frame.fill ((frame.key, t) :: rest)).Fits config (height + 1) bounds := by
  refine .branch (by simp) ?_ ?_
  · intro e he
    simp only [List.mem_append] at he
    rcases he with (he | he) | he
    · exact haround.sized e (List.mem_append_left _ he)
    · exact hsized e he
    · exact haround.sized e (List.mem_append_right _ he)
  · intro c hc
    rw [childBounds_fill] at hc
    simp only [List.mem_append] at hc
    rcases hc with (hc | hc) | hc
    · exact haround.left c hc
    · exact hfits c hc
    · exact haround.right c hc

theorem FitsAround.plug (haround : frame.FitsAround config height bounds)
    {t : Subtree V} (hsized : t.Sized config false)
    (hfits : t.Fits config height (frame.gap bounds)) :
    (frame.plug t).Fits config (height + 1) bounds := by
  apply haround.fill
  · simpa using hsized
  · simpa [childBounds] using hfits

theorem FitsAround.fill_pair (haround : frame.FitsAround config height bounds)
    {pair : Siblings (Subtree V)}
    (hsizedLeft : pair.left.Sized config false)
    (hsizedRight : pair.right.Sized config false)
    (hleft : pair.left.Fits config height
      ⟨(frame.gap bounds).lower, some pair.separator⟩)
    (hright :
      pair.right.Fits config height
        ⟨some pair.separator, (frame.gap bounds).upper⟩) :
    (frame.fill [(frame.key, pair.left), (pair.separator, pair.right)]).Fits
      config (height + 1) bounds := by
  apply haround.fill
  · simpa using ⟨hsizedLeft, hsizedRight⟩
  · simpa [childBounds] using ⟨hleft, hright⟩

theorem fits_of_plug {t : Subtree V}
    (hfits : (frame.plug t).Fits config (height + 1) bounds) :
    frame.FitsAround config height bounds ∧
      t.Sized config false ∧ t.Fits config height (frame.gap bounds) := by
  cases hfits with
  | branch hne hsized hchildren =>
      rw [childBounds_fill] at hchildren
      simp only [List.forall_mem_append, List.forall_mem_cons]
        at hsized hchildren
      obtain ⟨⟨hleft, hmiddle⟩, hright⟩ := hchildren
      refine ⟨⟨?_, hleft, hright⟩, hsized.1.2.1, ?_⟩
      · exact List.forall_mem_append.mpr ⟨hsized.1.1, hsized.2⟩
      · simpa [childBounds] using hmiddle

end FitsAround

theorem exists_plug_of_admits {config : Config} {height : Nat} {bounds : Bounds}
    {page : PageId} {children : List (Key × Subtree V)} {key : Key}
    (hfits : (Subtree.branch page children).Fits config height bounds)
    (hkey : bounds.Admits key) :
    ∃ (frame : Frame V) (t : Subtree V),
      Subtree.branch page children = frame.plug t ∧
        (Branch.mk (slots children)).slotFor key = frame.left.length ∧
        (frame.gap bounds).Admits key := by
  have hne : children ≠ [] := by
    cases hfits with
    | branch hne => exact hne
  obtain ⟨left, k, child, right, rfl, hslot, hlower, hupper⟩ :=
    Branch.exists_split_at_slot hne key
  refine ⟨⟨page, left, k, right⟩, child, by simp [plug, fill], ?_, ?_, ?_⟩
  · rw [← hslot, Branch.slotFor, slots, ← List.map_tail, List.takeWhile_map,
      List.length_map]
    rfl
  · intro lower hmem
    cases left with
    | nil => exact hkey.lower lower (by simpa [gap] using hmem)
    | cons first left =>
        have hlowerEq : k = lower := by simpa [gap] using hmem
        rw [← hlowerEq]
        exact hlower (by simp)
  · intro upper hmem
    cases right with
    | nil => exact hkey.upper upper (by simpa [gap] using hmem)
    | cons next right =>
        have hupperEq : next.1 = upper := by simpa [gap] using hmem
        rw [← hupperEq]
        exact hupper next (by simp)

end Frame

/-- The frames from a page up to the root. -/
abbrev Context (V : Type) := List (Frame V)

namespace Context

variable {V : Type}

def plug : Context V → Subtree V → Subtree V
  | [], t => t
  | frame :: rest, t => plug rest (frame.plug t)

theorem plug_page_congr (context : Context V) {t other : Subtree V}
    (hpage : t.page = other.page) :
    (context.plug t).page = (context.plug other).page := by
  induction context generalizing t other with
  | nil => exact hpage
  | cons frame rest ih => exact ih rfl

/-- The slot of the page in the gap within its parent.  The root is said to have
slot 0. -/
def slot : Context V → Nat
  | [] => 0
  | frame :: _ => frame.left.length

@[simp] theorem slot_cons (frame : Frame V) (rest : Context V) :
    slot (frame :: rest) = frame.left.length :=
  rfl

/-- The cells of the branches around the gap, which holds the given page. -/
def cellsAround : Context V → PageId → List (Cell V)
  | [], _ => []
  | frame :: rest, page =>
      (frame.page,
        .branch ⟨slots frame.left ++ (frame.key, page) :: slots frame.right⟩) ::
          cellsAround rest frame.page

/-- The cells below the children on the left of the gap. -/
def cellsBefore : Context V → List (Cell V)
  | [] => []
  | frame :: rest => cellsBefore rest ++ cellsOf frame.left

def cellsAfter : Context V → List (Cell V)
  | [] => []
  | frame :: rest => cellsOf frame.right ++ cellsAfter rest

/-- All cells outside the gap. -/
def cells (context : Context V) (page : PageId) : List (Cell V) :=
  context.cellsAround page ++ (context.cellsBefore ++ context.cellsAfter)

theorem cells_plug_perm (context : Context V) (t : Subtree V) :
    (context.plug t).cells.Perm (t.cells ++ context.cells t.page) := by
  induction context generalizing t with
  | nil => simp [plug, cells, cellsAround, cellsBefore, cellsAfter]
  | cons frame rest ih =>
      apply (ih (frame.plug t)).trans
      rw [Frame.plug_page, Frame.plug, Frame.fill, cells_branch]
      simp only [cells, cellsAround, cellsBefore, cellsAfter, slots_append,
        slots_cons, cellsOf_append, cellsOf_cons, List.append_assoc,
        List.cons_append, List.nil_append]
      apply Multiset.coe_eq_coe.mp
      simp only [← Multiset.cons_coe, ← Multiset.coe_add,
        ← Multiset.singleton_add]
      abel

theorem leaves_plug (context : Context V) (t : Subtree V) :
    (context.plug t).leaves =
      Cell.leavesIn context.cellsBefore ++ t.leaves ++
        Cell.leavesIn context.cellsAfter := by
  induction context generalizing t with
  | nil => simp [plug, cellsBefore, cellsAfter]
  | cons frame rest ih =>
      simp only [plug, ih, cellsBefore, cellsAfter, Cell.leavesIn_append]
      rw [Frame.plug, Frame.fill, leaves_branch]
      simp only [cellsOf_append, cellsOf_cons, cellsOf_nil, List.append_nil,
        Cell.leavesIn_append, List.append_assoc]
      rfl

theorem leafPages_plug (context : Context V) (t : Subtree V) :
    (context.plug t).leafPages =
      Cell.leafPagesIn context.cellsBefore ++ t.leafPages ++
        Cell.leafPagesIn context.cellsAfter := by
  have hleaves := congrArg (List.map (·.1)) (context.leaves_plug t)
  simpa [Cell.leafPagesIn, leafPages, leaves] using hleaves

theorem entries_plug (context : Context V) (t : Subtree V) :
    (context.plug t).entries =
      Cell.entriesIn context.cellsBefore ++ t.entries ++
        Cell.entriesIn context.cellsAfter := by
  have hleaves := congrArg (List.flatMap (·.2.entries)) (context.leaves_plug t)
  simpa [Cell.entriesIn, entries, leaves] using hleaves

/-- The cells of the other pages, seen from the branch of the innermost frame.
-/
def cellsOutside (frame : Frame V) (rest : Context V) : List (Cell V) :=
  cellsOf frame.left ++ cellsOf frame.right ++ rest.cells frame.page

theorem cells_fill_perm (frame : Frame V) (rest : Context V)
    (middle : List (Key × Subtree V)) :
    (rest.plug (frame.fill middle)).cells.Perm
      ((frame.page,
        .branch ⟨slots frame.left ++ slots middle ++ slots frame.right⟩) ::
        (cellsOf middle ++ cellsOutside frame rest)) := by
  apply (rest.cells_plug_perm (frame.fill middle)).trans
  rw [Frame.fill_page, Frame.fill, cells_branch]
  simp only [cellsOutside, slots_append, cellsOf_append, List.cons_append]
  apply Multiset.coe_eq_coe.mp
  simp only [← Multiset.cons_coe, ← Multiset.coe_add, ← Multiset.singleton_add]
  abel

theorem leafPages_fill (frame : Frame V) (rest : Context V)
    (middle : List (Key × Subtree V)) :
    (rest.plug (frame.fill middle)).leafPages =
      Cell.leafPagesIn (cellsBefore (frame :: rest)) ++
        Cell.leafPagesIn (cellsOf middle) ++
        Cell.leafPagesIn (cellsAfter (frame :: rest)) := by
  rw [leafPages_plug, Frame.fill, leafPages_branch]
  simp only [cellsBefore, cellsAfter, cellsOf_append, Cell.leafPagesIn_append,
    List.append_assoc]

/-- The cells beside that of a leaf do not depend on what it holds. -/
theorem mem_cells_plug_leaf {context : Context V} {page : PageId}
    {contents other : Leaf V} {cell : Cell V}
    (hcell : cell ∈ (context.plug (.leaf page contents)).cells)
    (hpage : cell.1 ≠ page) :
    cell ∈ (context.plug (.leaf page other)).cells := by
  rw [(context.cells_plug_perm _).mem_iff, cells_leaf] at hcell
  rw [(context.cells_plug_perm _).mem_iff, cells_leaf]
  rcases List.mem_cons.mp hcell with rfl | houtside
  · exact absurd rfl hpage
  · exact List.mem_cons_of_mem _ houtside

theorem leafPages_plug_leaf (context : Context V) (page : PageId)
    (contents other : Leaf V) :
    (context.plug (.leaf page other)).leafPages =
      (context.plug (.leaf page contents)).leafPages := by
  rw [leafPages_plug, leafPages_plug, leafPages_leaf, leafPages_leaf]

/-- A cell stays if it does not belong to the branch around the middle and does
not get lost in the middle. -/
theorem mem_plug_fill_of_imp {frame : Frame V} {rest : Context V}
    {middle other : List (Key × Subtree V)} {cell : Cell V}
    (hcell : cell ∈ (rest.plug (frame.fill middle)).cells)
    (hframe : cell.1 ≠ frame.page)
    (hmiddle : cell ∈ cellsOf middle → cell ∈ cellsOf other) :
    cell ∈ (rest.plug (frame.fill other)).cells := by
  rw [(cells_fill_perm _ _ _).mem_iff, List.mem_cons, List.mem_append] at hcell
  rw [(cells_fill_perm _ _ _).mem_iff, List.mem_cons, List.mem_append]
  rcases hcell with rfl | hinside | houtside
  · exact absurd rfl hframe
  · exact .inr (.inl (hmiddle hinside))
  · exact .inr (.inr houtside)

/-- A context in a tree of the given height whose gap lies at a level, counted
from the leaves, and within bounds. -/
inductive Fits (config : Config) (height : Nat) :
    Context V → Nat → Bounds → Prop
  | root : Fits config height [] height .all
  | inner {frame : Frame V} {rest : Context V} {level : Nat} {bounds : Bounds} :
      Fits config height rest (level + 1) bounds →
      frame.FitsAround config level bounds →
      config.leastSize rest.isEmpty .branch ≤ frame.width →
      frame.width ≤ config.capacity .branch →
      Fits config height (frame :: rest) level (frame.gap bounds)

namespace Fits

variable {config : Config} {height level : Nat} {context : Context V}
  {bounds : Bounds}

theorem plug (hcontext : context.Fits config height level bounds)
    {t : Subtree V} (hsized : t.Sized config context.isEmpty)
    (hfits : t.Fits config level bounds) :
    (context.plug t).WellFormed config height := by
  induction hcontext generalizing t with
  | root => exact ⟨hfits, hsized⟩
  | @inner frame rest level bounds _ haround hleast hmost ih =>
      refine ih ?_ (haround.plug hsized hfits)
      unfold Sized
      rw [Frame.plug_size, Frame.plug_kind]
      exact ⟨hleast, hmost⟩

theorem mem_entries_plug (hcontext : context.Fits config height level bounds)
    {e : Key × V} (hkey : bounds.Admits e.1) (t : Subtree V) :
    e ∈ (context.plug t).entries ↔ e ∈ t.entries := by
  induction hcontext generalizing t with
  | root => rfl
  | @inner frame rest level bounds _ haround _ _ ih =>
      obtain ⟨hleft, hright⟩ := haround.not_mem_beside hkey
      rw [Context.plug, ih (haround.admits_of_gap hkey), Frame.plug, Frame.fill,
        entries_branch]
      simp only [cellsOf_append, cellsOf_cons, cellsOf_nil, List.append_nil,
        Cell.entriesIn_append, List.mem_append]
      exact ⟨fun he => (he.resolve_right hright).resolve_left hleft,
        fun he => .inl (.inr he)⟩

end Fits

end Context

end LatchTree

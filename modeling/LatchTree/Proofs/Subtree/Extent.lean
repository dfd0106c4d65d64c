import LatchTree.Proofs.Subtree.RepairUp

/-!
# The extent of a tree

The extent of a tree is its height together with the number of its pages of each
kind.  Every event stands for one change of the extent, and an event at the root
names the height that the tree has from then on.  A climb of splits or repairs
changes the extent as its events say, one after the other.
-/

namespace LatchTree

open Subtree

variable {V : Type}

structure Extent where
  height : Nat
  pages : PageKind → Nat

namespace Extent

def withPage (extent : Extent) (kind : PageKind) : Extent :=
  { extent with pages := fun other =>
      extent.pages other + if other = kind then 1 else 0 }

/-- The extent with a new root above the old one. -/
def withRoot (extent : Extent) : Extent :=
  { extent.withPage .branch with height := extent.height + 1 }

end Extent

namespace Event

/-- The change of the extent for which an event stands. -/
inductive Alters : Event → Extent → Extent → Prop
  | created {degree : Nat} {extent : Extent} :
      Alters (.created degree) extent extent
  | pageSplit {kind : PageKind} {size : Nat} {separator : Key}
      {extent : Extent} :
      Alters (.pageSplit kind size separator) extent (extent.withPage kind)
  | rootSplit {height : Nat} {separator : Key} {extent : Extent} :
      extent.withRoot.height = height →
      Alters (.rootSplit height separator) extent extent.withRoot
  | merge {kind : PageKind} {direction : Direction} {children : Nat}
      {extent : Extent} :
      Alters (.rebalanced kind direction .merge children)
        (extent.withPage kind) extent
  | borrow {kind : PageKind} {direction : Direction} {children : Nat}
      {extent : Extent} :
      Alters (.rebalanced kind direction .borrow children) extent extent
  | rootCollapsed {height : Nat} {extent : Extent} :
      extent.height = height →
      Alters (.rootCollapsed height) extent.withRoot extent
  | statsReport {stats : Stats} {extent : Extent} :
      Alters (.statsReport stats) extent extent

/-- The events lead from one extent to the other, in order. -/
def AlterAll : List Event → Extent → Extent → Prop
  | [], first, last => first = last
  | event :: rest, first, last =>
      ∃ mid, event.Alters first mid ∧ AlterAll rest mid last

theorem AlterAll.append {events later : List Event} {first mid last : Extent}
    (hevents : AlterAll events first mid) (hlater : AlterAll later mid last) :
    AlterAll (events ++ later) first last := by
  induction events generalizing first with
  | nil =>
      cases hevents
      exact hlater
  | cons event rest ih =>
      obtain ⟨next, hevent, hrest⟩ := hevents
      exact ⟨next, hevent, ih hrest⟩

theorem AlterAll.exists_mid {events later : List Event} {first last : Extent}
    (hall : AlterAll (events ++ later) first last) :
    ∃ mid, AlterAll events first mid ∧ AlterAll later mid last := by
  induction events generalizing first with
  | nil => exact ⟨first, rfl, hall⟩
  | cons event rest ih =>
      obtain ⟨next, hevent, hrest⟩ := hall
      obtain ⟨mid, hevents, hlater⟩ := ih hrest
      exact ⟨mid, ⟨next, hevent, hevents⟩, hlater⟩

/-- The height that an event at the root names. -/
def rootHeight? : Event → Option Nat
  | .rootSplit height _ => some height
  | .rootCollapsed height => some height
  | _ => none

/-- All events at the root name this height. -/
def NameHeight (events : List Event) (height : Nat) : Prop :=
  ∀ event ∈ events, ∀ named, event.rootHeight? = some named → named = height

theorem nameHeight_nil (height : Nat) : NameHeight [] height :=
  fun _ hevent => nomatch hevent

theorem nameHeight_singleton {event : Event} {height : Nat} :
    NameHeight [event] height ↔
      ∀ named, event.rootHeight? = some named → named = height := by
  simp [NameHeight]

theorem NameHeight.cons {event : Event} {events : List Event} {height : Nat}
    (hevents : NameHeight events height) (hevent : event.rootHeight? = none) :
    NameHeight (event :: events) height := by
  intro other hother named hnamed
  rcases List.mem_cons.mp hother with rfl | hother
  · rw [hevent] at hnamed
    cases hnamed
  · exact hevents other hother named hnamed

theorem Alters.nameHeight {event : Event} {first last : Extent}
    (halters : event.Alters first last) :
    NameHeight [event] last.height := by
  rw [nameHeight_singleton]
  intro named hnamed
  cases halters with
  | rootSplit hheight => exact (Option.some.inj hnamed).symm.trans hheight.symm
  | rootCollapsed hheight =>
      exact (Option.some.inj hnamed).symm.trans hheight.symm
  | _ => cases hnamed

end Event

/-! ## Pages of a kind -/

namespace Cell

def countKind (kind : PageKind) (cells : List (Cell V)) : Nat :=
  cells.countP (·.2.kind = kind)

@[simp] theorem countKind_append (kind : PageKind)
    (left right : List (Cell V)) :
    countKind kind (left ++ right) =
      countKind kind left + countKind kind right :=
  List.countP_append

@[simp] theorem countKind_cons (kind : PageKind) (page : PageId) (node : Node V)
    (cells : List (Cell V)) :
    countKind kind ((page, node) :: cells) =
      countKind kind cells + if kind = node.kind then 1 else 0 := by
  simp [countKind, List.countP_cons, eq_comm]

theorem countKind_perm {left right : List (Cell V)} (hperm : left.Perm right)
    (kind : PageKind) : countKind kind left = countKind kind right :=
  hperm.countP_eq _

end Cell

namespace Subtree

def extent (t : Subtree V) (height : Nat) : Extent :=
  ⟨height, fun kind => Cell.countKind kind t.cells⟩

theorem countKind_cells (kind : PageKind) (t : Subtree V) :
    Cell.countKind kind t.cells =
      Cell.countKind kind t.cellsBelow + if kind = t.kind then 1 else 0 := by
  rw [cells_eq, Cell.countKind_cons]
  rfl

theorem countKind_pair (kind : PageKind) (key : Key)
    (pair : Siblings (Subtree V)) :
    Cell.countKind kind
        (cellsOf [(key, pair.left), (pair.separator, pair.right)]) =
      Cell.countKind kind pair.left.cells +
        Cell.countKind kind pair.right.cells := by
  simp

/-- One page is cut into two of its kind. -/
theorem CutInto.countKind {t : Subtree V} {n : Nat} {sibling : PageId}
    {pair : Siblings (Subtree V)} (hparts : t.CutInto n sibling pair)
    (kind : PageKind) :
    Cell.countKind kind pair.left.cells +
        Cell.countKind kind pair.right.cells =
      Cell.countKind kind t.cells + if kind = t.kind then 1 else 0 := by
  have hbelow := congrArg (Cell.countKind kind) hparts.cellsBelow
  rw [Cell.countKind_append] at hbelow
  rw [countKind_cells, countKind_cells, countKind_cells, hparts.leftKind,
    hparts.rightKind]
  omega

/-- Two pages of one kind are merged into one. -/
theorem countKind_merge {pair : Siblings (Subtree V)}
    (hkind : pair.left.kind = pair.right.kind) (kind : PageKind) :
    Cell.countKind kind pair.left.cells +
        Cell.countKind kind pair.right.cells =
      Cell.countKind kind (merge pair).cells +
        if kind = pair.left.kind then 1 else 0 := by
  rw [countKind_cells, countKind_cells, countKind_cells, merge_kind,
    merge_cellsBelow hkind, Cell.countKind_append, ← hkind]
  omega

end Subtree

/-! ## The climbs -/

namespace Context

variable {frame : Frame V} {rest : Context V} {config : Config}

theorem countKind_fill (frame : Frame V) (rest : Context V)
    (middle : List (Key × Subtree V)) (kind : PageKind) :
    Cell.countKind kind (rest.plug (frame.fill middle)).cells =
      Cell.countKind kind (cellsOf middle) +
        (Cell.countKind kind (cellsOutside frame rest) +
          if kind = .branch then 1 else 0) := by
  rw [Cell.countKind_perm (cells_fill_perm frame rest middle),
    Cell.countKind_cons, Cell.countKind_append]
  exact Nat.add_assoc _ _ _

/-- What a leaf holds does not matter for the extent. -/
theorem extent_plug_leaf (context : Context V) {page : PageId}
    (contents other : Leaf V) (height : Nat) :
    (context.plug (.leaf page contents)).extent height =
      (context.plug (.leaf page other)).extent height := by
  have hcount : ∀ kind, ∀ leaf : Leaf V,
      Cell.countKind kind (context.plug (.leaf page leaf)).cells =
        Cell.countKind kind (context.cells page) +
          if kind = .leaf then 1 else 0 := by
    intro kind leaf
    rw [Cell.countKind_perm (context.cells_plug_perm _), cells_leaf,
      List.singleton_append, Cell.countKind_cons]
    rfl
  unfold Subtree.extent
  simp only [hcount]

theorem extent_fill_congr (height : Nat) {middle other : List (Key × Subtree V)}
    (hcount : ∀ kind, Cell.countKind kind (cellsOf middle) =
      Cell.countKind kind (cellsOf other)) :
    (rest.plug (frame.fill middle)).extent height =
      (rest.plug (frame.fill other)).extent height := by
  unfold Subtree.extent
  simp only [countKind_fill, hcount]

theorem extent_fill_withPage (height : Nat)
    {middle other : List (Key × Subtree V)} {kind : PageKind}
    (hcount : ∀ any, Cell.countKind any (cellsOf middle) =
      Cell.countKind any (cellsOf other) + if any = kind then 1 else 0) :
    (rest.plug (frame.fill middle)).extent height =
      ((rest.plug (frame.fill other)).extent height).withPage kind := by
  unfold Subtree.extent Extent.withPage
  simp only [countKind_fill, hcount, Extent.mk.injEq, true_and]
  funext any
  omega

theorem extent_halved (height : Nat) {t : Subtree V} {n : Nat} {fresh : PageId}
    {pair : Siblings (Subtree V)} (hparts : t.CutInto n fresh pair) :
    (rest.plug (frame.fill [(frame.key, pair.left),
        (pair.separator, pair.right)])).extent height =
      ((rest.plug (frame.plug t)).extent height).withPage t.kind := by
  refine extent_fill_withPage height fun any => ?_
  rw [countKind_pair, hparts.countKind]
  simp

theorem extent_grown {t : Subtree V} {n height : Nat} {fresh page : PageId}
    {pair : Siblings (Subtree V)} {key : Key}
    (hparts : t.CutInto n fresh pair) :
    (Subtree.branch page [(key, pair.left),
        (pair.separator, pair.right)]).extent (height + 1) =
      ((t.extent height).withPage t.kind).withRoot := by
  unfold Subtree.extent Extent.withRoot Extent.withPage
  simp only [cells_branch, Cell.countKind_cons, countKind_pair,
    hparts.countKind]
  rfl

/-- The events of the splits lead from the extent of the tree with the overfull
page to that of the tree in which all splits are made. -/
theorem splitUp_alterAll (config : Config) (height : Nat) (context : Context V)
    (fresh : PageId) (t : Subtree V) :
    Event.AlterAll (context.splitUp config height fresh t).events
      ((context.plug t).extent height)
      ((context.splitUp config height fresh t).tree.extent
        (context.splitUp config height fresh t).height) := by
  induction context generalizing fresh t with
  | nil =>
      rw [splitUp]
      cases hoverflow : t.overflow config fresh with
      | none => rfl
      | some pair =>
          have hparts := cutInto (overflow_eq_halve hoverflow)
          refine ⟨_, .pageSplit, _, .rootSplit rfl, ?_⟩
          exact (extent_grown hparts).symm
  | cons frame rest ih =>
      rw [splitUp]
      cases hoverflow : t.overflow config fresh with
      | none => rfl
      | some pair =>
          have hparts := cutInto (overflow_eq_halve hoverflow)
          refine ⟨_, .pageSplit, ?_⟩
          rw [plug, ← extent_halved height hparts]
          exact ih _ _

theorem splitUp_nameHeight (config : Config) (height : Nat)
    (context : Context V) (fresh : PageId) (t : Subtree V) :
    Event.NameHeight (context.splitUp config height fresh t).events
      (context.splitUp config height fresh t).height := by
  induction context generalizing fresh t with
  | nil =>
      rw [splitUp]
      cases t.overflow config fresh with
      | none => exact Event.nameHeight_nil _
      | some pair =>
          refine Event.NameHeight.cons ?_ rfl
          rw [Event.nameHeight_singleton]
          exact fun named hnamed => (Option.some.inj hnamed).symm
  | cons frame rest ih =>
      rw [splitUp]
      cases t.overflow config fresh with
      | none => exact Event.nameHeight_nil _
      | some pair => exact (ih _ _).cons rfl

section Repair

variable {height level : Nat} {context : Context V} {bounds : Bounds}
  {t : Subtree V}

theorem extent_merged (height : Nat) {pairing : Pairing V}
    (hpair : frame.pairUp t = some pairing)
    (hkind : pairing.pair.left.kind = pairing.pair.right.kind) :
    (rest.plug (frame.plug t)).extent height =
      ((rest.plug (pairing.around.plug (merge pairing.pair))).extent
        height).withPage pairing.pair.left.kind := by
  rw [← Frame.fill_pairUp hpair]
  refine extent_fill_withPage height fun any => ?_
  rw [countKind_pair, countKind_merge hkind]
  simp

theorem extent_borrowed (height : Nat) {pairing : Pairing V}
    {shifted : Siblings (Subtree V)} {n : Nat} {sibling : PageId}
    (hpair : frame.pairUp t = some pairing)
    (hkind : pairing.pair.left.kind = pairing.pair.right.kind)
    (hcut : (merge pairing.pair).cut n sibling = some shifted) :
    (rest.plug (frame.plug t)).extent height =
      (rest.plug (pairing.fill shifted)).extent height := by
  rw [← Frame.fill_pairUp hpair]
  refine extent_fill_congr height fun any => ?_
  rw [countKind_pair, countKind_pair, countKind_merge hkind,
    (cutInto hcut).countKind, merge_kind]

theorem extent_collapsed {page : PageId} {key : Key} {child : Subtree V} :
    (Subtree.branch page [(key, child)]).extent (height + 1) =
      (child.extent height).withRoot := by
  unfold Subtree.extent Extent.withRoot Extent.withPage
  simp only [cells_branch, Cell.countKind_cons, cellsOf_cons, cellsOf_nil,
    List.append_nil]
  rfl

theorem repairUp_root_alterAll (config : Config)
    (hfits : t.Fits config height .all) :
    Event.AlterAll (repairUp config height [] t).events (t.extent height)
        ((repairUp config height [] t).tree.extent
          (repairUp config height [] t).height) ∧
      Event.NameHeight (repairUp config height [] t).events
        (repairUp config height [] t).height := by
  cases hfits with
  | leaf => exact ⟨rfl, Event.nameHeight_nil _⟩
  | @branch below _ page children hne hall hchildren =>
      match children with
      | [] => exact absurd rfl hne
      | [(key, child)] =>
          rw [extent_collapsed]
          refine ⟨⟨_, .rootCollapsed rfl, rfl⟩, ?_⟩
          exact Event.nameHeight_singleton.mpr fun named hnamed =>
            (Option.some.inj hnamed).symm
      | _ :: _ :: _ => exact ⟨rfl, Event.nameHeight_nil _⟩

/-- The events of the repairs lead from the extent of the tree with the
underfull page to that of the tree in which all repairs are made, and an event
at the root names the height of the latter. -/
theorem repairUp_alterAll (hvalid : config.Valid)
    (hcontext : context.Fits config height level bounds)
    (hfits : t.Fits config level bounds)
    (hshrunk : t.Shrunk config context.isEmpty) :
    Event.AlterAll (context.repairUp config height t).events
        ((context.plug t).extent height)
        ((context.repairUp config height t).tree.extent
          (context.repairUp config height t).height) ∧
      Event.NameHeight (context.repairUp config height t).events
        (context.repairUp config height t).height := by
  induction hcontext generalizing t with
  | root => exact repairUp_root_alterAll config hfits
  | @inner frame rest level bounds hrest haround hwidth hcapacity ih =>
      have hrepair :=
        Repair.of_fits hvalid (hvalid.two_le_width hwidth) haround hfits hshrunk
      cases hrepair with
      | needless hsized =>
          rw [repairUp_of_sized height (frame :: rest) hsized]
          exact ⟨rfl, Event.nameHeight_nil _⟩
      | merge pairing hpair hunder hlacks hjoins =>
          obtain ⟨hbranch, hbranchSize⟩ :=
            branch_shrunk hvalid haround hwidth hcapacity hfits hpair hlacks
              hjoins
          obtain ⟨halters, hnames⟩ := ih hbranch hbranchSize
          rw [repairUp_merge hpair hunder hjoins]
          refine ⟨⟨_, ?_, halters⟩, hnames.cons rfl⟩
          rw [plug, extent_merged height hpair hlacks.kind]
          exact .merge
      | borrow pairing shifted n hpair hunder hlacks hfull hborrow hcut =>
          rw [repairUp_borrow hpair hunder hfull hborrow]
          refine ⟨⟨_, .borrow, ?_⟩, (Event.nameHeight_nil _).cons rfl⟩
          exact extent_borrowed height hpair hlacks.kind hcut

end Repair

end Context

end LatchTree

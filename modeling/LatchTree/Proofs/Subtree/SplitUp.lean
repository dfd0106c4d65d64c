import LatchTree.Event
import LatchTree.Proofs.Subtree.Context

/-!
# Splits that climb a context

An overfull page is halved, and its upper half becomes a page of its own beside
it.  The branch above has a child more then and may be overfull in turn.  A
split of the root puts a new root above the two halves.  Whatever the number of
splits, the tree fits again and holds the entries that it held before.
-/

namespace LatchTree

open Subtree

variable {V : Type}

/-- A whole tree after a change that climbed to some branch, with the events on
the way. -/
structure Settled (V : Type) where
  tree : Subtree V
  height : Nat
  events : List Event := []

def Settled.report (settled : Settled V) (event : Event) : Settled V :=
  { settled with events := event :: settled.events }

namespace Subtree

/-- The halves of a page if it is overfull.  The upper half moves to the page
`fresh`. -/
def overflow (t : Subtree V) (config : Config) (fresh : PageId) :
    Option (Siblings (Subtree V)) :=
  if t.node.isOverfull config then t.halve fresh else none

section Overflow

variable {t : Subtree V} {config : Config} {fresh : PageId}

theorem overflow_eq_none (hsize : t.size ≤ config.capacity t.kind) :
    t.overflow config fresh = none := by
  have hnot : t.node.isOverfull config = false := by
    have hlt : t.node.size < config.slots t.node.kind := Nat.lt_succ_of_le hsize
    simpa [Node.isOverfull] using hlt
  rw [overflow, hnot]
  rfl

theorem overflow_eq_halve {pair : Siblings (Subtree V)}
    (hoverflow : t.overflow config fresh = some pair) :
    t.halve fresh = some pair := by
  unfold overflow at hoverflow
  split at hoverflow
  · exact hoverflow
  · simp at hoverflow

theorem isOverfull_of_size (hsize : t.size = config.slots t.kind) :
    t.node.isOverfull config = true := by
  have hle : config.slots t.node.kind ≤ t.node.size := Nat.le_of_eq hsize.symm
  simpa [Node.isOverfull] using hle

theorem exists_overflow (hvalid : config.Valid)
    (hsize : t.size = config.slots t.kind) (fresh : PageId) :
    ∃ pair, t.overflow config fresh = some pair ∧
      t.halve fresh = some pair := by
  have hbounds := hvalid.minSize_bounds t.kind
  have hslots : config.slots t.kind = config.capacity t.kind + 1 := rfl
  obtain ⟨pair, hpair⟩ :=
    exists_cut (t := t) (n := t.size - t.size / 2) (by omega) fresh
  refine ⟨pair, ?_, hpair⟩
  rw [overflow, isOverfull_of_size hsize, if_pos rfl]
  exact hpair

theorem halve_sized (hvalid : config.Valid)
    (hsize : t.size = config.slots t.kind)
    {pair : Siblings (Subtree V)} (hhalve : t.halve fresh = some pair) :
    pair.left.Sized config false ∧ pair.right.Sized config false := by
  have hparts := cutInto hhalve
  have hbounds := hvalid.minSize_bounds t.kind
  have hslots : config.slots t.kind = config.capacity t.kind + 1 := rfl
  unfold Sized
  rw [hparts.leftKind, hparts.rightKind, hparts.leftSize, hparts.rightSize]
  simp only [Config.leastSize]
  omega

theorem halve_fits (hvalid : config.Valid)
    (hsize : t.size = config.slots t.kind)
    {height : Nat} {bounds : Bounds} (hfits : t.Fits config height bounds)
    {pair : Siblings (Subtree V)} (hhalve : t.halve fresh = some pair) :
    pair.left.Fits config height ⟨bounds.lower, some pair.separator⟩ ∧
      pair.right.Fits config height ⟨some pair.separator, bounds.upper⟩ := by
  refine hfits.cut ?_ hhalve
  have hbounds := hvalid.minSize_bounds t.kind
  have hslots : config.slots t.kind = config.capacity t.kind + 1 := rfl
  omega

end Overflow

end Subtree

namespace Context

/-- Splits a page if it is overfull, and then the branches around it that have
become overfull.  `fresh` is the page that is allocated next. -/
def splitUp (config : Config) (height : Nat) : Context V → PageId → Subtree V →
    Settled V
  | [], fresh, t =>
      match t.overflow config fresh with
      | none => { tree := t, height }
      | some pair => {
          tree := .branch (fresh + 1)
            [(0, pair.left), (pair.separator, pair.right)]
          height := height + 1
          events := [.pageSplit t.kind pair.left.size pair.separator,
            .rootSplit (height + 1) pair.separator] }
  | frame :: rest, fresh, t =>
      match t.overflow config fresh with
      | none => { tree := plug rest (frame.plug t), height }
      | some pair =>
          (splitUp config height rest (fresh + 1)
            (frame.fill [(frame.key, pair.left),
              (pair.separator, pair.right)])).report
              (.pageSplit t.kind pair.left.size pair.separator)

variable {config : Config} {height level : Nat} {context : Context V}
  {bounds : Bounds} {t : Subtree V}

theorem splitUp_of_size_le (height : Nat) (context : Context V) (fresh : PageId)
    (hsize : t.size ≤ config.capacity t.kind) :
    context.splitUp config height fresh t =
      { tree := context.plug t, height } := by
  cases context with
  | nil =>
      rw [splitUp, overflow_eq_none hsize]
      rfl
  | cons frame rest =>
      rw [splitUp, overflow_eq_none hsize]
      rfl

theorem grown_wellFormed {page : PageId} {pair : Siblings (Subtree V)}
    {key : Key} (hvalid : config.Valid)
    (hsized : pair.left.Sized config false ∧ pair.right.Sized config false)
    (hleft : pair.left.Fits config height ⟨none, some pair.separator⟩)
    (hright : pair.right.Fits config height ⟨some pair.separator, none⟩) :
    (Subtree.branch page [(key, pair.left),
      (pair.separator, pair.right)]).WellFormed config (height + 1) where
  fits := by
    refine .branch (by simp) ?_ ?_
    · simpa using hsized
    · simpa [childBounds, Bounds.all] using ⟨hleft, hright⟩
  sized := by
    have hdegree : 3 ≤ config.degree := hvalid
    unfold Sized
    rw [size_branch, kind_branch]
    simp only [Config.leastSize, Config.capacity, List.length_cons,
      List.length_nil]
    omega

theorem branch_swollen {frame : Frame V} {rest : Context V} {fresh : PageId}
    {pair : Siblings (Subtree V)} (hvalid : config.Valid)
    (haround : frame.FitsAround config level bounds)
    (hwidth : config.leastSize rest.isEmpty .branch ≤ frame.width)
    (hcapacity : frame.width ≤ config.capacity .branch)
    (hfits : t.Fits config level (frame.gap bounds))
    (hsize : t.size = config.slots t.kind)
    (hhalve : t.halve fresh = some pair) :
    (frame.fill [(frame.key, pair.left), (pair.separator, pair.right)]).Fits
        config (level + 1) bounds ∧
      (frame.fill [(frame.key, pair.left),
        (pair.separator, pair.right)]).Swollen config rest.isEmpty := by
  obtain ⟨hleft, hright⟩ := halve_fits hvalid hsize hfits hhalve
  obtain ⟨hsizedLeft, hsizedRight⟩ := halve_sized hvalid hsize hhalve
  have hgrown :
      (frame.fill [(frame.key, pair.left), (pair.separator, pair.right)]).size =
        frame.width + 1 := by
    rw [Frame.fill_size, Frame.width]
    simp only [List.length_cons, List.length_nil]
    omega
  refine ⟨haround.fill_pair hsizedLeft hsizedRight hleft hright, ?_, ?_⟩
  · rw [hgrown, Frame.fill_kind]
    exact Nat.le_succ_of_le hwidth
  · rw [hgrown, Frame.fill_kind]
    exact Nat.succ_le_succ hcapacity

theorem splitUp_wellFormed (hvalid : config.Valid)
    (hcontext : context.Fits config height level bounds)
    (hfits : t.Fits config level bounds)
    (hswollen : t.Swollen config context.isEmpty) (fresh : PageId) :
    (context.splitUp config height fresh t).tree.WellFormed config
      (context.splitUp config height fresh t).height := by
  induction hcontext generalizing t fresh with
  | root =>
      rcases Nat.lt_or_eq_of_le hswollen.2 with hlt | hsize
      · have hle : t.size ≤ config.capacity t.kind := Nat.le_of_lt_succ hlt
        rw [splitUp_of_size_le height [] fresh hle]
        exact ⟨hfits, hswollen.1, hle⟩
      · obtain ⟨pair, hoverflow, hhalve⟩ := exists_overflow hvalid hsize fresh
        obtain ⟨hleft, hright⟩ := halve_fits hvalid hsize hfits hhalve
        rw [splitUp, hoverflow]
        exact grown_wellFormed hvalid (halve_sized hvalid hsize hhalve) hleft
          hright
  | @inner frame rest level bounds hrest haround hwidth hcapacity ih =>
      rcases Nat.lt_or_eq_of_le hswollen.2 with hlt | hsize
      · have hle : t.size ≤ config.capacity t.kind := Nat.le_of_lt_succ hlt
        rw [splitUp_of_size_le height (frame :: rest) fresh hle]
        exact (Fits.inner hrest haround hwidth hcapacity).plug
          ⟨hswollen.1, hle⟩ hfits
      · obtain ⟨pair, hoverflow, hhalve⟩ := exists_overflow hvalid hsize fresh
        obtain ⟨hbranch, hbranchSize⟩ :=
          branch_swollen hvalid haround hwidth hcapacity hfits hsize hhalve
        rw [splitUp, hoverflow]
        exact ih hbranch hbranchSize (fresh + 1)

theorem splitUp_entries (config : Config) (height : Nat) (context : Context V)
    (fresh : PageId) (t : Subtree V) :
    (context.splitUp config height fresh t).tree.entries =
      (context.plug t).entries := by
  induction context generalizing fresh t with
  | nil =>
      rw [splitUp]
      cases hoverflow : t.overflow config fresh with
      | none => rfl
      | some pair =>
          have hparts := cutInto (overflow_eq_halve hoverflow)
          rw [entries_branch, entriesIn_cellsOf_cons, entriesIn_cellsOf_cons,
            entriesIn_cellsOf_nil, List.append_nil]
          exact hparts.entries
  | cons frame rest ih =>
      rw [splitUp]
      cases hoverflow : t.overflow config fresh with
      | none => rfl
      | some pair =>
          have hparts := cutInto (overflow_eq_halve hoverflow)
          apply (ih _ _).trans
          rw [plug, entries_plug, entries_plug, Frame.plug, Frame.entries_fill,
            Frame.entries_fill]
          simp only [entriesIn_cellsOf_cons, entriesIn_cellsOf_nil,
            List.append_nil, hparts.entries]

end Context

end LatchTree

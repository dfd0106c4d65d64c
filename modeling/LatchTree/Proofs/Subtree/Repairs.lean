import LatchTree.Proofs.Subtree.RepairUp

/-!
# Cascades of repairs

A page of the least size that loses an entry is repaired with the sibling beside
it.  If the two fit into one page, the parent has a child less.  So the repairs
climb as long as each of them is a merge and each parent has just its least
size.  A merge below a root with two children leaves it with one, and the root
gives way to it.
-/

namespace LatchTree

open Subtree

variable {V : Type}

/-- A page below its parent, with the sibling that is there to repair it: the
next one, or for the last child the one before. -/
structure Rung (V : Type) where
  cell : Cell V
  slot : Nat
  parent : Branch
  sibling : Node V

namespace Rung

/-- The side on which the sibling stands. -/
def direction (rung : Rung V) : Direction :=
  if rung.slot + 1 = rung.parent.entries.length then .left else .right

/-- What is done if the page has one entry less than its least size. -/
def action (rung : Rung V) (config : Config) : RepairAction :=
  if config.minSize rung.cell.2.kind - 1 + rung.sibling.size ≤
      config.capacity rung.cell.2.kind then .merge
  else .borrow

/-- The number of children that the parent has afterwards. -/
def childrenLeft (rung : Rung V) (config : Config) : Nat :=
  match rung.action config with
  | .merge => rung.parent.entries.length - 1
  | .borrow => rung.parent.entries.length

def event (rung : Rung V) (config : Config) : Event :=
  .rebalanced rung.cell.2.kind rung.direction (rung.action config)
    (rung.childrenLeft config)

end Rung

/-- The events of repairs that climb from a page of the least size which lost an
entry.  The parent of the last rung is the root. -/
def Config.repairEvents (config : Config) (height : Nat) :
    List (Rung V) → List Event
  | [] => []
  | [top] =>
      top.event config ::
        if top.action config = .merge ∧ top.parent.entries.length = 2 then
          [.rootCollapsed (height - 1)]
        else []
  | rung :: next :: rest =>
      rung.event config ::
        if rung.action config = .merge ∧
            rung.parent.entries.length = config.minSize .branch then
          config.repairEvents height (next :: rest)
        else []

namespace Frame

variable {frame : Frame V} {t : Subtree V} {pairing : Pairing V}

/-- The child that helps to repair the one in the gap. -/
def beside? (frame : Frame V) : Option (Subtree V) :=
  (frame.right.head?.or frame.left.getLast?).map (·.2)

def rung? (frame : Frame V) (t : Subtree V) : Option (Rung V) :=
  frame.beside?.map fun sibling => {
    cell := (t.page, t.node)
    slot := frame.left.length
    parent := ⟨slots (frame.left ++ [(frame.key, t)] ++ frame.right)⟩
    sibling := sibling.node }

theorem beside?_pairUp (hpair : frame.pairUp t = some pairing) :
    frame.beside? = some pairing.helper := by
  rcases pairUp_cases hpair with ⟨separator, next, right, hright, rfl⟩ |
    ⟨init, key, prev, hleft, hright, rfl⟩
  · simp [beside?, hright, Pairing.helper]
  · simp [beside?, hleft, hright, Pairing.helper]

theorem direction_pairUp (hpair : frame.pairUp t = some pairing) :
    pairing.direction =
      if frame.left.length + 1 = frame.width then .left else .right := by
  rcases pairUp_cases hpair with ⟨separator, next, right, hright, rfl⟩ |
    ⟨init, key, prev, hleft, hright, rfl⟩
  · simp [width, hright]
  · simp [width, hright]

theorem kind_pairUp (hpair : frame.pairUp t = some pairing)
    (hkind : pairing.pair.left.kind = pairing.pair.right.kind) :
    pairing.pair.left.kind = t.kind := by
  rcases pairUp_cases hpair with ⟨_, _, _, _, rfl⟩ | ⟨_, _, _, _, _, rfl⟩
  · rfl
  · exact hkind

/-- What a rung says is what the repair does. -/
structure Foretells (rung : Rung V) (config : Config) (frame : Frame V)
    (pairing : Pairing V) : Prop where
  width : rung.parent.entries.length = frame.width
  merge : pairing.Joins config → rung.action config = .merge ∧
    rung.event config = .rebalanced pairing.pair.left.kind pairing.direction
      .merge (frame.width - 1)
  borrow : ¬ pairing.Joins config → rung.action config = .borrow ∧
    rung.event config = .rebalanced pairing.pair.left.kind pairing.direction
      .borrow frame.width

theorem exists_rung? {config : Config} (hpair : frame.pairUp t = some pairing)
    (hlacks : pairing.Lacks config) {old : Subtree V}
    (hkind : t.kind = old.kind) :
    ∃ rung, frame.rung? old = some rung ∧
      Foretells rung config frame pairing := by
  have hbeside := beside?_pairUp hpair
  have hpairKind := (kind_pairUp hpair hlacks.kind).trans hkind
  obtain ⟨hsum, hleast, _⟩ := hlacks.size_bounds
  have hneedy := hlacks.needy
  have hdirection := direction_pairUp hpair
  have hwidth : (slots (frame.left ++ [(frame.key, old)] ++
      frame.right)).length = frame.width := by
    simp [width]
    omega
  have hjoins : pairing.Joins config ↔
      config.minSize old.node.kind - 1 + pairing.helper.node.size ≤
        config.capacity old.node.kind := by
    change _ ↔ config.minSize old.kind - 1 + pairing.helper.size ≤
      config.capacity old.kind
    rw [Pairing.Joins, ← hpairKind, ← hsum, ← hneedy, Nat.add_sub_cancel]
  refine ⟨_, by rw [rung?, hbeside]; rfl, ⟨hwidth, fun hmerge => ?_,
    fun hborrow => ?_⟩⟩
  · simp only [Rung.event, Rung.childrenLeft, Rung.action, Rung.direction,
      hwidth, if_pos (hjoins.mp hmerge), hdirection, hpairKind, true_and]
    rfl
  · simp only [Rung.event, Rung.childrenLeft, Rung.action, Rung.direction,
      hwidth, if_neg (mt hjoins.mpr hborrow), hdirection, hpairKind, true_and]
    rfl

end Frame

namespace Context

def rungs : Context V → Subtree V → List (Rung V)
  | [], _ => []
  | frame :: rest, t => (frame.rung? t).toList ++ rungs rest (frame.plug t)

variable {config : Config} {height level : Nat} {context : Context V}
  {bounds : Bounds} {t old : Subtree V}

/-- There is a rung for each frame. -/
theorem length_rungs (hvalid : config.Valid)
    (hcontext : context.Fits config height level bounds) (t : Subtree V) :
    (context.rungs t).length = context.length := by
  induction hcontext generalizing t with
  | root => rfl
  | @inner frame rest level bounds hrest haround hwidth hcapacity ih =>
      obtain ⟨pairing, hpair⟩ :=
        frame.exists_pairUp (hvalid.two_le_width hwidth) t
      rw [rungs, Frame.rung?, Frame.beside?_pairUp hpair, Option.map_some,
        Option.toList_some, List.singleton_append, List.length_cons, ih,
        List.length_cons]

theorem kind_of_mem_rungs (hbranch : t.kind = .branch) {rung : Rung V}
    (hrung : rung ∈ context.rungs t) : rung.cell.2.kind = .branch := by
  induction context generalizing t with
  | nil => cases hrung
  | cons frame rest ih =>
      rw [rungs, List.mem_append, Option.mem_toList] at hrung
      rcases hrung with hfirst | hlater
      · obtain ⟨sibling, _, rfl⟩ := Option.map_eq_some_iff.mp hfirst
        exact hbranch
      · exact ih (frame.plug_kind t) hlater

theorem repairUp_root_events (config : Config) (height : Nat) (frame : Frame V)
    (t : Subtree V) :
    (repairUp config height [] (frame.plug t)).events =
      if frame.width = 1 then [.rootCollapsed (height - 1)] else [] := by
  have hsize := frame.plug_size t
  rw [← hsize]
  unfold Frame.plug Frame.fill at hsize ⊢
  rw [size_branch] at hsize ⊢
  match hchildren : frame.left ++ [(frame.key, t)] ++ frame.right with
  | [] => simp at hchildren
  | [(_, _)] => rfl
  | _ :: _ :: _ => rfl

/-- The events of the repairs can be told from the tree as it was before the
page in the gap lost its entry. -/
theorem repairUp_events (hvalid : config.Valid)
    (hcontext : context.Fits config height level bounds) (hne : context ≠ [])
    (hfits : t.Fits config level bounds) (hkind : t.kind = old.kind)
    (hsize : t.size + 1 = old.size) (hsized : old.Sized config false) :
    (context.repairUp config height t).events =
      if config.minSize old.kind < old.size then []
      else config.repairEvents height (context.rungs old) := by
  induction hcontext generalizing t old with
  | root => exact absurd rfl hne
  | @inner frame rest level bounds hrest haround hwidth hcapacity ih =>
      obtain ⟨hleast, hmost⟩ := hsized
      rw [Config.leastSize] at hleast
      have hshrunk : t.Shrunk config false := by
        rw [Shrunk, Config.leastSize, hkind]
        omega
      have hrepair :=
        Repair.of_fits hvalid (hvalid.two_le_width hwidth) haround hfits hshrunk
      cases hrepair with
      | needless htSized =>
          have hspare := htSized.1
          rw [Config.leastSize, hkind] at hspare
          rw [repairUp_of_sized height (frame :: rest) htSized,
            if_pos (by omega)]
      | merge pairing hpair hunder hlacks hjoins =>
          obtain ⟨rung, hrung, hforetells⟩ :=
            Frame.exists_rung? hpair hlacks hkind
          obtain ⟨haction, hevent⟩ := hforetells.merge hjoins
          rw [hkind] at hunder
          have hsum := frame.width_pairUp hpair
          obtain ⟨hbranch, _⟩ := branch_shrunk hvalid haround hwidth hcapacity
            hfits hpair hlacks hjoins
          rw [repairUp_merge hpair (hkind ▸ hunder) hjoins, if_neg (by omega),
            rungs, hrung, Option.toList_some, List.singleton_append]
          change _ :: Settled.events _ = _
          rw [← hevent]
          cases rest with
          | nil =>
              have hone : pairing.around.width = 1 ↔ frame.width = 2 := by omega
              rw [repairUp_root_events, rungs, Config.repairEvents, haction,
                hforetells.width]
              simp only [hone, true_and]
          | cons upper others =>
              have hbranchSized : (frame.plug old).Sized config false := by
                rw [Sized, Frame.plug_size, Frame.plug_kind]
                exact ⟨hwidth, hcapacity⟩
              have hshorter : (pairing.around.plug (merge pairing.pair)).size +
                  1 = (frame.plug old).size := by
                rw [Frame.plug_size, Frame.plug_size, hsum]
              have hlength := length_rungs hvalid hrest (frame.plug old)
              have hsameKind : (pairing.around.plug (merge pairing.pair)).kind =
                  (frame.plug old).kind := rfl
              rw [ih (List.cons_ne_nil _ _) hbranch hsameKind hshorter
                hbranchSized]
              obtain ⟨next, later, hrungs⟩ :=
                List.exists_cons_of_length_eq_add_one hlength
              have hleastBranch : config.minSize .branch ≤ frame.width := hwidth
              rw [hrungs, Config.repairEvents, haction, hforetells.width,
                Frame.plug_size, Frame.plug_kind]
              by_cases hspare : config.minSize .branch < frame.width
              · rw [if_pos hspare, if_neg (by omega)]
              · rw [if_neg hspare, if_pos ⟨rfl, by omega⟩]
      | borrow pairing shifted n hpair hunder hlacks hfull hborrow =>
          obtain ⟨rung, hrung, hforetells⟩ :=
            Frame.exists_rung? hpair hlacks hkind
          obtain ⟨haction, hevent⟩ := hforetells.borrow hfull
          rw [repairUp_borrow hpair hunder hfull hborrow]
          rw [hkind] at hunder
          rw [if_neg (by omega), rungs, hrung, Option.toList_some,
            List.singleton_append, ← hevent]
          cases rungs rest (frame.plug old) with
          | nil => simp [Config.repairEvents, haction]
          | cons next others => simp [Config.repairEvents, haction]

end Context

end LatchTree

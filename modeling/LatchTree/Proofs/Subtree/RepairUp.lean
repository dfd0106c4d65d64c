import LatchTree.Proofs.Subtree.SplitUp

/-!
# Repairs that climb a context

An underfull page is paired up with a neighbour under the same branch.  If one
page can hold both, they are merged, and the branch above has a child less;
otherwise one entry changes sides.  A page that lacks one entry always finds a
neighbour, and what it gets from it is enough: the tree fits again and holds the
entries that it held before.
-/

namespace LatchTree

open Subtree

variable {V : Type}

/-- Two neighbours below a branch, of which one needs the other's help. -/
structure Pairing (V : Type) where
  /-- The side of the needy page on which the other stands. -/
  direction : Direction
  /-- The branch, with a gap in the place of the two. -/
  around : Frame V
  pair : Siblings (Subtree V)

namespace Pairing

def needy (pairing : Pairing V) : Subtree V :=
  match pairing.direction with
  | .left => pairing.pair.right
  | .right => pairing.pair.left

def helper (pairing : Pairing V) : Subtree V :=
  match pairing.direction with
  | .left => pairing.pair.left
  | .right => pairing.pair.right

/-- The branch, with two children under their separator in the place of the two.
-/
def fill (pairing : Pairing V) (pair : Siblings (Subtree V)) : Subtree V :=
  pairing.around.fill [(pairing.around.key, pair.left),
    (pair.separator, pair.right)]

/-- One page can hold the entries of both. -/
def Joins (pairing : Pairing V) (config : Config) : Prop :=
  pairing.pair.left.size + pairing.pair.right.size ≤
    config.capacity pairing.pair.left.kind

instance (pairing : Pairing V) (config : Config) :
    Decidable (pairing.Joins config) :=
  inferInstanceAs (Decidable (_ ≤ _))

end Pairing

/-- Pairs the page in the gap with the next child, or the last child with the
one before. -/
def Frame.pairUp (frame : Frame V) (t : Subtree V) : Option (Pairing V) :=
  match frame.right, frame.left.getLast? with
  | (separator, next) :: right, _ =>
      some ⟨.right, { frame with right }, ⟨t, separator, next⟩⟩
  | [], some (key, prev) =>
      some ⟨.left, { frame with left := frame.left.dropLast, key },
        ⟨prev, frame.key, t⟩⟩
  | [], none => none

namespace Context

/-- Repairs a page if it is underfull, and then the branches around it that have
become underfull. -/
def repairUp (config : Config) (height : Nat) : Context V → Subtree V →
    Settled V
  | [], .branch _ [(_, child)] => {
      tree := child
      height := height - 1
      events := [.rootCollapsed (height - 1)] }
  | [], t => { tree := t, height }
  | frame :: rest, t =>
      let unchanged := { tree := plug rest (frame.plug t), height }
      if t.node.isUnderfull config then
        match frame.pairUp t with
        | none => unchanged
        | some pairing =>
            let event := Event.rebalanced pairing.pair.left.kind
              pairing.direction
            if pairing.Joins config then
              (repairUp config height rest
                (pairing.around.plug (merge pairing.pair))).report
                (event .merge (frame.width - 1))
            else
              match borrow pairing.direction pairing.pair with
              | none => unchanged
              | some shifted => {
                  tree := plug rest (pairing.fill shifted)
                  height
                  events := [event .borrow frame.width] }
      else
        unchanged

end Context

/-! ## Pairs -/

section Pairs

variable {frame : Frame V} {t : Subtree V} {pairing : Pairing V}

theorem Frame.exists_pairUp (hwidth : 2 ≤ frame.width) (t : Subtree V) :
    ∃ pairing, frame.pairUp t = some pairing := by
  unfold pairUp
  cases hright : frame.right with
  | cons next right => exact ⟨_, rfl⟩
  | nil =>
      have hleft : frame.left ≠ [] := by
        intro hnil
        rw [width, hright, hnil] at hwidth
        simp at hwidth
      rw [List.getLast?_eq_some_getLast hleft]
      exact ⟨_, rfl⟩

theorem Frame.pairUp_cases (hpair : frame.pairUp t = some pairing) :
    (∃ separator next right, frame.right = (separator, next) :: right ∧
      pairing = ⟨.right, { frame with right }, ⟨t, separator, next⟩⟩) ∨
    ∃ init key prev, frame.left = init ++ [(key, prev)] ∧ frame.right = [] ∧
      pairing = ⟨.left, { frame with left := init, key },
        ⟨prev, frame.key, t⟩⟩ := by
  unfold pairUp at hpair
  cases hright : frame.right with
  | cons next right =>
      rw [hright] at hpair
      exact .inl ⟨next.1, next.2, right, rfl, (Option.some.inj hpair).symm⟩
  | nil =>
      rw [hright] at hpair
      rcases List.eq_nil_or_concat frame.left with hnil | ⟨init, last, hleft⟩
      · simp [hnil] at hpair
      · rw [List.concat_eq_append] at hleft
        simp only [hleft, List.getLast?_concat, List.dropLast_concat] at hpair
        exact .inr ⟨init, last.1, last.2, hleft, rfl,
          (Option.some.inj hpair).symm⟩

theorem Frame.needy_pairUp (hpair : frame.pairUp t = some pairing) :
    pairing.needy = t := by
  rcases pairUp_cases hpair with ⟨_, _, _, _, rfl⟩ | ⟨_, _, _, _, _, rfl⟩ <;>
    rfl

theorem Frame.fill_pairUp (hpair : frame.pairUp t = some pairing) :
    pairing.fill pairing.pair = frame.plug t := by
  rcases pairUp_cases hpair with ⟨separator, next, right, hright, rfl⟩ |
    ⟨init, key, prev, hleft, hright, rfl⟩
  · simp [Pairing.fill, fill, plug, hright]
  · simp [Pairing.fill, fill, plug, hleft, hright]

@[simp] theorem Pairing.size_fill (pairing : Pairing V)
    (pair : Siblings (Subtree V)) :
    (pairing.fill pair).size = pairing.around.width + 1 := by
  rw [fill, Frame.fill_size, Frame.width, List.length_cons,
    List.length_singleton]
  omega

theorem Pairing.entries_fill (pairing : Pairing V)
    (pair : Siblings (Subtree V)) :
    (pairing.fill pair).entries =
      Cell.entriesIn (cellsOf pairing.around.left) ++
      (pair.left.entries ++ pair.right.entries) ++
        Cell.entriesIn (cellsOf pairing.around.right) := by
  rw [fill, Frame.entries_fill, entriesIn_cellsOf_cons, entriesIn_cellsOf_cons,
    entriesIn_cellsOf_nil, List.append_nil]

theorem Pairing.entries_merge (pairing : Pairing V)
    (hkind : pairing.pair.left.kind = pairing.pair.right.kind) :
    (pairing.around.plug (merge pairing.pair)).entries =
      (pairing.fill pairing.pair).entries := by
  rw [pairing.entries_fill, Frame.plug, Frame.entries_fill,
    entriesIn_cellsOf_cons, entriesIn_cellsOf_nil, List.append_nil,
    merge_entries hkind]

theorem Frame.width_pairUp (hpair : frame.pairUp t = some pairing) :
    frame.width = pairing.around.width + 1 := by
  rcases pairUp_cases hpair with ⟨separator, next, right, hright, rfl⟩ |
    ⟨init, key, prev, hleft, hright, rfl⟩
  · simp [width, hright]
    omega
  · simp [width, hleft, hright]

theorem Frame.page_pairUp (hpair : frame.pairUp t = some pairing) :
    pairing.around.page = frame.page := by
  rcases pairUp_cases hpair with ⟨_, _, _, _, rfl⟩ | ⟨_, _, _, _, _, rfl⟩ <;>
    rfl

def Pairing.branch (pairing : Pairing V) (separator : Key) : Branch :=
  ⟨slots pairing.around.left ++
    (pairing.around.key, pairing.pair.left.page) ::
      (separator, pairing.pair.right.page) :: slots pairing.around.right⟩

theorem Pairing.slots_fill (pairing : Pairing V) {pair : Siblings (Subtree V)}
    (hleft : pair.left.page = pairing.pair.left.page)
    (hright : pair.right.page = pairing.pair.right.page) :
    (⟨slots pairing.around.left ++
      slots [(pairing.around.key, pair.left), (pair.separator, pair.right)] ++
        slots pairing.around.right⟩ : Branch) =
          pairing.branch pair.separator := by
  simp [branch, slots, hleft, hright]

theorem Frame.neighbours_pairUp (hpair : frame.pairUp t = some pairing) :
    (pairing.branch pairing.pair.separator).neighbours t.page
      frame.left.length = .ok (pairing.direction, {
        left := pairing.pair.left.page
        right := pairing.pair.right.page
        slot := pairing.around.left.length + 1 }) := by
  rcases pairUp_cases hpair with ⟨separator, next, right, hright, rfl⟩ |
    ⟨init, key, prev, hleft, hright, rfl⟩
  · rw [← length_slots frame.left]
    exact Branch.neighbours_right
  · rw [hleft, List.length_append, ← length_slots init, Pairing.branch, hright]
    exact Branch.neighbours_left

theorem Frame.FitsAround.pairUp {config : Config} {height : Nat}
    {bounds : Bounds} (haround : frame.FitsAround config height bounds)
    (hfits : t.Fits config height (frame.gap bounds))
    (hpair : frame.pairUp t = some pairing) :
    pairing.around.FitsAround config height bounds ∧
      pairing.helper.Sized config false ∧
      pairing.pair.left.Fits config height
        ⟨(pairing.around.gap bounds).lower, some pairing.pair.separator⟩ ∧
      pairing.pair.right.Fits config height
        ⟨some pairing.pair.separator, (pairing.around.gap bounds).upper⟩ := by
  rcases pairUp_cases hpair with ⟨separator, next, right, hright, rfl⟩ |
    ⟨init, key, prev, hleft, hright, rfl⟩
  · have hbeside := haround.right
    have hsized := haround.sized
    rw [hright] at hbeside hsized
    rw [← List.singleton_append, childBounds_append _ (by simp),
      List.forall_mem_append] at hbeside
    rw [List.forall_mem_append, List.forall_mem_cons] at hsized
    refine ⟨⟨?_, haround.left, hbeside.2⟩, hsized.2.1, ?_, ?_⟩
    · exact List.forall_mem_append.mpr ⟨hsized.1, hsized.2.2⟩
    · simpa [gap, hright] using hfits
    · simpa [gap, childBounds] using hbeside.1
  · have hbeside := haround.left
    have hsized := haround.sized
    rw [hleft, hright, List.append_nil] at hsized
    rw [List.forall_mem_append, List.forall_mem_singleton] at hsized
    have hprev : (∀ c ∈ childBounds ⟨bounds.lower, some key⟩ init,
        c.2.Fits config height c.1) ∧
          prev.Fits config height
            ⟨if init.isEmpty then bounds.lower else some key,
              some frame.key⟩ := by
      rw [hleft] at hbeside
      cases init with
      | nil =>
          exact ⟨by simp [childBounds], by simpa [childBounds] using hbeside⟩
      | cons first init =>
          rw [childBounds_append _ (by simp), List.forall_mem_append] at hbeside
          exact ⟨by simpa using hbeside.1,
            by simpa [childBounds] using hbeside.2⟩
    refine ⟨⟨?_, hprev.1, ?_⟩, hsized.2, ?_, ?_⟩
    · simpa [hright] using hsized.1
    · simp [hright, childBounds]
    · simpa [gap] using hprev.2
    · simpa [gap, hleft, hright] using hfits

end Pairs

/-! ## Merges and borrows -/

section Repair

variable {config : Config} {pairing : Pairing V}

/-- The two pages are of one kind, and the needy one lacks one entry. -/
structure Pairing.Lacks (pairing : Pairing V) (config : Config) : Prop where
  kind : pairing.pair.left.kind = pairing.pair.right.kind
  needy : pairing.needy.size + 1 = config.minSize pairing.pair.left.kind
  helper : pairing.helper.Sized config false

theorem Pairing.Lacks.size_bounds (hlacks : pairing.Lacks config) :
    pairing.needy.size + pairing.helper.size =
      pairing.pair.left.size + pairing.pair.right.size ∧
    config.minSize pairing.pair.left.kind ≤ pairing.helper.size ∧
    pairing.helper.size ≤ config.capacity pairing.pair.left.kind := by
  obtain ⟨hkind, _, hleast, hmost⟩ := hlacks
  obtain ⟨direction, around, pair⟩ := pairing
  cases direction with
  | left => exact ⟨Nat.add_comm _ _, hleast, hmost⟩
  | right =>
      rw [← show pair.right.kind = pair.left.kind from hkind.symm]
      exact ⟨rfl, hleast, hmost⟩

theorem Pairing.Lacks.size_pos (hlacks : pairing.Lacks config)
    (hvalid : config.Valid) :
    0 < pairing.pair.left.size ∧ 0 < pairing.pair.right.size := by
  have hbounds := hvalid.minSize_bounds pairing.pair.left.kind
  have hsizes := hlacks.size_bounds
  have hneedy := hlacks.needy
  obtain ⟨direction, around, pair⟩ := pairing
  cases direction <;> simp only [Pairing.needy, Pairing.helper] at * <;> omega

theorem Pairing.Lacks.merge_sized (hlacks : pairing.Lacks config)
    (hvalid : config.Valid) (hjoins : pairing.Joins config) :
    (merge pairing.pair).Sized config false := by
  have hbounds := hvalid.minSize_bounds pairing.pair.left.kind
  have hsizes := hlacks.size_bounds
  have hneedy := hlacks.needy
  unfold Pairing.Joins at hjoins
  unfold Sized
  rw [merge_kind, merge_size hlacks.kind]
  simp only [Config.leastSize]
  omega

/-- A borrow moves the seam of the two pages by one entry. -/
theorem Pairing.borrow_eq_cut (pairing : Pairing V) :
    borrow pairing.direction pairing.pair =
      (merge pairing.pair).cut
        (match pairing.direction with
          | .right => pairing.pair.left.size + 1
          | .left => pairing.pair.left.size - 1) pairing.pair.right.page := by
  obtain ⟨direction, around, pair⟩ := pairing
  cases direction <;> rfl

theorem Pairing.Lacks.exists_borrow (hlacks : pairing.Lacks config)
    (hvalid : config.Valid) (hfull : ¬ pairing.Joins config) :
    ∃ n shifted,
      borrow pairing.direction pairing.pair = some shifted ∧
        (merge pairing.pair).cut n pairing.pair.right.page = some shifted ∧
        0 < n ∧
        shifted.left.Sized config false ∧ shifted.right.Sized config false := by
  have hbounds := hvalid.minSize_bounds pairing.pair.left.kind
  have hsizes := hlacks.size_bounds
  have hneedy := hlacks.needy
  have hmerged := merge_size hlacks.kind
  unfold Pairing.Joins at hfull
  rw [pairing.borrow_eq_cut]
  have hseam : ∃ n, (match pairing.direction with
      | .right => pairing.pair.left.size + 1
      | .left => pairing.pair.left.size - 1) = n ∧
        config.minSize pairing.pair.left.kind ≤ n ∧
        n ≤ config.capacity pairing.pair.left.kind ∧
        config.minSize pairing.pair.left.kind ≤ (merge pairing.pair).size - n ∧
        (merge pairing.pair).size - n ≤
          config.capacity pairing.pair.left.kind := by
    refine ⟨_, rfl, ?_⟩
    obtain ⟨direction, around, left, separator, right⟩ := pairing
    cases direction <;> simp only [Pairing.needy, Pairing.helper] at * <;> omega
  obtain ⟨n, hn, hleft, hleftMost, hright, hrightMost⟩ := hseam
  rw [hn]
  obtain ⟨shifted, hcut⟩ :=
    exists_cut (t := merge pairing.pair) (n := n) (by omega)
      pairing.pair.right.page
  have hparts := cutInto hcut
  refine ⟨n, shifted, hcut, hcut, by omega, ?_, ?_⟩
  · unfold Sized
    rw [hparts.leftKind, hparts.leftSize, merge_kind]
    exact ⟨hleft, hleftMost⟩
  · unfold Sized
    rw [hparts.rightKind, hparts.rightSize, merge_kind]
    exact ⟨hright, hrightMost⟩

theorem Frame.lacks_pairUp {frame : Frame V} {t : Subtree V} {level : Nat}
    {leftBounds rightBounds : Bounds} (hpair : frame.pairUp t = some pairing)
    (hleft : pairing.pair.left.Fits config level leftBounds)
    (hright : pairing.pair.right.Fits config level rightBounds)
    (hhelper : pairing.helper.Sized config false)
    (hsize : t.size + 1 = config.minSize t.kind) : pairing.Lacks config := by
  have hkind : pairing.pair.left.kind = pairing.pair.right.kind :=
    hleft.kind_eq.trans hright.kind_eq.symm
  have hneedy := needy_pairUp hpair
  refine ⟨hkind, ?_, hhelper⟩
  have hsame : pairing.pair.left.kind = t.kind := by
    rcases pairUp_cases hpair with ⟨_, _, _, _, rfl⟩ | ⟨_, _, _, _, _, rfl⟩
    · rfl
    · exact hkind
  rw [hneedy, hsize, hsame]

theorem Config.Valid.two_le_width (hvalid : config.Valid) {isRoot : Bool}
    {width : Nat} (hwidth : config.leastSize isRoot .branch ≤ width) :
    2 ≤ width := by
  have hbounds := hvalid.minSize_bounds .branch
  cases isRoot with
  | true => exact hwidth
  | false => exact Nat.le_trans hbounds.2.2 hwidth

/-- How a page in the gap of a branch is repaired. -/
inductive Repair (config : Config) (frame : Frame V) (t : Subtree V) : Prop
  | needless : t.Sized config false → Repair config frame t
  | merge (pairing : Pairing V) :
      frame.pairUp t = some pairing → t.size < config.minSize t.kind →
      pairing.Lacks config → pairing.Joins config → Repair config frame t
  | borrow (pairing : Pairing V) (shifted : Siblings (Subtree V)) (n : Nat) :
      frame.pairUp t = some pairing → t.size < config.minSize t.kind →
      pairing.Lacks config → ¬ pairing.Joins config →
      Subtree.borrow pairing.direction pairing.pair = some shifted →
      (Subtree.merge pairing.pair).cut n pairing.pair.right.page =
        some shifted → 0 < n →
      shifted.left.Sized config false → shifted.right.Sized config false →
      Repair config frame t

/-- A page that lacks at most one entry can be repaired. -/
theorem Repair.of_fits {frame : Frame V} {t : Subtree V} {level : Nat}
    {bounds : Bounds} (hvalid : config.Valid) (hwidth : 2 ≤ frame.width)
    (haround : frame.FitsAround config level bounds)
    (hfits : t.Fits config level (frame.gap bounds))
    (hshrunk : t.Shrunk config false) : Repair config frame t := by
  obtain ⟨hleast, hmost⟩ := hshrunk
  have hlacksOne : config.minSize t.kind ≤ t.size + 1 := hleast
  by_cases hsized : config.minSize t.kind ≤ t.size
  · exact .needless ⟨hsized, hmost⟩
  · obtain ⟨pairing, hpair⟩ := frame.exists_pairUp hwidth t
    obtain ⟨_, hhelper, hleft, hright⟩ := haround.pairUp hfits hpair
    have hlacks := Frame.lacks_pairUp hpair hleft hright hhelper (by omega)
    have hunder := Nat.not_le.mp hsized
    by_cases hjoins : pairing.Joins config
    · exact .merge pairing hpair hunder hlacks hjoins
    · obtain ⟨n, shifted, hborrow, hcut, hpos, hsizedLeft, hsizedRight⟩ :=
        hlacks.exists_borrow hvalid hjoins
      exact .borrow pairing shifted n hpair hunder hlacks hjoins hborrow hcut
        hpos hsizedLeft hsizedRight

end Repair

/-! ## The climb -/

namespace Context

variable {config : Config} {height level : Nat} {context : Context V}
  {bounds : Bounds} {t : Subtree V}

theorem repairUp_of_sized (height : Nat) (context : Context V)
    (hsized : t.Sized config context.isEmpty) :
    context.repairUp config height t = { tree := context.plug t, height } := by
  cases context with
  | nil =>
      cases t with
      | leaf page contents => rfl
      | branch page children =>
          have htwo : 2 ≤ (Subtree.branch page children).size := hsized.1
          rw [size_branch] at htwo
          match children, htwo with
          | _ :: _ :: _, _ => rfl
  | cons frame rest =>
      have hleast : config.minSize t.kind ≤ t.size := hsized.1
      have hnot : t.node.isUnderfull config = false := by
        have hnlt : ¬ t.node.size < config.minSize t.node.kind :=
          Nat.not_lt.mpr hleast
        simpa [Node.isUnderfull] using hnlt
      rw [repairUp, hnot]
      rfl

section Climb

variable {frame : Frame V} {rest : Context V} {pairing : Pairing V}

theorem isUnderfull_of_size (hsize : t.size < config.minSize t.kind) :
    t.node.isUnderfull config = true := by
  have hlt : t.node.size < config.minSize t.node.kind := hsize
  simpa [Node.isUnderfull] using hlt

theorem repairUp_merge (hpair : frame.pairUp t = some pairing)
    (hsize : t.size < config.minSize t.kind) (hjoins : pairing.Joins config) :
    repairUp config height (frame :: rest) t =
      (repairUp config height rest
        (pairing.around.plug (merge pairing.pair))).report
        (.rebalanced pairing.pair.left.kind pairing.direction .merge
          (frame.width - 1)) := by
  rw [repairUp, isUnderfull_of_size hsize, if_pos rfl, hpair]
  simp only [if_pos hjoins]

theorem repairUp_borrow {shifted : Siblings (Subtree V)}
    (hpair : frame.pairUp t = some pairing)
    (hsize : t.size < config.minSize t.kind) (hfull : ¬ pairing.Joins config)
    (hborrow : borrow pairing.direction pairing.pair = some shifted) :
    repairUp config height (frame :: rest) t = {
      tree := plug rest (pairing.fill shifted)
      height
      events := [.rebalanced pairing.pair.left.kind pairing.direction .borrow
        frame.width] } := by
  rw [repairUp, isUnderfull_of_size hsize, if_pos rfl, hpair]
  simp only [if_neg hfull, hborrow]

end Climb

theorem repairUp_root (hvalid : config.Valid)
    (hfits : t.Fits config height .all) (hshrunk : t.Shrunk config true) :
    (repairUp config height [] t).tree.WellFormed config
        (repairUp config height [] t).height ∧
      (repairUp config height [] t).tree.entries = t.entries := by
  by_cases hsized : config.leastSize true t.kind ≤ t.size
  · rw [repairUp_of_sized height [] ⟨hsized, hshrunk.2⟩]
    exact ⟨⟨hfits, hsized, hshrunk.2⟩, rfl⟩
  · -- only a branch with a single child is smaller than a root may be
    cases hfits with
    | leaf hleaf => simp [Config.leastSize] at hsized
    | @branch below _ page children hne hall hchildren =>
        rw [size_branch, kind_branch, Config.leastSize] at hsized
        obtain ⟨⟨key, child⟩, rest, rfl⟩ := List.exists_cons_of_ne_nil hne
        cases rest with
        | cons second rest => simp at hsized
        | nil =>
            have hchild := hall (key, child) List.mem_cons_self
            rw [repairUp]
            refine ⟨⟨by simpa [childBounds] using hchildren, ?_, hchild.2⟩, ?_⟩
            · exact Nat.le_trans (hvalid.leastSize_true_le child.kind) hchild.1
            · rw [entries_branch, entriesIn_cellsOf_cons, entriesIn_cellsOf_nil,
                List.append_nil]

theorem branch_shrunk {frame : Frame V} {rest : Context V} {pairing : Pairing V}
    (hvalid : config.Valid) (haround : frame.FitsAround config level bounds)
    (hwidth : config.leastSize rest.isEmpty .branch ≤ frame.width)
    (hcapacity : frame.width ≤ config.capacity .branch)
    (hfits : t.Fits config level (frame.gap bounds))
    (hpair : frame.pairUp t = some pairing) (hlacks : pairing.Lacks config)
    (hjoins : pairing.Joins config) :
    (pairing.around.plug (merge pairing.pair)).Fits config (level + 1) bounds ∧
      (pairing.around.plug (merge pairing.pair)).Shrunk config
        rest.isEmpty := by
  obtain ⟨hrestAround, _, hleft, hright⟩ := haround.pairUp hfits hpair
  have hsum := frame.width_pairUp hpair
  refine ⟨hrestAround.plug (hlacks.merge_sized hvalid hjoins)
    (hleft.merge hright), ?_, ?_⟩
  · rw [Frame.plug_size, Frame.plug_kind, ← hsum]
    exact hwidth
  · rw [Frame.plug_size, Frame.plug_kind]
    omega

/-- The climb ends in a tree that fits and has the entries that it had before.
-/
theorem repairUp_correct (hvalid : config.Valid)
    (hcontext : context.Fits config height level bounds)
    (hfits : t.Fits config level bounds)
    (hshrunk : t.Shrunk config context.isEmpty) :
    (context.repairUp config height t).tree.WellFormed config
        (context.repairUp config height t).height ∧
      (context.repairUp config height t).tree.entries =
        (context.plug t).entries := by
  induction hcontext generalizing t with
  | root => exact repairUp_root hvalid hfits hshrunk
  | @inner frame rest level bounds hrest haround hwidth hcapacity ih =>
      have hrepair :=
        Repair.of_fits hvalid (hvalid.two_le_width hwidth) haround hfits hshrunk
      cases hrepair with
      | needless hsized =>
          rw [repairUp_of_sized height (frame :: rest) hsized]
          exact ⟨(Fits.inner hrest haround hwidth hcapacity).plug hsized hfits,
            rfl⟩
      | merge pairing hpair hunder hlacks hjoins =>
          obtain ⟨hbranch, hbranchSize⟩ :=
            branch_shrunk hvalid haround hwidth hcapacity hfits hpair hlacks
              hjoins
          obtain ⟨hwell, hentries⟩ := ih hbranch hbranchSize
          rw [repairUp_merge hpair hunder hjoins]
          refine ⟨hwell, hentries.trans ?_⟩
          rw [plug, entries_plug, entries_plug, ← Frame.fill_pairUp hpair,
            pairing.entries_merge hlacks.kind]
      | borrow pairing shifted n hpair hunder hlacks hfull hborrow hcut hpos
          hsizedLeft hsizedRight =>
        obtain ⟨hrestAround, _, hleft, hright⟩ := haround.pairUp hfits hpair
        obtain ⟨hfitsLeft, hfitsRight⟩ := (hleft.merge hright).cut hpos hcut
        have hfill : (pairing.fill shifted).size = frame.width := by
          rw [pairing.size_fill, Frame.width_pairUp hpair]
        rw [repairUp_borrow hpair hunder hfull hborrow]
        constructor
        · exact hrest.plug ⟨hfill ▸ hwidth, hfill ▸ hcapacity⟩
            (hrestAround.fill_pair hsizedLeft hsizedRight hfitsLeft hfitsRight)
        · rw [plug, entries_plug, entries_plug, ← Frame.fill_pairUp hpair,
            pairing.entries_fill, pairing.entries_fill, (cutInto hcut).entries,
            merge_entries hlacks.kind]

end Context

end LatchTree

import LatchTree.Error
import LatchTree.Proofs.Subtree.Basic

/-!
# Well-formed subtrees

A subtree fits into bounds if its leaves all lie at one depth, each fits into
the bounds that the separators above it set, and the pages below its own page
keep the limits on their size.  Nothing is said about the size of the page
itself: a page that an operation has just changed may be overfull or
underfull.  The leaves of such a subtree tile its bounds from left to right.
-/

namespace LatchTree

namespace Config

def Valid (config : Config) : Prop :=
  minDegree ≤ config.degree

theorem validate_eq_ok_iff {config : Config} :
    config.validate = .ok () ↔ config.Valid := by
  unfold validate Valid
  by_cases hdegree : config.degree < minDegree
  · rw [if_pos hdegree]
    constructor
    · intro hok
      cases hok
    · intro hvalid
      omega
  · rw [if_neg hdegree]
    exact ⟨fun _ => by omega, fun _ => rfl⟩

/-- The least size of a page.  A leaf that is the root may be empty, a branch
that is the root has two children. -/
def leastSize (config : Config) : Bool → PageKind → Nat
  | true, .leaf => 0
  | true, .branch => 2
  | false, kind => config.minSize kind

theorem Valid.minSize_bounds {config : Config} (hvalid : config.Valid)
    (kind : PageKind) :
    config.capacity kind ≤ 2 * config.minSize kind ∧
      2 * config.minSize kind ≤ config.capacity kind + 1 ∧
        2 ≤ config.minSize kind := by
  have hdegree : 3 ≤ config.degree := hvalid
  cases kind <;> simp only [minSize, capacity] <;> omega

theorem Valid.leastSize_true_le {config : Config} (hvalid : config.Valid)
    (kind : PageKind) :
    config.leastSize true kind ≤ config.minSize kind := by
  have hbounds := hvalid.minSize_bounds kind
  cases kind <;> simp only [leastSize] <;> omega

end Config

namespace Subtree

variable {V : Type}

/-! ## The bounds of children -/

/-- The children, each with the bounds that the separators beside it set. -/
def childBounds : Bounds → List (Key × Subtree V) → List (Bounds × Subtree V)
  | _, [] => []
  | bounds, [(_, child)] => [(bounds, child)]
  | bounds, (_, child) :: (separator, next) :: rest =>
      (⟨bounds.lower, some separator⟩, child) ::
        childBounds ⟨some separator, bounds.upper⟩ ((separator, next) :: rest)

def firstKey (children : List (Key × Subtree V)) : Option Key :=
  children.head?.map (·.1)

@[simp] theorem firstKey_nil : firstKey ([] : List (Key × Subtree V)) = none :=
  rfl

@[simp] theorem firstKey_cons (e : Key × Subtree V)
    (rest : List (Key × Subtree V)) :
    firstKey (e :: rest) = some e.1 :=
  rfl

/-- What holds of each child and its bounds adds up along the separators. -/
theorem children_induction
    {P : Bounds → Subtree V → Prop}
    {motive : Bounds → List (Key × Subtree V) → Prop}
    (one : ∀ bounds key child, P bounds child → motive bounds [(key, child)])
    (cons : ∀ (bounds : Bounds) key child separator next rest,
      P ⟨bounds.lower, some separator⟩ child →
      motive ⟨some separator, bounds.upper⟩ ((separator, next) :: rest) →
      motive bounds ((key, child) :: (separator, next) :: rest))
    {bounds : Bounds} {children : List (Key × Subtree V)}
    (hne : children ≠ [])
    (hgood : ∀ c ∈ childBounds bounds children, P c.1 c.2) :
    motive bounds children := by
  induction children generalizing bounds with
  | nil => exact absurd rfl hne
  | cons first rest ih =>
      obtain ⟨key, child⟩ := first
      cases rest with
      | nil =>
          exact one bounds key child
            (hgood (bounds, child) (by simp [childBounds]))
      | cons second rest =>
          obtain ⟨separator, next⟩ := second
          simp only [childBounds, List.forall_mem_cons] at hgood
          exact cons bounds key child separator next rest hgood.1
            (ih (by simp) hgood.2)

theorem childBounds_append (bounds : Bounds) {left : List (Key × Subtree V)}
    (hleft : left ≠ []) (right : List (Key × Subtree V)) :
    childBounds bounds (left ++ right) =
      childBounds ⟨bounds.lower, (firstKey right).or bounds.upper⟩ left ++
        childBounds ⟨firstKey right, bounds.upper⟩ right := by
  induction left generalizing bounds with
  | nil => exact absurd rfl hleft
  | cons first left ih =>
      obtain ⟨key, child⟩ := first
      cases left with
      | nil =>
          cases right with
          | nil => simp [childBounds]
          | cons second rest =>
              obtain ⟨separator, next⟩ := second
              simp [childBounds]
      | cons second left =>
          obtain ⟨separator, next⟩ := second
          have htail := ih ⟨some separator, bounds.upper⟩ (by simp)
          simp only [List.cons_append] at htail ⊢
          simp only [childBounds, htail, List.cons_append]

theorem childBounds_rekey (bounds : Bounds) (key : Key)
    (children : List (Key × Subtree V)) :
    childBounds bounds (Branch.rekeyEntries key children) =
      childBounds bounds children := by
  match children with
  | [] => rfl
  | [(_, _)] => rfl
  | (_, _) :: (_, _) :: _ => rfl

theorem exists_childBounds (bounds : Bounds) {children : List (Key × Subtree V)}
    {e : Key × Subtree V} (he : e ∈ children) :
    ∃ inner, (inner, e.2) ∈ childBounds bounds children := by
  induction children generalizing bounds with
  | nil => simp at he
  | cons first rest ih =>
      obtain ⟨key, child⟩ := first
      cases rest with
      | nil =>
          rw [List.mem_singleton.mp he]
          exact ⟨bounds, by simp [childBounds]⟩
      | cons second rest =>
          obtain ⟨separator, next⟩ := second
          rcases List.mem_cons.mp he with rfl | hrest
          · exact ⟨_, List.mem_cons_self⟩
          · obtain ⟨inner, hinner⟩ := ih ⟨some separator, bounds.upper⟩ hrest
            exact ⟨inner, List.mem_cons_of_mem _ hinner⟩

theorem mem_of_mem_childBounds {bounds : Bounds}
    {children : List (Key × Subtree V)}
    {c : Bounds × Subtree V} (hc : c ∈ childBounds bounds children) :
    ∃ key, (key, c.2) ∈ children := by
  induction children generalizing bounds with
  | nil => simp [childBounds] at hc
  | cons first rest ih =>
      obtain ⟨key, child⟩ := first
      cases rest with
      | nil =>
          simp only [childBounds, List.mem_singleton] at hc
          subst hc
          exact ⟨key, by simp⟩
      | cons second rest =>
          obtain ⟨separator, next⟩ := second
          simp only [childBounds, List.mem_cons] at hc
          rcases hc with rfl | hc
          · exact ⟨key, List.mem_cons_self⟩
          · obtain ⟨k, hk⟩ := ih hc
            exact ⟨k, List.mem_cons_of_mem _ hk⟩

theorem proper_of_children {bounds : Bounds} {children : List (Key × Subtree V)}
    (hne : children ≠ [])
    (hproper : ∀ c ∈ childBounds bounds children, c.1.Proper) :
    bounds.Proper := by
  refine children_induction (P := fun bounds _ => bounds.Proper)
    (motive := fun bounds _ => bounds.Proper) ?_ ?_ hne hproper
  · intro bounds key child hchild
    exact hchild
  · intro bounds key child separator next rest hchild hrest
    exact hchild.join hrest

theorem separators_of_children {bounds : Bounds}
    {children : List (Key × Subtree V)} (hne : children ≠ [])
    (hproper : ∀ c ∈ childBounds bounds children, c.1.Proper) :
    (children.tail.map (·.1)).Pairwise (· < ·) ∧
      ∀ key ∈ children.tail.map (·.1),
        (∀ lower ∈ bounds.lower, lower < key) ∧
          ∀ upper ∈ bounds.upper, key < upper := by
  have hall :
      bounds.Proper ∧
        (children.tail.map (·.1)).Pairwise (· < ·) ∧
          ∀ key ∈ children.tail.map (·.1),
            (∀ lower ∈ bounds.lower, lower < key) ∧
              ∀ upper ∈ bounds.upper, key < upper := by
    refine children_induction (P := fun bounds _ => bounds.Proper)
      (motive := fun bounds children =>
        bounds.Proper ∧
          (children.tail.map (·.1)).Pairwise (· < ·) ∧
            ∀ key ∈ children.tail.map (·.1),
              (∀ lower ∈ bounds.lower, lower < key) ∧
                ∀ upper ∈ bounds.upper, key < upper)
      ?_ ?_ hne hproper
    · intro bounds key child hchild
      exact ⟨hchild, by simp, by simp⟩
    · rintro bounds key child separator next rest hchild
        ⟨hrest, hsorted, hwithin⟩
      simp only [List.tail_cons, List.map_cons] at hsorted hwithin ⊢
      refine ⟨hchild.join hrest, ?_, ?_⟩
      · refine List.pairwise_cons.mpr ⟨fun k hk => ?_, hsorted⟩
        exact (hwithin k hk).1 separator rfl
      · intro k hk
        rcases List.mem_cons.mp hk with rfl | hk
        · exact ⟨fun lower hlower => hchild lower hlower k rfl,
            fun upper hupper => hrest k rfl upper hupper⟩
        · refine ⟨fun lower hlower => ?_, (hwithin k hk).2⟩
          exact UInt64.lt_trans (hchild lower hlower separator rfl)
            ((hwithin k hk).1 separator rfl)
  exact hall.2

/-! ## Fitting subtrees -/

/-- The size of the page lies between the least size and the capacity of its
kind. -/
def Sized (config : Config) (isRoot : Bool) (t : Subtree V) : Prop :=
  config.leastSize isRoot t.kind ≤ t.size ∧ t.size ≤ config.capacity t.kind

/-- The size of a page to which at most one entry was added. -/
def Swollen (config : Config) (isRoot : Bool) (t : Subtree V) : Prop :=
  config.leastSize isRoot t.kind ≤ t.size ∧ t.size ≤ config.slots t.kind

/-- The size of a page from which at most one entry was taken. -/
def Shrunk (config : Config) (isRoot : Bool) (t : Subtree V) : Prop :=
  config.leastSize isRoot t.kind ≤ t.size + 1 ∧ t.size ≤ config.capacity t.kind

/-- A subtree with the given number of levels that fits into the bounds. -/
inductive Fits (config : Config) : Nat → Bounds → Subtree V → Prop
  | leaf {bounds : Bounds} {page : PageId} {contents : Leaf V} :
      contents.FitsIn bounds → Fits config 1 bounds (.leaf page contents)
  | branch {height : Nat} {bounds : Bounds} {page : PageId}
      {children : List (Key × Subtree V)} :
      children ≠ [] →
      (∀ e ∈ children, e.2.Sized config false) →
      (∀ c ∈ childBounds bounds children, Fits config height c.1 c.2) →
      Fits config (height + 1) bounds (.branch page children)

/-- A whole tree: its root has the size that a root needs, and it covers all
keys. -/
structure WellFormed (config : Config) (height : Nat) (t : Subtree V) :
    Prop where
  fits : t.Fits config height .all
  sized : t.Sized config true

namespace Fits

variable {config : Config} {height : Nat} {bounds : Bounds} {t : Subtree V}

theorem height_pos (hfits : t.Fits config height bounds) : 0 < height := by
  cases hfits with
  | leaf => exact Nat.one_pos
  | branch => exact Nat.succ_pos _

theorem proper (hfits : t.Fits config height bounds) : bounds.Proper := by
  induction hfits with
  | leaf hleaf => exact hleaf.proper
  | branch hne hsized hchildren ih => exact proper_of_children hne ih

theorem one_lt_height {page : PageId} {children : List (Key × Subtree V)}
    (hfits : (Subtree.branch page children).Fits config height bounds) :
    1 < height := by
  cases hfits with
  | branch hne hsized hchildren =>
      obtain ⟨first, rest, rfl⟩ := List.exists_cons_of_ne_nil hne
      obtain ⟨inner, hinner⟩ :=
        exists_childBounds bounds (List.mem_cons_self (a := first) (l := rest))
      have := (hchildren _ hinner).height_pos
      omega

theorem kind_eq (hfits : t.Fits config height bounds) :
    t.kind = if height = 1 then .leaf else .branch := by
  cases t with
  | leaf page contents =>
      cases hfits
      rfl
  | branch page children =>
      have := hfits.one_lt_height
      rw [if_neg (by omega)]
      rfl

theorem height_le_cells (hfits : t.Fits config height bounds) :
    height ≤ t.cells.length := by
  induction hfits with
  | leaf hleaf => simp [cells]
  | @branch height bounds page children hne hsized hchildren ih =>
      obtain ⟨⟨key, child⟩, rest, rfl⟩ := List.exists_cons_of_ne_nil hne
      obtain ⟨inner, hinner⟩ :=
        exists_childBounds bounds
          (List.mem_cons_self (a := (key, child)) (l := rest))
      have hfirst := ih _ hinner
      simp only [cells_branch, cellsOf_cons, List.length_cons,
        List.length_append]
      simp only at hfirst
      omega

/-- The depth of the leaves is the height, whatever the bounds. -/
theorem height_unique (hfits : t.Fits config height bounds)
    {otherConfig : Config} {other : Nat} {otherBounds : Bounds}
    (hother : t.Fits otherConfig other otherBounds) : height = other := by
  induction hfits generalizing other otherBounds with
  | leaf hleaf =>
      cases hother
      rfl
  | @branch height bounds page children hne hsized hchildren ih =>
      cases hother with
      | @branch below _ _ _ _ _ hothers =>
          obtain ⟨first, rest, rfl⟩ := List.exists_cons_of_ne_nil hne
          have hfirst : first ∈ first :: rest := List.mem_cons_self
          obtain ⟨inner, hinner⟩ := exists_childBounds bounds hfirst
          obtain ⟨outer, houter⟩ := exists_childBounds otherBounds hfirst
          rw [ih _ hinner (hothers (outer, first.2) houter)]

end Fits

/-! ## Tiles -/

/-- The leaves fit side by side: each begins where the one before it ends. -/
inductive Tiles : Bounds → List (PageId × Leaf V) → Prop
  | one {bounds : Bounds} {leaf : PageId × Leaf V} :
      leaf.2.FitsIn bounds → Tiles bounds [leaf]
  | cons {bounds : Bounds} {separator : Key} {leaf : PageId × Leaf V}
      {rest : List (PageId × Leaf V)} :
      leaf.2.FitsIn ⟨bounds.lower, some separator⟩ →
      Tiles ⟨some separator, bounds.upper⟩ rest →
      Tiles bounds (leaf :: rest)

namespace Tiles

variable {bounds : Bounds} {tiles : List (PageId × Leaf V)}

theorem append {lower upper : Option Key} {separator : Key}
    {left right : List (PageId × Leaf V)}
    (hleft : Tiles ⟨lower, some separator⟩ left)
    (hright : Tiles ⟨some separator, upper⟩ right) :
    Tiles ⟨lower, upper⟩ (left ++ right) := by
  generalize hbounds : (⟨lower, some separator⟩ : Bounds) = bounds at hleft
  induction hleft generalizing lower with
  | one hleaf =>
      subst hbounds
      exact Tiles.cons hleaf hright
  | cons hleaf _ ih =>
      subst hbounds
      exact .cons hleaf (ih rfl)

theorem proper (htiles : Tiles bounds tiles) : bounds.Proper := by
  induction htiles with
  | one hleaf => exact hleaf.proper
  | cons hleaf _ ih => exact hleaf.proper.join ih

theorem admits (htiles : Tiles bounds tiles) {e : Key × V}
    (he : e ∈ tiles.flatMap (·.2.entries)) : bounds.Admits e.1 := by
  induction htiles with
  | one hleaf => exact hleaf.admits e (by simpa using he)
  | cons hleaf hrest ih =>
      rw [List.flatMap_cons, List.mem_append] at he
      rcases he with he | he
      · exact (hleaf.admits e he).of_left hrest.proper
      · exact (ih he).of_right hleaf.proper

theorem ascending (htiles : Tiles bounds tiles) :
    Ascending (tiles.flatMap (·.2.entries)) := by
  induction htiles with
  | one hleaf => simpa using hleaf.ascending
  | @cons bounds separator leaf rest hleaf hrest ih =>
      rw [List.flatMap_cons]
      refine Ascending.append_iff.mpr ⟨hleaf.ascending, ih, ?_⟩
      intro a ha b hb
      exact UInt64.lt_of_lt_of_le ((hleaf.admits a ha).upper separator rfl)
        ((hrest.admits hb).lower separator rfl)

/-- The tiles before a leaf hold keys below its lower fence.  The tiles behind
it begin at its upper fence, and if there are none, the leaf ends where the
bounds end. -/
theorem split {before after : List (PageId × Leaf V)} {leaf : PageId × Leaf V}
    (htiles : Tiles bounds (before ++ leaf :: after)) :
    ∃ inner : Bounds,
      leaf.2.FitsIn inner ∧
        (∀ lower ∈ bounds.lower, lower ≤ leaf.2.low) ∧
        (∀ e ∈ before.flatMap (·.2.entries), e.1 < leaf.2.low) ∧
        (after = [] ∧ inner.upper = bounds.upper ∨
          ∃ separator, inner.upper = some separator ∧
            Tiles ⟨some separator, bounds.upper⟩ after) := by
  induction before generalizing bounds with
  | nil =>
      rw [List.nil_append] at htiles
      have hlow : ∀ {inner : Bounds}, leaf.2.FitsIn inner →
          inner.lower = bounds.lower →
          ∀ lower ∈ bounds.lower, lower ≤ leaf.2.low := by
        intro inner hleaf hinner lower hlower
        rw [hleaf.low, hinner, Option.mem_def.mp hlower]
        exact UInt64.le_refl lower
      cases htiles with
      | one hleaf =>
          exact ⟨bounds, hleaf, hlow hleaf rfl, by simp, .inl ⟨rfl, rfl⟩⟩
      | @cons _ separator _ _ hleaf hrest =>
          exact ⟨_, hleaf, hlow hleaf rfl, by simp,
            .inr ⟨separator, rfl, hrest⟩⟩
  | cons first before ih =>
      rw [List.cons_append] at htiles
      generalize htail : before ++ leaf :: after = tail at htiles
      cases htiles with
      | one hfirst => simp at htail
      | @cons _ separator _ _ hfirst hrest =>
          subst htail
          obtain ⟨inner, hleaf, hlow, hbefore, hafter⟩ := ih hrest
          have hsep : separator ≤ leaf.2.low := hlow separator rfl
          refine ⟨inner, hleaf, ?_, ?_, hafter⟩
          · intro lower hlower
            have := hfirst.proper lower hlower separator rfl
            exact UInt64.le_of_lt (UInt64.lt_of_lt_of_le this hsep)
          · intro e he
            rw [List.flatMap_cons, List.mem_append] at he
            rcases he with he | he
            · exact UInt64.lt_of_lt_of_le
                ((hfirst.admits e he).upper separator rfl) hsep
            · exact hbefore e he

theorem last_high {before : List (PageId × Leaf V)} {leaf : PageId × Leaf V}
    (htiles : Tiles bounds (before ++ [leaf])) :
    leaf.2.high = bounds.upper := by
  obtain ⟨inner, hleaf, _, _, hafter⟩ := htiles.split
  rcases hafter with ⟨_, hupper⟩ | ⟨separator, _, hnone⟩
  · exact hleaf.high.trans hupper
  · cases hnone

theorem consecutive {before after : List (PageId × Leaf V)}
    {leaf next : PageId × Leaf V}
    (htiles : Tiles bounds (before ++ leaf :: next :: after)) :
    leaf.2.high = some next.2.low ∧ (∀ e ∈ leaf.2.entries, e.1 < next.2.low) ∧
      ∀ e ∈ (next :: after).flatMap (·.2.entries), next.2.low ≤ e.1 := by
  obtain ⟨inner, hleaf, _, _, hafter⟩ := htiles.split
  rcases hafter with ⟨hnil, _⟩ | ⟨separator, hupper, hrest⟩
  · cases hnil
  · have hlow : next.2.low = separator := by
      cases hrest with
      | one hnext => exact hnext.low
      | cons hnext _ => exact hnext.low
    rw [hlow]
    refine ⟨hleaf.high.trans hupper, fun e he => ?_, fun e he => ?_⟩
    · exact (hleaf.admits e he).upper separator hupper
    · exact (hrest.admits he).lower separator rfl

end Tiles

theorem tiles_of_children {bounds : Bounds} {children : List (Key × Subtree V)}
    (hne : children ≠ [])
    (htiles : ∀ c ∈ childBounds bounds children, Tiles c.1 c.2.leaves) :
    Tiles bounds (Cell.leavesIn (cellsOf children)) := by
  refine children_induction (P := fun bounds child => Tiles bounds child.leaves)
    (motive := fun bounds children =>
      Tiles bounds (Cell.leavesIn (cellsOf children)))
    ?_ ?_ hne htiles
  · intro bounds key child hchild
    rw [cellsOf_cons, cellsOf_nil, List.append_nil]
    exact hchild
  · intro bounds key child separator next rest hchild hrest
    rw [cellsOf_cons, Cell.leavesIn_append]
    exact hchild.append hrest

namespace Fits

variable {config : Config} {height : Nat} {bounds : Bounds} {t : Subtree V}

theorem tiles (hfits : t.Fits config height bounds) :
    Tiles bounds t.leaves := by
  induction hfits with
  | leaf hleaf =>
      rw [leaves_leaf]
      exact .one hleaf
  | branch hne hsized hchildren ih =>
      rw [leaves_branch]
      exact tiles_of_children hne ih

theorem ascending (hfits : t.Fits config height bounds) : Ascending t.entries :=
  hfits.tiles.ascending

theorem admits (hfits : t.Fits config height bounds) {e : Key × V}
    (he : e ∈ t.entries) : bounds.Admits e.1 :=
  hfits.tiles.admits he

end Fits

theorem admits_of_children {config : Config} {height : Nat} {bounds : Bounds}
    {children : List (Key × Subtree V)}
    (hchildren : ∀ c ∈ childBounds bounds children, c.2.Fits config height c.1)
    {e : Key × V} (he : e ∈ Cell.entriesIn (cellsOf children)) :
    bounds.Admits e.1 := by
  rcases children.eq_nil_or_concat with rfl | ⟨init, last, rfl⟩
  · simp [Cell.entriesIn] at he
  · exact (tiles_of_children (by simp) fun c hc =>
      (hchildren c hc).tiles).admits he

end Subtree

end LatchTree

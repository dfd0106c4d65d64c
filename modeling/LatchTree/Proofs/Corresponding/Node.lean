import LatchTree.Page.Node
import LatchTree.Proofs.Corresponding.Keys
import LatchTree.Proofs.Page.Branch
import LatchTree.Proofs.Page.Leaf
import LatchTree.Proofs.Runs

/-!
# Corresponding nodes

Two leaves correspond under a key map if their entries and their fences do, and
two branches if their children are the same and their separators correspond.
The key of a first child may be any key on either side.  Searches, splits, merges
and borrows of corresponding nodes come to the same results, up to the map.  The
one first key that could slip through is that of an only child which is lent to
the right, so a lender has to have two children.
-/

namespace LatchTree

variable {V : Type} {g : KeyMap}

namespace Siblings

/-- Related pages with corresponding separators between them. -/
structure Corresponds {α : Type} (g : KeyMap) (R : α → α → Prop)
    (first second : Siblings α) : Prop where
  left : R first.left second.left
  separator : g.Maps first.separator second.separator
  right : R first.right second.right

theorem Corresponds.map {α β : Type} {R : α → α → Prop} {S : β → β → Prop}
    {pair others : Siblings α} (hpair : pair.Corresponds g R others)
    {f : α → β} (hmap : ∀ a b, R a b → S (f a) (f b)) :
    (pair.map f).Corresponds g S (others.map f) :=
  ⟨hmap _ _ hpair.left, hpair.separator, hmap _ _ hpair.right⟩

end Siblings

/-! ## Leaves -/

namespace Leaf

structure Corresponds (g : KeyMap) (first second : Leaf V) : Prop where
  entries : List.Forall₂ g.MapsEntry first.entries second.entries
  low : g.MapsLow first.low second.low
  high : Option.Rel g.Maps first.high second.high

namespace Corresponds

theorem empty : ({} : Leaf V).Corresponds g {} :=
  ⟨.nil, .zero, .none⟩

variable {first second : Leaf V}

theorem length_eq (hleaf : first.Corresponds g second) :
    first.entries.length = second.entries.length :=
  hleaf.entries.length_eq

section Search

variable {key other : Key}

theorem get?_eq (hleaf : first.Corresponds g second) (hkey : g.Maps key other) :
    first.get? key = second.get? other :=
  KeyMap.lookup_eq hleaf.entries hkey

theorem insert (hleaf : first.Corresponds g second) (hkey : g.Maps key other)
    (value : V) :
    (first.insert key value).Corresponds g (second.insert other value) := by
  have hagree : ∀ e f : Key × V, g.MapsEntry e f →
      decide (e.1 < key) = decide (f.1 < other) :=
    fun e f hentry => decide_eq_decide.mpr (hentry.key.lt_iff hkey)
  have hbelow := forall₂_takeWhile hleaf.entries hagree
  have habove := forall₂_dropWhile hleaf.entries hagree
  exact ⟨List.rel_append hbelow (.cons ⟨hkey, rfl⟩ habove), hleaf.low,
    hleaf.high⟩

theorem erase (hleaf : first.Corresponds g second) (hkey : g.Maps key other) :
    (first.erase key).Corresponds g (second.erase other) :=
  ⟨forall₂_eraseP hleaf.entries fun _ _ hentry => hentry.key.beq_eq hkey,
    hleaf.low, hleaf.high⟩

theorem entriesFrom (hleaf : first.Corresponds g second)
    (hkey : g.Maps key other) :
    List.Forall₂ g.MapsEntry (first.entriesFrom key)
      (second.entriesFrom other) :=
  forall₂_dropWhile hleaf.entries fun _ _ hentry =>
    decide_eq_decide.mpr (hentry.key.lt_iff hkey)

end Search

theorem drained (hleaf : first.Corresponds g second) :
    first.drained.Corresponds g second.drained :=
  ⟨.nil, hleaf.low, hleaf.high⟩

theorem cut (hleaf : first.Corresponds g second) (n : Nat) :
    Option.Rel (Siblings.Corresponds g (Corresponds g)) (first.cut n)
      (second.cut n) := by
  have htake := List.forall₂_take n hleaf.entries
  have hdrop := List.forall₂_drop n hleaf.entries
  unfold Leaf.cut
  cases hfirst : first.entries.drop n with
  | nil =>
      rw [hfirst, List.forall₂_nil_left_iff] at hdrop
      rw [hdrop]
      exact .none
  | cons e rest =>
      rw [hfirst, List.forall₂_cons_left_iff] at hdrop
      obtain ⟨f, more, hentry, hrest, hsecond⟩ := hdrop
      rw [hsecond]
      exact .some ⟨⟨htake, hleaf.low, .some hentry.key⟩, hentry.key,
        ⟨.cons hentry hrest, .maps hentry.key, hleaf.high⟩⟩

theorem split (hleaf : first.Corresponds g second) :
    Option.Rel (Siblings.Corresponds g (Corresponds g)) first.split
      second.split := by
  rw [split_eq_cut, split_eq_cut, hleaf.length_eq]
  exact hleaf.cut _

section Pair

variable {pair others : Siblings (Leaf V)}

theorem merge (hpair : pair.Corresponds g (Corresponds g) others) :
    (Leaf.merge pair).Corresponds g (Leaf.merge others) :=
  ⟨List.rel_append hpair.left.entries hpair.right.entries, hpair.left.low,
    hpair.right.high⟩

theorem borrow (hpair : pair.Corresponds g (Corresponds g) others)
    (donor : Direction) :
    Option.Rel (Siblings.Corresponds g (Corresponds g))
      (Leaf.borrow donor pair) (Leaf.borrow donor others) := by
  have hlength := hpair.left.length_eq
  cases donor with
  | right =>
      rw [Leaf.borrow, Leaf.borrow, shiftLeft_eq_cut, shiftLeft_eq_cut, hlength]
      exact (merge hpair).cut _
  | left =>
      have hnil : pair.left.entries = [] ↔ others.left.entries = [] := by
        rw [← List.length_eq_zero_iff, hlength, List.length_eq_zero_iff]
      rw [Leaf.borrow, Leaf.borrow]
      by_cases hempty : pair.left.entries = []
      · rw [shiftRight, shiftRight, hempty, hnil.mp hempty]
        exact .none
      · rw [shiftRight_eq_cut pair hempty,
          shiftRight_eq_cut others (mt hnil.mpr hempty), hlength]
        exact (merge hpair).cut _

end Pair

end Corresponds

end Leaf

/-! ## Branches -/

namespace Branch

theorem shiftRight_eq_none {pair : Siblings Branch}
    (hempty : pair.right.entries = []) : shiftRight pair = none := by
  unfold shiftRight Branch.rekeyed
  rw [hempty]
  cases pair.left.entries.getLast? <;> rfl

inductive Corresponds (g : KeyMap) : Branch → Branch → Prop
  | empty : Corresponds g ⟨[]⟩ ⟨[]⟩
  | rekeyed (key other : Key) (child : PageId)
      {rest more : List (Key × PageId)} :
      List.Forall₂ g.MapsEntry rest more →
        Corresponds g ⟨(key, child) :: rest⟩ ⟨(other, child) :: more⟩

namespace Corresponds

theorem of_entries {entries others : List (Key × PageId)}
    (hall : List.Forall₂ g.MapsEntry entries others) :
    Corresponds g ⟨entries⟩ ⟨others⟩ := by
  cases hall with
  | nil => exact .empty
  | @cons e f _ _ hentry hrest =>
      obtain ⟨key, child⟩ := e
      obtain ⟨other, _⟩ := f
      obtain ⟨_, rfl⟩ := hentry
      exact .rekeyed key other child hrest

variable {first second : Branch}

theorem append (hbranch : first.Corresponds g second)
    {entries others : List (Key × PageId)}
    (hall : List.Forall₂ g.MapsEntry entries others) :
    Corresponds g ⟨first.entries ++ entries⟩ ⟨second.entries ++ others⟩ := by
  cases hbranch with
  | empty => exact of_entries hall
  | rekeyed key other child hrest =>
      exact .rekeyed key other child (List.rel_append hrest hall)

theorem length_eq (hbranch : first.Corresponds g second) :
    first.entries.length = second.entries.length := by
  cases hbranch with
  | empty => rfl
  | rekeyed key other child hrest =>
      rw [List.length_cons, List.length_cons, hrest.length_eq]

theorem slotFor_eq (hbranch : first.Corresponds g second) {key other : Key}
    (hkey : g.Maps key other) : first.slotFor key = second.slotFor other := by
  cases hbranch with
  | empty => rfl
  | @rekeyed _ _ _ rest more hrest =>
      have hbelow : List.Forall₂ g.MapsEntry (rest.takeWhile (·.1 ≤ key))
          (more.takeWhile (·.1 ≤ other)) :=
        forall₂_takeWhile hrest fun _ _ hentry =>
          decide_eq_decide.mpr (hentry.key.le_iff hkey)
      exact hbelow.length_eq

theorem getElem?_succ (hbranch : first.Corresponds g second) (slot : Nat) :
    Option.Rel g.MapsEntry first.entries[slot + 1]?
      second.entries[slot + 1]? := by
  cases hbranch with
  | empty => exact .none
  | rekeyed _ _ _ hrest => exact forall₂_getElem? hrest slot

theorem entry_succ (hbranch : first.Corresponds g second) (slot : Nat) :
    Follows g.MapsEntry (first.entry (slot + 1)) (second.entry (slot + 1)) := by
  have hentry := hbranch.getElem?_succ slot
  unfold entry
  generalize first.entries[slot + 1]? = left at hentry ⊢
  generalize second.entries[slot + 1]? = right at hentry ⊢
  cases hentry with
  | none => exact .error _ _
  | some hentry => exact .ok hentry

/-- Behind every slot stands the same child, the first one included. -/
theorem child_eq (hbranch : first.Corresponds g second) (slot : Nat) :
    first.child slot = second.child slot := by
  cases slot with
  | zero => cases hbranch <;> rfl
  | succ slot =>
      have hentry := hbranch.getElem?_succ slot
      unfold child entry
      generalize first.entries[slot + 1]? = left at hentry ⊢
      generalize second.entries[slot + 1]? = right at hentry ⊢
      cases hentry with
      | none => rfl
      | some hentry => exact congrArg Except.ok hentry.content

theorem neighbours_eq (hbranch : first.Corresponds g second) (page : PageId)
    (slot : Nat) : first.neighbours page slot = second.neighbours page slot := by
  unfold neighbours
  simp only [hbranch.length_eq, hbranch.child_eq]

theorem insertAfter (hbranch : first.Corresponds g second) (slot : Nat)
    {entry other : Key × PageId} (hentry : g.MapsEntry entry other) :
    Follows (Corresponds g) (first.insertAfter slot entry)
      (second.insertAfter slot other) := by
  have hnext : (first.entries[slot + 1]?.all fun next =>
        decide (entry.1 < next.1)) =
      second.entries[slot + 1]?.all fun next => decide (other.1 < next.1) :=
    all_eq_of_rel (hbranch.getElem?_succ slot) fun _ _ hnext =>
      decide_eq_decide.mpr (hentry.key.lt_iff hnext.key)
  unfold Branch.insertAfter
  rw [hbranch.length_eq, hnext]
  split
  · exact .error _ _
  · split
    · cases hbranch with
      | empty => exact .ok .empty
      | rekeyed key other child hrest =>
          exact .ok (.rekeyed key other child
            (forall₂_insertIdx hrest slot hentry))
    · exact .error _ _

theorem eraseSlot (hbranch : first.Corresponds g second) (slot : Nat) :
    (first.eraseSlot slot).Corresponds g (second.eraseSlot slot) := by
  cases hbranch with
  | empty => exact .empty
  | rekeyed key other child hrest =>
      cases slot with
      | zero => exact of_entries hrest
      | succ slot => exact .rekeyed key other child (forall₂_eraseIdx hrest slot)

theorem setKey (hbranch : first.Corresponds g second) (slot : Nat)
    {key other : Key} (hkey : g.Maps key other) :
    (first.setKey slot key).Corresponds g (second.setKey slot other) := by
  cases hbranch with
  | empty => cases slot <;> exact .empty
  | rekeyed old otherOld child hrest =>
      cases slot with
      | zero => exact .rekeyed key other child hrest
      | succ slot =>
          exact .rekeyed old otherOld child (forall₂_modify hrest slot
            fun _ _ hentry => ⟨hkey, hentry.content⟩)

/-- With a child left in front of the cut, the separator and all that moves
stand behind the first key. -/
theorem cut_succ (hbranch : first.Corresponds g second) (n : Nat) :
    Option.Rel (Siblings.Corresponds g (Corresponds g)) (first.cut (n + 1))
      (second.cut (n + 1)) := by
  cases hbranch with
  | empty => exact .none
  | rekeyed key other child hrest =>
      have htake := List.forall₂_take n hrest
      have hdrop := List.forall₂_drop n hrest
      simp only [cut, cutEntries, List.drop_succ_cons, List.take_succ_cons]
      generalize List.drop n _ = entries at hdrop ⊢
      generalize List.drop n _ = others at hdrop ⊢
      cases hdrop with
      | nil => exact .none
      | cons hentry hlater =>
          exact .some ⟨.rekeyed key other child htake, hentry.key,
            of_entries (.cons hentry hlater)⟩

theorem split (hbranch : first.Corresponds g second) :
    Option.Rel (Siblings.Corresponds g (Corresponds g)) first.split
      second.split := by
  rw [split_eq_cut, split_eq_cut, hbranch.length_eq]
  cases hbranch with
  | empty => exact .none
  | @rekeyed key other child rest more hrest =>
      have hkept : (more.length + 1) - (more.length + 1) / 2 =
          more.length / 2 + 1 := by omega
      rw [List.length_cons, hkept]
      exact (rekeyed key other child hrest).cut_succ _

section Pair

variable {pair others : Siblings Branch}

theorem merge (hpair : pair.Corresponds g (Corresponds g) others) :
    (Branch.merge pair).Corresponds g (Branch.merge others) := by
  obtain ⟨left, separator, right⟩ := pair
  obtain ⟨otherLeft, otherSeparator, otherRight⟩ := others
  obtain ⟨hleft, hseparator, hright⟩ := hpair
  cases hright with
  | empty => exact hleft.append .nil
  | rekeyed key other child hrest =>
      exact hleft.append (.cons ⟨hseparator, rfl⟩ hrest)

/-- The last child of a lender on the left is not its first. -/
theorem borrow (hpair : pair.Corresponds g (Corresponds g) others)
    {donor : Direction} (hlender : donor = .left → 2 ≤ pair.left.entries.length) :
    Option.Rel (Siblings.Corresponds g (Corresponds g))
      (Branch.borrow donor pair) (Branch.borrow donor others) := by
  have hlength := hpair.left.length_eq
  have hmerge := merge hpair
  cases donor with
  | right =>
      rw [Branch.borrow, Branch.borrow, shiftLeft_eq_cut, shiftLeft_eq_cut,
        hlength]
      exact hmerge.cut_succ _
  | left =>
      have hleft := hlender rfl
      have hpred : pair.left.entries.length - 1 =
          (pair.left.entries.length - 2) + 1 := by omega
      have hlast : pair.left.entries ≠ [] := by
        rw [← List.length_pos_iff]
        omega
      have hotherLast : others.left.entries ≠ [] := by
        rw [← List.length_pos_iff]
        omega
      have hnil : pair.right.entries = [] ↔ others.right.entries = [] := by
        rw [← List.length_eq_zero_iff, hpair.right.length_eq,
          List.length_eq_zero_iff]
      rw [Branch.borrow, Branch.borrow]
      by_cases hempty : pair.right.entries = []
      · rw [shiftRight_eq_none hempty, shiftRight_eq_none (hnil.mp hempty)]
        exact .none
      · rw [shiftRight_eq_cut pair hlast hempty,
          shiftRight_eq_cut others hotherLast (mt hnil.mpr hempty), ← hlength,
          hpred]
        exact hmerge.cut_succ _

end Pair

end Corresponds

end Branch

/-! ## Nodes -/

namespace Node

inductive Corresponds (g : KeyMap) : Node V → Node V → Prop
  | leaf {first second : Leaf V} :
      first.Corresponds g second → Corresponds g (.leaf first) (.leaf second)
  | branch {first second : Branch} :
      first.Corresponds g second →
        Corresponds g (.branch first) (.branch second)

namespace Corresponds

variable {first second : Node V}

theorem kind_eq (hnode : first.Corresponds g second) :
    first.kind = second.kind := by
  cases hnode <;> rfl

theorem size_eq (hnode : first.Corresponds g second) :
    first.size = second.size := by
  cases hnode with
  | leaf hleaf => exact hleaf.length_eq
  | branch hbranch => exact hbranch.length_eq

theorem isOverfull_eq (hnode : first.Corresponds g second) (config : Config) :
    first.isOverfull config = second.isOverfull config := by
  unfold isOverfull
  rw [hnode.kind_eq, hnode.size_eq]

theorem isUnderfull_eq (hnode : first.Corresponds g second) (config : Config) :
    first.isUnderfull config = second.isUnderfull config := by
  unfold isUnderfull
  rw [hnode.kind_eq, hnode.size_eq]

theorem isSafe_eq (hnode : first.Corresponds g second) (config : Config)
    (access : Access) (isRoot : Bool) :
    first.isSafe config access isRoot = second.isSafe config access isRoot := by
  have hsize := hnode.size_eq
  have hkind := hnode.kind_eq
  cases access with
  | read => rfl
  | insert =>
      change decide (first.size < config.capacity first.kind) =
        decide (second.size < config.capacity second.kind)
      rw [hsize, hkind]
  | delete =>
      cases isRoot with
      | false =>
          change decide (config.minSize first.kind < first.size) =
            decide (config.minSize second.kind < second.size)
          rw [hsize, hkind]
      | true =>
          cases hnode with
          | leaf hleaf => rfl
          | branch hbranch =>
              exact decide_eq_decide.mpr (by rw [hbranch.length_eq])

theorem split (hnode : first.Corresponds g second) :
    Follows (Siblings.Corresponds g (Corresponds g)) first.split
      second.split := by
  cases hnode with
  | @leaf first second hleaf =>
      have hsplit := hleaf.split
      simp only [Node.split]
      generalize first.split = left at hsplit ⊢
      generalize second.split = right at hsplit ⊢
      cases hsplit with
      | none => exact .error _ _
      | some hpair => exact .ok (hpair.map fun _ _ => .leaf)
  | @branch first second hbranch =>
      have hsplit := hbranch.split
      simp only [Node.split]
      generalize first.split = left at hsplit ⊢
      generalize second.split = right at hsplit ⊢
      cases hsplit with
      | none => exact .error _ _
      | some hpair => exact .ok (hpair.map fun _ _ => .branch)

section Pair

variable {pair others : Siblings (Node V)}

theorem merge (hpair : pair.Corresponds g (Corresponds g) others) :
    Follows (fun a b => a.1.Corresponds g b.1 ∧ a.2.Corresponds g b.2)
      (Node.merge pair) (Node.merge others) := by
  obtain ⟨left, separator, right⟩ := pair
  obtain ⟨otherLeft, otherSeparator, otherRight⟩ := others
  obtain ⟨hleft, hseparator, hright⟩ := hpair
  cases hleft with
  | @leaf left otherLeft hleft =>
      cases hright with
      | branch => exact .error _ _
      | @leaf right otherRight hright =>
          have hleaves : Siblings.Corresponds g (Leaf.Corresponds g)
              ⟨left, separator, right⟩
              ⟨otherLeft, otherSeparator, otherRight⟩ :=
            ⟨hleft, hseparator, hright⟩
          exact .ok ⟨.leaf (.merge hleaves), .leaf hright.drained⟩
  | @branch left otherLeft hleft =>
      cases hright with
      | leaf => exact .error _ _
      | @branch right otherRight hright =>
          have hbranches : Siblings.Corresponds g (Branch.Corresponds g)
              ⟨left, separator, right⟩
              ⟨otherLeft, otherSeparator, otherRight⟩ :=
            ⟨hleft, hseparator, hright⟩
          exact .ok ⟨.branch (.merge hbranches), .branch .empty⟩

theorem borrow (hpair : pair.Corresponds g (Corresponds g) others)
    {donor : Direction} (hlender : donor = .left → 2 ≤ pair.left.size) :
    Follows (Siblings.Corresponds g (Corresponds g)) (Node.borrow donor pair)
      (Node.borrow donor others) := by
  obtain ⟨left, separator, right⟩ := pair
  obtain ⟨otherLeft, otherSeparator, otherRight⟩ := others
  obtain ⟨hleft, hseparator, hright⟩ := hpair
  cases hleft with
  | @leaf left otherLeft hleft =>
      cases hright with
      | branch => exact .error _ _
      | @leaf right otherRight hright =>
          have hleaves : Siblings.Corresponds g (Leaf.Corresponds g)
              ⟨left, separator, right⟩
              ⟨otherLeft, otherSeparator, otherRight⟩ :=
            ⟨hleft, hseparator, hright⟩
          have hborrow := Leaf.Corresponds.borrow hleaves donor
          simp only [Node.borrow]
          generalize Leaf.borrow donor ⟨left, separator, right⟩ = shifted
            at hborrow ⊢
          generalize Leaf.borrow donor ⟨otherLeft, otherSeparator, otherRight⟩ =
            otherShifted at hborrow ⊢
          cases hborrow with
          | none => exact .error _ _
          | some hshifted => exact .ok (hshifted.map fun _ _ => .leaf)
  | @branch left otherLeft hleft =>
      cases hright with
      | leaf => exact .error _ _
      | @branch right otherRight hright =>
          have hbranches : Siblings.Corresponds g (Branch.Corresponds g)
              ⟨left, separator, right⟩
              ⟨otherLeft, otherSeparator, otherRight⟩ :=
            ⟨hleft, hseparator, hright⟩
          have hborrow := Branch.Corresponds.borrow hbranches hlender
          simp only [Node.borrow]
          generalize Branch.borrow donor ⟨left, separator, right⟩ = shifted
            at hborrow ⊢
          generalize Branch.borrow donor
            ⟨otherLeft, otherSeparator, otherRight⟩ = otherShifted
            at hborrow ⊢
          cases hborrow with
          | none => exact .error _ _
          | some hshifted => exact .ok (hshifted.map fun _ _ => .branch)

end Pair

end Corresponds

end Node

end LatchTree

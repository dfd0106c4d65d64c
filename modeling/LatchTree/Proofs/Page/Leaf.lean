import LatchTree.Page.Leaf
import LatchTree.Proofs.Ascending

/-!
# Leaves as maps

A leaf fits into bounds if its entries ascend between them and its fences are
the bounds.  Insertion and erasure keep that.  Splits and borrows are one
operation, a cut: the entries of a leaf, or of two merged leaves, are divided at
a position, and the first key behind the cut becomes the fence between the two
parts.
-/

namespace LatchTree

namespace Leaf

variable {V : Type} {leaf : Leaf V} {bounds : Bounds} {key : Key}

/-- The entries ascend within the bounds, and the fences are the bounds. -/
structure FitsIn (leaf : Leaf V) (bounds : Bounds) : Prop where
  proper : bounds.Proper
  ascending : Ascending leaf.entries
  admits : ∀ e ∈ leaf.entries, bounds.Admits e.1
  low : leaf.low = bounds.lower.getD 0
  high : leaf.high = bounds.upper

theorem empty_fitsIn_all : ({} : Leaf V).FitsIn .all where
  proper := Bounds.all_proper
  ascending := List.Pairwise.nil
  admits := by simp
  low := rfl
  high := rfl

theorem FitsIn.low_le_of_admits
    (hfits : leaf.FitsIn bounds) (hkey : bounds.Admits key) :
    leaf.low ≤ key := by
  rw [hfits.low]
  cases hlower : bounds.lower with
  | none => simp
  | some lower => simpa using hkey.lower lower hlower

theorem FitsIn.get?_eq_some_iff
    (hfits : leaf.FitsIn bounds) {value : V} :
    leaf.get? key = some value ↔ (key, value) ∈ leaf.entries :=
  hfits.ascending.lookup_eq_some_iff

theorem FitsIn.entriesFrom_eq_filter
    (hfits : leaf.FitsIn bounds) (lower : Key) :
    leaf.entriesFrom lower = leaf.entries.filter (lower ≤ ·.1) :=
  hfits.ascending.dropWhile_lt_eq_filter lower

/-! ## Insertion and erasure -/

theorem mem_insert (leaf : Leaf V) (key : Key) (value : V) (e : Key × V) :
    e ∈ (leaf.insert key value).entries ↔
      e = (key, value) ∨ e ∈ leaf.entries := by
  have hsplit :=
    List.takeWhile_append_dropWhile (p := fun e : Key × V => decide (e.1 < key))
      (l := leaf.entries)
  have hmem : e ∈ leaf.entries ↔
      e ∈ leaf.entries.takeWhile (·.1 < key) ∨
        e ∈ leaf.entries.dropWhile (·.1 < key) := by
    rw [← List.mem_append, hsplit]
  simp only [insert, List.mem_append, List.mem_cons, hmem]
  tauto

theorem length_insert (leaf : Leaf V) (key : Key) (value : V) :
    (leaf.insert key value).entries.length = leaf.entries.length + 1 := by
  have hsplit :=
    congrArg List.length
      (List.takeWhile_append_dropWhile
        (p := fun e : Key × V => decide (e.1 < key))
        (l := leaf.entries))
  simp only [List.length_append] at hsplit
  simp only [insert, List.length_append, List.length_cons]
  omega

theorem FitsIn.insert
    (hfits : leaf.FitsIn bounds) (hkey : bounds.Admits key)
    (habsent : ∀ value, (key, value) ∉ leaf.entries) (value : V) :
    (leaf.insert key value).FitsIn bounds where
  proper := hfits.proper
  ascending := by
    have htake := hfits.ascending.takeWhile_lt_eq_filter key
    have hdrop := hfits.ascending.dropWhile_lt_eq_filter key
    simp only [Leaf.insert, htake, hdrop]
    have habove : ∀ e ∈ leaf.entries.filter (key ≤ ·.1), key < e.1 := by
      intro e he
      have hmem := List.mem_filter.mp he
      have hne : e.1 ≠ key := fun heq => habsent e.2 (heq ▸ hmem.1)
      grind
    refine Ascending.append_iff.mpr ⟨?_, ?_, ?_⟩
    · exact hfits.ascending.sublist List.filter_sublist
    · exact List.pairwise_cons.mpr
        ⟨habove, hfits.ascending.sublist List.filter_sublist⟩
    · intro a ha b hb
      have halt : a.1 < key := by simpa using (List.mem_filter.mp ha).2
      rcases List.mem_cons.mp hb with rfl | hb
      · exact halt
      · have := habove b hb
        grind
  admits := by
    intro e he
    rcases (mem_insert leaf key value e).mp he with rfl | he
    · exact hkey
    · exact hfits.admits e he
  low := hfits.low
  high := hfits.high

theorem FitsIn.mem_erase
    (hfits : leaf.FitsIn bounds) (key : Key) (e : Key × V) :
    e ∈ (leaf.erase key).entries ↔ e ∈ leaf.entries ∧ e.1 ≠ key := by
  obtain ⟨entries, low, high⟩ := leaf
  have hascending := hfits.ascending
  clear hfits
  simp only [erase]
  induction entries with
  | nil => simp
  | cons a rest ih =>
      obtain ⟨hhead, htail⟩ := List.pairwise_cons.mp hascending
      by_cases hkey : a.1 = key
      · have hrest : e ∈ rest → e.1 ≠ key := by
          intro hmem
          have := hhead e hmem
          grind
        rw [List.eraseP_cons_of_pos (by simpa using hkey)]
        grind
      · have hrest := ih htail
        rw [List.eraseP_cons_of_neg (by simpa using hkey)]
        simp only [List.mem_cons, hrest]
        grind

theorem FitsIn.erase
    (hfits : leaf.FitsIn bounds) (key : Key) :
    (leaf.erase key).FitsIn bounds where
  proper := hfits.proper
  ascending := hfits.ascending.sublist List.eraseP_sublist
  admits := fun e he => hfits.admits e ((hfits.mem_erase key e).mp he).1
  low := hfits.low
  high := hfits.high

theorem length_erase {value : V} (hmem : (key, value) ∈ leaf.entries) :
    (leaf.erase key).entries.length = leaf.entries.length - 1 := by
  unfold Leaf.erase
  exact List.length_eraseP_of_mem hmem (by simp)

/-! ## Merges and cuts -/

theorem FitsIn.merge {left right : Leaf V} {lower upper : Option Key}
    {separator : Key} (hleft : left.FitsIn ⟨lower, some separator⟩)
    (hright : right.FitsIn ⟨some separator, upper⟩) :
    (Leaf.merge ⟨left, separator, right⟩).FitsIn ⟨lower, upper⟩ where
  proper := hleft.proper.join hright.proper
  ascending := by
    refine Ascending.append_iff.mpr ⟨hleft.ascending, hright.ascending, ?_⟩
    intro a ha b hb
    have := (hleft.admits a ha).upper separator rfl
    have := (hright.admits b hb).lower separator rfl
    grind
  admits := by
    intro e he
    rcases List.mem_append.mp he with he | he
    · exact (hleft.admits e he).of_left hright.proper
    · exact (hright.admits e he).of_right hleft.proper
  low := hleft.low
  high := hright.high

/-- Divides a leaf: the first `n` entries stay, the others move to a leaf on the
right. -/
def cut (leaf : Leaf V) (n : Nat) : Option (Siblings (Leaf V)) :=
  match leaf.entries.drop n with
  | [] => none
  | first :: rest =>
      some {
        left := { leaf with entries := leaf.entries.take n, high := some first.1 }
        separator := first.1
        right := { entries := first :: rest, low := first.1, high := leaf.high }
      }

theorem split_eq_cut (leaf : Leaf V) :
    leaf.split = leaf.cut (leaf.entries.length - leaf.entries.length / 2) :=
  rfl

theorem shiftLeft_eq_cut (pair : Siblings (Leaf V)) :
    shiftLeft pair = (merge pair).cut (pair.left.entries.length + 1) := by
  obtain ⟨left, separator, right⟩ := pair
  obtain ⟨entries, low, high⟩ := right
  have hdrop : left.entries.drop (left.entries.length + 1) = [] :=
    List.drop_eq_nil_of_le (Nat.le_succ _)
  have htake : left.entries.take (left.entries.length + 1) = left.entries :=
    List.take_of_length_le (Nat.le_succ _)
  match entries with
  | [] => simp [shiftLeft, merge, cut, hdrop]
  | [moved] => simp [shiftLeft, merge, cut, hdrop, List.drop_append]
  | moved :: first :: rest =>
      simp [shiftLeft, merge, cut, List.drop_append, List.take_append, hdrop,
        htake]

theorem shiftRight_eq_cut (pair : Siblings (Leaf V))
    (hleft : pair.left.entries ≠ []) :
    shiftRight pair = (merge pair).cut (pair.left.entries.length - 1) := by
  obtain ⟨⟨entries, low, high⟩, separator, right⟩ := pair
  obtain ⟨init, moved, rfl⟩ : ∃ init moved, entries = init ++ [moved] :=
    ⟨entries.dropLast, entries.getLast hleft,
      (List.dropLast_concat_getLast hleft).symm⟩
  simp [shiftRight, merge, cut]

theorem cut_isSome (leaf : Leaf V) {n : Nat} (hn : n < leaf.entries.length) :
    ∃ pair, leaf.cut n = some pair := by
  rw [cut, List.drop_eq_getElem_cons hn]
  exact ⟨_, rfl⟩

section Cut

variable {n : Nat} {pair : Siblings (Leaf V)}

theorem cut_entries (hcut : leaf.cut n = some pair) :
    pair.left.entries = leaf.entries.take n ∧
      pair.right.entries = leaf.entries.drop n := by
  unfold cut at hcut
  split at hcut
  next => simp at hcut
  next first rest hdrop =>
    simp only [Option.some.injEq] at hcut
    subst hcut
    exact ⟨rfl, hdrop.symm⟩

theorem FitsIn.cut
    (hfits : leaf.FitsIn bounds) (hpos : 0 < n)
    (hcut : leaf.cut n = some pair) :
    pair.left.FitsIn ⟨bounds.lower, some pair.separator⟩ ∧
      pair.right.FitsIn ⟨some pair.separator, bounds.upper⟩ := by
  unfold Leaf.cut at hcut
  split at hcut
  next => simp at hcut
  next first rest hdrop =>
    simp only [Option.some.injEq] at hcut
    subst hcut
    have hentries : leaf.entries.take n ++ (first :: rest) = leaf.entries := by
      rw [← hdrop, List.take_append_drop]
    have hascending := hfits.ascending
    rw [← hentries] at hascending
    obtain ⟨hleft, hright, hacross⟩ := Ascending.append_iff.mp hascending
    have hadmits : ∀ e ∈ leaf.entries.take n ++ (first :: rest),
        bounds.Admits e.1 := by
      rw [hentries]
      exact hfits.admits
    have hfirst : bounds.Admits first.1 := hadmits first (by simp)
    have hbehind : ∀ e ∈ first :: rest, first.1 ≤ e.1 := by
      intro e he
      rcases List.mem_cons.mp he with rfl | he
      · grind
      · have := (List.pairwise_cons.mp hright).1 e he
        grind
    -- The left part is not empty, so its keys leave room below the separator.
    obtain ⟨a, ha⟩ : ∃ a, a ∈ leaf.entries.take n := by
      apply List.exists_mem_of_ne_nil
      have hlength := congrArg List.length hdrop
      simp only [List.length_drop, List.length_cons] at hlength
      apply List.ne_nil_of_length_pos
      rw [List.length_take]
      omega
    have hlt : ∀ e ∈ leaf.entries.take n, e.1 < first.1 :=
      fun e he => hacross e he first List.mem_cons_self
    constructor
    · exact {
        proper := fun lower hlower upper hupper => by
          have := (hadmits a (List.mem_append_left _ ha)).lower lower hlower
          have := hlt a ha
          grind
        ascending := hleft
        admits := fun e he =>
          ⟨(hadmits e (List.mem_append_left _ he)).lower, fun upper hupper => by
            have := hlt e he
            grind⟩
        low := hfits.low
        high := rfl }
    · exact {
        proper := fun lower hlower upper hupper => by
          have := hfirst.upper upper hupper
          grind
        ascending := hright
        admits := fun e he =>
          ⟨fun lower hlower => by
              have := hbehind e he
              grind,
            (hadmits e (List.mem_append_right _ he)).upper⟩
        low := rfl
        high := hfits.high }

end Cut

end Leaf

end LatchTree

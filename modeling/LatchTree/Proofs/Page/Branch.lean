import LatchTree.Page.Branch
import Mathlib.Data.List.TakeWhile

/-!
# Branches as lists of children

The operations on a branch are list operations at one slot.  They are described
on entries that are written as `left ++ (key, child) :: right`, where
`left.length` is the slot of the child.  As for leaves, splits and borrows are
cuts: of a branch, or of two branches that were merged.
-/

namespace LatchTree

namespace Branch

section Entries

variable {α β : Type}

/-- Divides the entries in front of position `n`.  The key at that position is
the separator. -/
def cutEntries (entries : List (Key × α)) (n : Nat) :
    Option (Siblings (List (Key × α))) :=
  match entries.drop n with
  | [] => none
  | first :: rest => some ⟨entries.take n, first.1, first :: rest⟩

/-- The entries with another key for the first child. -/
def rekeyEntries (key : Key) : List (Key × α) → List (Key × α)
  | [] => []
  | (_, child) :: rest => (key, child) :: rest

theorem cutEntries_isSome {entries : List (Key × α)} {n : Nat}
    (hn : n < entries.length) : ∃ pair, cutEntries entries n = some pair := by
  rw [cutEntries, List.drop_eq_getElem_cons hn]
  exact ⟨_, rfl⟩

theorem cutEntries_eq_some {entries : List (Key × α)} {n : Nat}
    {pair : Siblings (List (Key × α))}
    (hcut : cutEntries entries n = some pair) :
    ∃ child rest,
      pair.left = entries.take n ∧
        pair.right = (pair.separator, child) :: rest ∧
        entries = pair.left ++ pair.right := by
  unfold cutEntries at hcut
  split at hcut
  next => simp at hcut
  next first rest hdrop =>
    simp only [Option.some.injEq] at hcut
    subst hcut
    refine ⟨first.2, rest, rfl, rfl, ?_⟩
    rw [← hdrop, List.take_append_drop]

theorem cutEntries_map (f : α → β) (entries : List (Key × α)) (n : Nat) :
    cutEntries (entries.map fun e => (e.1, f e.2)) n =
      (cutEntries entries n).map fun pair =>
        pair.map (·.map fun e => (e.1, f e.2)) := by
  unfold cutEntries
  rw [← List.map_drop, ← List.map_take]
  cases entries.drop n with
  | nil => rfl
  | cons first rest => rfl

theorem rekeyEntries_map (f : α → β) (key : Key) (entries : List (Key × α)) :
    rekeyEntries key (entries.map fun e => (e.1, f e.2)) =
      (rekeyEntries key entries).map fun e => (e.1, f e.2) := by
  cases entries with
  | nil => rfl
  | cons first rest => rfl

@[simp] theorem length_rekeyEntries (key : Key) (entries : List (Key × α)) :
    (rekeyEntries key entries).length = entries.length := by
  cases entries with
  | nil => rfl
  | cons first rest => rfl

theorem exists_split_at_slot {entries : List (Key × α)}
    (hentries : entries ≠ []) (key : Key) :
    ∃ left k child right,
      entries = left ++ (k, child) :: right ∧
        (entries.tail.takeWhile (·.1 ≤ key)).length = left.length ∧
        (left ≠ [] → k ≤ key) ∧
        ∀ next ∈ right.head?, key < next.1 := by
  obtain ⟨first, rest, rfl⟩ := List.exists_cons_of_ne_nil hentries
  have hsplit :=
    List.takeWhile_append_dropWhile (p := fun e : Key × α => decide (e.1 ≤ key))
      (l := rest)
  have hnext : ∀ next ∈ (rest.dropWhile (·.1 ≤ key)).head?, key < next.1 := by
    intro next hmem
    have hstop :=
      List.head?_dropWhile_not (fun e : Key × α => decide (e.1 ≤ key)) rest
    rw [Option.mem_def.mp hmem] at hstop
    have hnot : ¬ next.1 ≤ key := by simpa using hstop
    exact UInt64.not_le.mp hnot
  rcases List.eq_nil_or_concat (rest.takeWhile (·.1 ≤ key)) with
    hnil | ⟨init, last, hlast⟩
  · refine ⟨[], first.1, first.2, rest.dropWhile (·.1 ≤ key), ?_, ?_, ?_, hnext⟩
    · rw [hnil, List.nil_append] at hsplit
      rw [hsplit]
      rfl
    · simp [hnil]
    · simp
  · refine ⟨first :: init, last.1, last.2, rest.dropWhile (·.1 ≤ key), ?_, ?_,
      ?_, hnext⟩
    · rw [hlast] at hsplit
      conv => lhs; rw [← hsplit]
      simp
    · simp [hlast]
    · intro _
      have hmem : last ∈ rest.takeWhile (·.1 ≤ key) := by
        rw [hlast]
        simp
      simpa using List.mem_takeWhile_imp hmem

end Entries

/-! ## Cuts -/

def cut (branch : Branch) (n : Nat) : Option (Siblings Branch) :=
  (cutEntries branch.entries n).map (·.map Branch.mk)

theorem rekeyed_eq (branch : Branch) (key : Key) :
    branch.rekeyed key = rekeyEntries key branch.entries := by
  obtain ⟨entries⟩ := branch
  cases entries with
  | nil => rfl
  | cons first rest => rfl

theorem split_eq_cut (branch : Branch) :
    branch.split =
      branch.cut (branch.entries.length - branch.entries.length / 2) := by
  simp only [split, cut, cutEntries]
  cases branch.entries.drop
    (branch.entries.length - branch.entries.length / 2) with
  | nil => rfl
  | cons first rest => rfl

theorem shiftLeft_eq_cut (pair : Siblings Branch) :
    shiftLeft pair = (merge pair).cut (pair.left.entries.length + 1) := by
  obtain ⟨left, separator, ⟨entries⟩⟩ := pair
  have hdrop : left.entries.drop (left.entries.length + 1) = [] :=
    List.drop_eq_nil_of_le (Nat.le_succ _)
  have htake : left.entries.take (left.entries.length + 1) = left.entries :=
    List.take_of_length_le (Nat.le_succ _)
  match entries with
  | [] => simp [shiftLeft, merge, cut, cutEntries, rekeyed, hdrop]
  | [moved] =>
      simp [shiftLeft, merge, cut, cutEntries, rekeyed, hdrop, List.drop_append]
  | moved :: first :: rest =>
      simp [shiftLeft, merge, cut, cutEntries, rekeyed, hdrop, htake,
        List.drop_append, List.take_append, Siblings.map]

theorem shiftRight_eq_cut (pair : Siblings Branch)
    (hleft : pair.left.entries ≠ []) (hright : pair.right.entries ≠ []) :
    shiftRight pair = (merge pair).cut (pair.left.entries.length - 1) := by
  obtain ⟨⟨left⟩, separator, ⟨right⟩⟩ := pair
  obtain ⟨init, moved, rfl⟩ : ∃ init moved, left = init ++ [moved] :=
    ⟨left.dropLast, left.getLast hleft,
      (List.dropLast_concat_getLast hleft).symm⟩
  obtain ⟨first, rest, rfl⟩ := List.exists_cons_of_ne_nil hright
  simp [shiftRight, merge, cut, cutEntries, rekeyed, Siblings.map]

/-! ## One slot -/

section Slot

variable {left right : List (Key × PageId)} {key separator : Key}
  {child next : PageId}

private theorem insertIdx_split {α : Type} (left : List α) (a b : α)
    (right : List α) :
    (left ++ a :: right).insertIdx (left.length + 1) b =
      left ++ a :: b :: right := by
  induction left with
  | nil => rfl
  | cons first left ih => simp [ih]

private theorem modify_split {α : Type} (left : List α) (a b : α)
    (right : List α) (f : α → α) :
    (left ++ a :: b :: right).modify (left.length + 1) f =
      left ++ a :: f b :: right := by
  induction left with
  | nil => rfl
  | cons first left ih => simp [ih]

theorem child_split :
    (Branch.mk (left ++ (key, child) :: right)).child left.length =
      .ok child := by
  simp [Branch.child, entry, Except.map]

theorem insertAfter_split (hnext : ∀ e ∈ right.head?, separator < e.1) :
    (Branch.mk (left ++ (key, child) :: right)).insertAfter left.length
      (separator, next) =
      .ok ⟨left ++ (key, child) :: (separator, next) :: right⟩ := by
  have hlength : ¬ (left ++ (key, child) :: right).length ≤ left.length := by
    rw [List.length_append, List.length_cons]
    omega
  have hget : (left ++ (key, child) :: right)[left.length + 1]? =
      right.head? := by
    rw [List.getElem?_append_right (by omega), Nat.add_sub_cancel_left,
      List.getElem?_cons_succ, List.head?_eq_getElem?]
  have hbelow : right.head?.all (fun e => decide (separator < e.1)) = true := by
    cases hhead : right.head? with
    | none => rfl
    | some e => simpa using hnext e hhead
  unfold insertAfter
  rw [if_neg hlength]
  simp only [hget, hbelow, if_true, insertIdx_split]

theorem eraseSlot_split :
    (Branch.mk (left ++ (key, child) :: (separator, next) :: right)).eraseSlot
        (left.length + 1) =
      ⟨left ++ (key, child) :: right⟩ := by
  simp [eraseSlot, List.eraseIdx_append_of_length_le]

theorem setKey_split (other : Key) :
    (Branch.mk (left ++ (key, child) :: (separator, next) :: right)).setKey
        (left.length + 1) other =
      ⟨left ++ (key, child) :: (other, next) :: right⟩ := by
  simp [setKey, modify_split]

theorem entry_split :
    (Branch.mk (left ++ (key, child) :: (separator, next) :: right)).entry
        (left.length + 1) = .ok (separator, next) := by
  simp [entry]

theorem neighbours_right :
    (Branch.mk (left ++ (key, child) :: (separator, next) :: right)).neighbours
        child left.length =
      .ok (.right, { left := child, right := next, slot := left.length + 1 }) := by
  have hlength :
      (left ++ (key, child) :: (separator, next) :: right).length =
        left.length + right.length + 2 := by
    simp
    omega
  unfold neighbours
  simp only [hlength]
  rw [if_neg (by omega), if_pos (by omega)]
  simp [Branch.child, entry_split, Except.map, bind, Except.bind, pure,
    Except.pure]

theorem neighbours_left :
    (Branch.mk (left ++ [(key, child), (separator, next)])).neighbours
        next (left.length + 1) =
      .ok (.left, { left := child, right := next, slot := left.length + 1 }) := by
  have hlength :
      (left ++ [(key, child), (separator, next)]).length = left.length + 2 := by
    simp
  unfold neighbours
  simp only [hlength]
  rw [if_neg (by omega), if_neg (by omega), Nat.add_sub_cancel, child_split]
  rfl

end Slot

end Branch

end LatchTree

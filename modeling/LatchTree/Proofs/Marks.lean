import Mathlib.Data.List.Perm.Basic
import Mathlib.Data.List.Nodup

/-!
# Lists with marks

Each member of a list bears a mark, such as the thread that it belongs to.  What
bears one mark is again a list, in the same order.  Taken together, the lists of
all marks are the whole list, up to order.
-/

namespace LatchTree

variable {κ α : Type} [DecidableEq κ]

/-- What bears the mark, in order. -/
def withMark (marked : List (κ × α)) (mark : κ) : List α :=
  (marked.filter (·.1 = mark)).map (·.2)

theorem withMark_cons (head : κ × α) (rest : List (κ × α)) (mark : κ) :
    withMark (head :: rest) mark =
      if head.1 = mark then head.2 :: withMark rest mark
      else withMark rest mark := by
  unfold withMark
  by_cases hmark : head.1 = mark
  · rw [if_pos hmark, List.filter_cons_of_pos (by simpa using hmark),
      List.map_cons]
  · rw [if_neg hmark, List.filter_cons_of_neg (by simpa using hmark)]

theorem mem_withMark {marked : List (κ × α)} {mark : κ} {a : α} :
    a ∈ withMark marked mark ↔ (mark, a) ∈ marked := by
  simp [withMark]

theorem count_withMark [DecidableEq α] (marked : List (κ × α)) (mark : κ)
    (a : α) : (withMark marked mark).count a = marked.count (mark, a) := by
  induction marked with
  | nil => rfl
  | cons head rest ih =>
      obtain ⟨headMark, b⟩ := head
      by_cases hmark : headMark = mark
      · subst hmark
        simp [withMark_cons, List.count_cons, ih]
      · simp [withMark_cons, ih, hmark]

/-- Marked lists agree up to order if they do for each mark. -/
theorem perm_of_withMark_eq {first second : List (κ × α)}
    (hsame : ∀ mark, withMark first mark = withMark second mark) :
    first.Perm second := by
  classical
  refine List.perm_iff_count.mpr fun ⟨mark, a⟩ => ?_
  rw [← count_withMark, hsame, count_withMark]

theorem flatMap_withMark_cons (head : κ × α) (rest : List (κ × α))
    {marks : List κ} (hmark : head.1 ∈ marks) (hnodup : marks.Nodup) :
    (marks.flatMap (withMark (head :: rest))).Perm
      (head.2 :: marks.flatMap (withMark rest)) := by
  obtain ⟨before, after, rfl⟩ := List.append_of_mem hmark
  have hothers {marks : List κ} (hfree : head.1 ∉ marks) :
      marks.flatMap (withMark (head :: rest)) =
        marks.flatMap (withMark rest) := by
    refine List.flatMap_congr fun mark hmem => ?_
    have hne : head.1 ≠ mark := fun heq => hfree (heq ▸ hmem)
    rw [withMark_cons, if_neg hne]
  have hfree : head.1 ∉ before ∧ head.1 ∉ after := by
    rw [List.nodup_append_comm, List.cons_append, List.nodup_cons,
      List.mem_append, not_or] at hnodup
    exact hnodup.1.symm
  rw [List.flatMap_append, List.flatMap_cons, List.flatMap_append,
    List.flatMap_cons, hothers hfree.1, hothers hfree.2, withMark_cons,
    if_pos rfl, List.cons_append]
  exact List.perm_middle

/-- What bears any of the marks is everything, if there are no other marks. -/
theorem flatMap_withMark {marked : List (κ × α)} {marks : List κ}
    (hnodup : marks.Nodup) (hmarks : ∀ m ∈ marked, m.1 ∈ marks) :
    (marks.flatMap (withMark marked)).Perm (marked.map (·.2)) := by
  induction marked with
  | nil => simp [withMark]
  | cons head rest ih =>
      obtain ⟨hhead, hrest⟩ := List.forall_mem_cons.mp hmarks
      exact (flatMap_withMark_cons head rest hhead hnodup).trans
        ((ih hrest).cons _)

end LatchTree

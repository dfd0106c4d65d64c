import LatchTree.Text.Sink

/-!
# Pieces of a text

To write two pieces one after the other does what it does to write both as one
piece, also where the sink runs full in either of them.  So a run of pieces
amounts to one piece, and a sink with limited room receives what fits of it.
-/

namespace LatchTree

namespace Sink

theorem take_append (sink : Sink) (first second : String) :
    sink.take (first ++ second) = (sink.take first).take second := by
  obtain ⟨text, room⟩ := sink
  cases room with
  | none => simp only [take, String.append_assoc]
  | some room =>
      simp only [take, String.toList_append, List.take_append,
        String.ofList_append, String.append_assoc, String.length_append,
        String.length_toList, Nat.sub_sub]

theorem fits_append (sink : Sink) (first second : String) :
    sink.fits (first ++ second) =
      (sink.fits first && (sink.take first).fits second) := by
  obtain ⟨text, room⟩ := sink
  cases room with
  | none => rfl
  | some room =>
      simp only [fits, take, Option.all_some, String.length_append]
      rw [← Bool.decide_and, decide_eq_decide]
      omega

/-- A piece that does not fit leaves no room for another one. -/
theorem take_take_of_full {sink : Sink} {first : String}
    (hfull : sink.fits first = false) (second : String) :
    (sink.take first).take second = sink.take first := by
  obtain ⟨text, room⟩ := sink
  cases room with
  | none => cases hfull
  | some room =>
      have hnone : room - first.length = 0 := by
        have hlong := of_decide_eq_false hfull
        omega
      simp [take, hnone]

end Sink

namespace Writing

theorem put_run (piece : String) (sink : Sink) :
    put piece sink =
      if sink.fits piece then .ok () (sink.take piece)
      else .error {} (sink.take piece) := by
  change (if sink.fits piece then pure () else throw {} : Writing Unit)
    (sink.take piece) = _
  split <;> rfl

theorem put_append (first second : String) :
    (do put first; put second) = put (first ++ second) := by
  funext sink
  simp only [bind, EStateM.bind, put_run, Sink.fits_append, Sink.take_append]
  cases hfits : sink.fits first with
  | true => rfl
  | false =>
      simp only [Bool.false_and, Bool.false_eq_true, if_false]
      rw [Sink.take_take_of_full hfits]

theorem put_empty : put "" = pure () := by
  funext sink
  obtain ⟨text, room⟩ := sink
  rw [put_run]
  cases room <;> simp [Sink.fits, Sink.take, pure, EStateM.pure]

theorem putList_eq (pieces : List String) :
    putList pieces = put (", ".intercalate pieces) := by
  induction pieces with
  | nil => rw [putList, String.intercalate_nil, put_empty]
  | cons piece rest ih =>
      cases rest with
      | nil => rw [putList, String.intercalate_singleton]
      | cons next rest =>
          rw [putList, ih, put_append, put_append, String.intercalate_cons_cons,
            String.append_assoc]
          exact List.cons_ne_nil _ _

theorem runWithin_put_none (text : String) :
    (put text).runWithin none = (true, text) := by
  rw [runWithin, EStateM.run, put_run]
  simp [Sink.fits, Sink.take]

theorem runWithin_put_some (text : String) (room : Nat) :
    (put text).runWithin (some room) =
      (decide (text.length ≤ room), String.ofList (text.toList.take room)) := by
  rw [runWithin, EStateM.run, put_run]
  by_cases hfits : text.length ≤ room <;>
    simp [Sink.fits, Sink.take, hfits]

end Writing

end LatchTree

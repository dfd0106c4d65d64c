import LatchTree.Proofs.Scan.Interleaving

/-!
# Where the entries of a scan come from

A scan looks at the tree only while it answers a question, and it reads only
leaves that are in use at that moment.  Every entry that it yields was therefore
in the tree at the moment of a question: the one that is answered, or an earlier
one that left the entry in the buffer.
-/

namespace LatchTree

open Subtree

variable {V : Type}

namespace Moment

/-- The tree of some question had the entry. -/
def Sighted (moments : List (Moment V)) (e : Key × V) : Prop :=
  ∃ tree answer, .asked tree answer ∈ moments ∧
    tree.get? e.1 = .ok (some e.2)

theorem Sighted.cons {moments : List (Moment V)} {e : Key × V}
    (hsighted : Sighted moments e) (first : Moment V) :
    Sighted (first :: moments) e := by
  obtain ⟨tree, answer, hasked, hget⟩ := hsighted
  exact ⟨tree, answer, List.mem_cons_of_mem first hasked, hget⟩

end Moment

namespace Scan

section Sighting

variable {tree : Tree V} {t : Subtree V} {scan later : Scan V}
  {answer : Option (Key × V)} {e : Key × V}

theorem Yields.answer_mem_rest (hyields : Yields tree t scan answer later)
    (he : e ∈ answer) : e ∈ scan.rest t := by
  have hfirst := hyields.answered
  rw [Option.mem_def.mp he] at hfirst
  exact List.mem_of_mem_head? hfirst.symm

/-- What a question leaves in the buffer was there before, or it was read in
order to answer. -/
theorem Yields.buffer_mem_rest (hyields : Yields tree t scan answer later)
    (he : e ∈ later.buffer) : e ∈ scan.rest t := by
  have hlater : e ∈ later.rest t := mem_rest.mpr (.inl he)
  rw [hyields.rest] at hlater
  exact List.mem_of_mem_tail hlater

theorem sighted_of_mem_rest (hsound : tree.Sound t) (he : e ∈ scan.rest t)
    (moments : List (Moment V)) :
    e ∈ scan.buffer ∨ Moment.Sighted (.asked tree answer :: moments) e := by
  rcases mem_rest.mp he with hbuffer | ⟨_, _, hentries⟩
  · exact .inl hbuffer
  · exact .inr ⟨tree, answer, List.mem_cons_self,
      hsound.get?_eq_some hentries⟩

/-- An entry that is yielded stood in the buffer from the beginning, or it was
sighted on the way. -/
theorem Plays.sighted {earlier others : List (Moment V)} {last : Tree V}
    (hplays : Plays tree t scan (earlier ++ .asked last (some e) :: others))
    (hsound : tree.Sound t) :
    e ∈ scan.buffer ∨
      Moment.Sighted (earlier ++ [.asked last (some e)]) e := by
  induction earlier generalizing tree t scan with
  | nil =>
      cases hplays with
      | asked hyields _ =>
          have hrest := hyields.answer_mem_rest (Option.mem_some_self e)
          exact sighted_of_mem_rest hsound hrest []
  | cons first earlier ih =>
      rw [List.cons_append] at hplays
      cases hplays with
      | changed hnext _ _ hlater =>
          have hlast := ih hlater hnext
          exact hlast.imp_right fun hsighted => hsighted.cons _
      | asked hyields hlater =>
          rcases ih hlater hsound with hbuffer | hsighted
          · have hrest := hyields.buffer_mem_rest hbuffer
            exact sighted_of_mem_rest hsound hrest _
          · exact .inr (hsighted.cons _)

end Sighting

/-- While the tree changes in any way, a scan yields an entry only if the tree
had it at the moment of a question to the scan, from the first question on and
not later than the one that yields the entry. -/
theorem yields_sighted_entries {config : Config}
    (hconfig : config.validate = .ok ())
    (history : List (Change V)) (lower : Key) (steps : List (ScanStep V)) :
    ∃ tree moments,
      (Tree.empty config).changeAll history = .ok tree ∧
        (start lower).play tree steps = .ok moments ∧
        ∀ earlier last e later,
          moments = earlier ++ .asked last (some e) :: later →
          ∃ seen answer,
            .asked seen answer ∈ earlier ++ [.asked last (some e)] ∧
              seen.get? e.1 = .ok (some e.2) := by
  obtain ⟨tree, t, moments, hrun, hsound, hplay, hplays⟩ :=
    exists_play_of_history hconfig history lower steps
  refine ⟨tree, moments, hrun, hplay, ?_⟩
  rintro earlier last e later rfl
  rcases hplays.sighted hsound with hbuffer | hsighted
  · cases hbuffer
  · exact hsighted

/-- The entry of the key 4 is yielded after its removal. -/
theorem yields_sighted_entries_after_removal :
    ({ degree := 3 } : Config).validate = .ok () ∧
      ∃ tree moments earlier last later,
        (Tree.empty { degree := 3 }).changeAll
            [.insert 1 'a', .insert 2 'b', .insert 3 'c', .insert 4 'd',
              .insert 5 'e', .insert 6 'f'] = .ok tree ∧
          (start 2).play tree [.next, .next, .change (.remove 4), .next] =
            .ok moments ∧
          moments = earlier ++ .asked last (some (4, 'd')) :: later ∧
          last.get? 4 = .ok none ∧
          ∃ seen answer,
            .asked seen answer ∈ earlier ++ [.asked last (some (4, 'd'))] ∧
              seen.get? 4 = .ok (some 'd') := by
  have hconfig : ({ degree := 3 } : Config).validate = .ok () := rfl
  obtain ⟨tree, moments, hrun, hplay, hyields⟩ := yields_sighted_entries hconfig
    [.insert 1 'a', .insert 2 'b', .insert 3 'c', .insert 4 'd', .insert 5 'e',
      .insert 6 'f'] 2 [.next, .next, .change (.remove 4), .next]
  have hseen : ((Tree.empty { degree := 3 }).changeAll
      [.insert 1 'a', .insert 2 'b', .insert 3 'c', .insert 4 'd',
        .insert 5 'e', .insert 6 'f']).bind
        (fun tree => ((start 2).play tree [.next, .next, .change (.remove 4),
          .next]).map fun moments =>
            moments.map fun m => (m.answer?, m.tree.get? 4)) =
      .ok ([(some (some (2, 'b')), .ok (some 'd')),
        (some (some (3, 'c')), .ok (some 'd')), (none, .ok none)] ++
          [(some (some (4, 'd')), .ok none)]) := by
    decide +kernel
  rw [hrun, Except.bind, hplay, Except.map, Except.ok.injEq] at hseen
  obtain ⟨earlier, rest, rfl, _, hrest⟩ := List.map_eq_append_iff.mp hseen
  obtain ⟨m, later, rfl, hm, _⟩ := List.map_eq_cons_iff.mp hrest
  cases m with
  | changed _ => cases hm
  | asked last answer =>
      obtain ⟨hanswer, hget⟩ := Prod.mk.inj hm
      cases hanswer
      exact ⟨hconfig, tree, _, earlier, last, later, hrun, hplay, rfl, hget,
        hyields earlier last (4, 'd') later rfl⟩

end Scan

end LatchTree

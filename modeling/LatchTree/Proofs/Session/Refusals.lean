import LatchTree.Proofs.Session.Safety

/-!
# Refused changes

The tree refuses to insert a key that one of its leaves holds, and to remove a key
that none of them holds.  Any other change is made.  A refused change leaves the
whole session as it was, so whatever is asked later, of the tree or of an open
scan, is answered as if the change had never been tried.
-/

namespace LatchTree

variable {V : Type}

/-- The operation is refused under the condition and no other, with the error,
and then it has done nothing. -/
structure Outcome.RefusedIf {α : Type} (outcome : Outcome V (Except TreeError α))
    (tree : Tree V) (error : TreeError) (condition : Prop) : Prop where
  iff : (∃ found, outcome.result = .error found) ↔ condition
  nothing : condition → outcome = { result := .error error, tree }

namespace Outcome.RefusedIf

variable {α : Type} {tree : Tree V} {error : TreeError} {condition : Prop}

theorem of_refused (hcondition : condition) :
    RefusedIf (α := α) { result := .error error, tree } tree error condition where
  iff := ⟨fun _ => hcondition, fun _ => ⟨error, rfl⟩⟩
  nothing := fun _ => rfl

theorem of_made {outcome : Outcome V (Except TreeError α)} {result : α}
    (hresult : outcome.result = .ok result) (hcondition : ¬ condition) :
    outcome.RefusedIf tree error condition where
  iff := by
    refine ⟨fun ⟨found, hfound⟩ => ?_, fun h => absurd h hcondition⟩
    rw [hresult] at hfound
    cases hfound
  nothing := fun h => absurd h hcondition

end Outcome.RefusedIf

namespace Tree.Sound

variable {tree : Tree V} {t : Subtree V}

theorem lookup_isSome_iff (hsound : tree.Sound t) (key : Key) :
    (t.entries.lookup key).isSome ↔ key ∈ t.entries.map (·.1) := by
  rw [hsound.wellFormed.fits.ascending.lookup_isSome_iff, List.mem_map]
  exact ⟨fun ⟨value, h⟩ => ⟨(key, value), h, rfl⟩,
    fun ⟨e, he, hkey⟩ => ⟨e.2, hkey ▸ he⟩⟩

theorem exists_insert_refusedIf (hsound : tree.Sound t) (key : Key) (value : V) :
    ∃ outcome, tree.insert key value = .ok outcome ∧
      outcome.RefusedIf tree (.alreadyExists key)
        (key ∈ t.entries.map (·.1)) := by
  rw [← hsound.lookup_isSome_iff]
  cases hlookup : t.entries.lookup key with
  | some found =>
      have hpresent : (t.entries.lookup key).isSome := by rw [hlookup]; rfl
      exact ⟨_, hsound.insert_present hpresent value, .of_refused rfl⟩
  | none =>
      obtain ⟨_, _, _, _, settled, next, _, _, hinsert, _⟩ :=
        hsound.exists_insert_absent hlookup value
      exact ⟨_, hinsert, .of_made rfl Bool.false_ne_true⟩

theorem exists_remove_refusedIf (hsound : tree.Sound t) (key : Key) :
    ∃ outcome, tree.remove key = .ok outcome ∧
      outcome.RefusedIf tree (.notFound key)
        (key ∉ t.entries.map (·.1)) := by
  rw [← hsound.lookup_isSome_iff]
  cases hlookup : t.entries.lookup key with
  | some value =>
      obtain ⟨_, _, _, _, settled, next, _, _, hremove, _⟩ :=
        hsound.exists_remove_present hlookup
      exact ⟨_, hremove, .of_made rfl (not_not_intro rfl)⟩
  | none =>
      exact ⟨_, hsound.remove_absent hlookup, .of_refused Bool.false_ne_true⟩

end Tree.Sound

/-- The request that asks for a change. -/
def Change.request : Change V → Request V
  | .insert key value => .insert key value
  | .remove key => .remove key

namespace Reply

theorem ofInsert_eq_refused_iff (result : Except TreeError Unit)
    (error : TreeError) :
    (ofInsert result : Reply V) = .refused error ↔ result = .error error := by
  cases result <;> simp [ofInsert]

theorem ofValue_eq_refused_iff (result : Except TreeError V)
    (error : TreeError) : ofValue result = .refused error ↔ result = .error error := by
  cases result <;> simp [ofValue]

end Reply

namespace Session

/-- What becomes of the changes that a session may be asked for, its tree having
the pages of `t`. -/
structure Refuses (session : Session V) (t : Subtree V) : Prop where
  inserts : ∀ key value, ∃ outcome,
    session.tree.insert key value = .ok outcome ∧
      outcome.RefusedIf session.tree (.alreadyExists key)
        (key ∈ t.entries.map (·.1))
  removes : ∀ key, ∃ outcome, session.tree.remove key = .ok outcome ∧
    outcome.RefusedIf session.tree (.notFound key) (key ∉ t.entries.map (·.1))
  /-- All later requests are answered as if this one had not been made. -/
  unnoticed : ∀ (change : Change V) response error,
    session.perform change.request = .ok response →
      response.reply = .refused error →
        response = { reply := .refused error, session } ∧
          ∀ later, session.respondAll (change.request :: later) =
            (session.respondAll later).map (response :: ·)

theorem respondAll_of_kept {session : Session V} {request : Request V}
    {reply : Reply V}
    (hperform : session.perform request = .ok { reply, session })
    (later : List (Request V)) :
    session.respondAll (request :: later) =
      (session.respondAll later).map ({ reply, session } :: ·) := by
  rw [respondAll, hperform]
  simp only [bind, Except.bind]
  cases session.respondAll later <;> rfl

/-- Of an operation that was refused nothing remains but the reply. -/
theorem changed_eq_of_refused {session : Session V} {α : Type}
    {outcome : Outcome V (Except TreeError α)} {refusal error : TreeError}
    {condition : Prop} {reply : Except TreeError α → Reply V}
    (houtcome : outcome.RefusedIf session.tree refusal condition)
    (hreply : ∀ result found,
      reply result = .refused found ↔ result = .error found)
    (hrefused : (session.changed outcome reply).reply = .refused error) :
    session.changed outcome reply = { reply := .refused error, session } := by
  have hresult := (hreply _ _).mp hrefused
  have hnothing := houtcome.nothing (houtcome.iff.mp ⟨error, hresult⟩)
  rw [hnothing] at hresult ⊢
  cases hresult
  rw [changed, (hreply _ _).mpr rfl]

namespace Sound

variable {session : Session V} {t : Subtree V}

theorem eq_of_refused (hsession : session.Sound t) {change : Change V}
    {response : Response V} {error : TreeError}
    (hperform : session.perform change.request = .ok response)
    (hrefused : response.reply = .refused error) :
    response = { reply := .refused error, session } := by
  cases change with
  | insert key value =>
      obtain ⟨outcome, hinsert, houtcome⟩ :=
        hsession.tree.exists_insert_refusedIf key value
      rw [Change.request, perform, hinsert] at hperform
      cases hperform
      exact changed_eq_of_refused houtcome Reply.ofInsert_eq_refused_iff hrefused
  | remove key =>
      obtain ⟨outcome, hremove, houtcome⟩ :=
        hsession.tree.exists_remove_refusedIf key
      rw [Change.request, perform, hremove] at hperform
      cases hperform
      exact changed_eq_of_refused houtcome Reply.ofValue_eq_refused_iff hrefused

theorem refuses (hsession : session.Sound t) : session.Refuses t where
  inserts := hsession.tree.exists_insert_refusedIf
  removes := hsession.tree.exists_remove_refusedIf
  unnoticed := by
    intro change response error hperform hrefused
    have hkept := hsession.eq_of_refused hperform hrefused
    subst hkept
    exact ⟨rfl, respondAll_of_kept hperform⟩

end Sound

/-- Whatever a session over a new tree was asked before: to insert a key is
refused if and only if a leaf holds it, to remove a key if and only if none does,
and a refusal leaves no trace in the session. -/
theorem refused_changes_leave_no_trace {config : Config}
    (hconfig : config.validate = .ok ()) (requests : List (Request V)) :
    ∃ responses t,
      Session.respondAll ⟨Tree.empty config, []⟩ requests = .ok responses ∧
        (Session.after ⟨Tree.empty config, []⟩ responses).tree.subtree =
          .ok t ∧
        (Session.after ⟨Tree.empty config, []⟩ responses).Refuses t := by
  have hvalid := Config.validate_eq_ok_iff.mp hconfig
  obtain ⟨responses, t, hrespond, hlast, _⟩ :=
    (sound_new hvalid).exists_respondAll requests
  exact ⟨responses, t, hrespond, hlast.tree.subtree_eq, hlast.refuses⟩

/-- Both leaves are of least size, and a scan is parked in front of the second. -/
theorem refused_changes_leave_no_trace_before_parked_scan :
    ({ degree := 3 } : Config).validate = .ok () ∧
      ∃ responses t session,
        Session.respondAll ⟨Tree.empty { degree := 3 }, []⟩
            [.insert 1 'a', .insert 2 'b', .insert 3 'c', .insert 4 'd',
              .openScan 7 0, .nextEntries 7 1] = .ok responses ∧
          session = Session.after ⟨Tree.empty { degree := 3 }, []⟩ responses ∧
          session.tree.subtree = .ok t ∧ session.Refuses t ∧
          session.scans.map (fun e => e.2.walk.cursor) = [.leaf 1] ∧
          session.tree.insert 3 'x' =
            .ok { result := .error (.alreadyExists 3), tree := session.tree } ∧
          session.tree.remove 9 =
            .ok { result := .error (.notFound 9), tree := session.tree } := by
  have hconfig : ({ degree := 3 } : Config).validate = .ok () := rfl
  obtain ⟨responses, t, hrespond, hsubtree, hrefuses⟩ :=
    refused_changes_leave_no_trace hconfig
      [.insert 1 'a', .insert 2 'b', .insert 3 'c', .insert 4 'd',
        .openScan 7 0, .nextEntries 7 1]
  have hseen : (Session.respondAll ⟨Tree.empty { degree := 3 }, []⟩
      [.insert 1 'a', .insert 2 'b', .insert 3 'c', .insert 4 'd',
        .openScan 7 0, .nextEntries 7 1]).bind (fun responses =>
          let session := Session.after ⟨Tree.empty { degree := 3 }, []⟩ responses
          session.tree.subtree.map fun t => (t.entries.map (·.1),
            session.scans.map (fun e => e.2.walk.cursor))) =
      .ok ([1, 2, 3, 4], [.leaf 1]) := by
    decide +kernel
  rw [hrespond, Except.bind] at hseen
  dsimp only at hseen
  rw [hsubtree, Except.map, Except.ok.injEq] at hseen
  obtain ⟨hkeys, hscans⟩ := Prod.mk.inj hseen
  obtain ⟨inserted, hinsert, hinserted⟩ := hrefuses.inserts 3 'x'
  obtain ⟨removed, hremove, hremoved⟩ := hrefuses.removes 9
  rw [hkeys] at hinserted hremoved
  rw [hinserted.nothing (by decide)] at hinsert
  rw [hremoved.nothing (by decide)] at hremove
  exact ⟨hconfig, responses, t, _, hrespond, rfl, hsubtree, hrefuses, hscans,
    hinsert, hremove⟩

end Session

end LatchTree

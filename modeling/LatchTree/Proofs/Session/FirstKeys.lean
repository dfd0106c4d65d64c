import LatchTree.Proofs.Alike.Audit
import LatchTree.Proofs.Corresponding.Session
import LatchTree.Proofs.Session.Safety

/-!
# Sessions over alike trees

Two sessions whose trees differ in nothing but the keys of first children give
the same replies and the same events to all requests, and their trees never come
to differ in anything else.  So these keys, which splits, merges and borrows
carry along, are never taken for separators.
-/

namespace LatchTree

open Subtree

variable {V : Type}

theorem Scan.corresponds_identity_iff {scan other : Scan V} :
    scan.Corresponds .identity other ↔ scan = other := by
  constructor
  · intro hscan
    obtain ⟨⟨cursor, lower⟩, buffer⟩ := scan
    obtain ⟨⟨otherCursor, otherLower⟩, otherBuffer⟩ := other
    obtain ⟨⟨hcursor, hlower⟩, hbuffer⟩ := hscan
    cases hcursor
    cases KeyMap.maps_identity_iff.mp hlower
    cases KeyMap.mapsEntry_identity_iff.mp hbuffer
    rfl
  · rintro rfl
    exact ⟨⟨rfl, KeyMap.maps_identity _⟩,
      KeyMap.mapsEntry_identity_iff.mpr rfl⟩

namespace Session

structure Alike (first second : Session V) : Prop where
  tree : first.tree.Alike second.tree
  scans : first.scans = second.scans

end Session

structure Response.Alike (first second : Response V) : Prop where
  reply : first.reply = second.reply
  session : first.session.Alike second.session
  events : first.events = second.events

namespace Session

namespace Alike

variable {first second : Session V}

theorem corresponds (halike : first.Alike second)
    (hvalid : first.tree.config.Valid) : first.Corresponds .identity second where
  tree := halike.tree.corresponds hvalid
  scans := by
    rw [halike.scans]
    exact List.forall₂_same.mpr fun _ _ =>
      ⟨rfl, Scan.corresponds_identity_iff.mpr rfl⟩

theorem of_corresponds (hsession : first.Corresponds .identity second) :
    first.Alike second where
  tree := .of_corresponds hsession.tree
  scans := by
    rw [← List.forall₂_eq_eq_eq]
    exact hsession.scans.imp fun _ _ hentry =>
      Prod.ext hentry.1 (Scan.corresponds_identity_iff.mp hentry.2)

theorem of_response {response other : Response V}
    (hresponse : response.Corresponds .identity other) :
    response.Alike other where
  reply := by
    rw [hresponse.reply, Reply.mapKeys_identity]
  session := .of_corresponds hresponse.session
  events := by
    rw [hresponse.events, funext Event.mapKeys_identity, List.map_id']

theorem read (halike : first.Alike second) {α : Type}
    {run other : Except Fault α} (hsame : Follows Eq run other)
    (reply : α → Reply V) :
    Follows Response.Alike
      (do return { reply := reply (← run), session := first })
      (do return { reply := reply (← other), session := second }) :=
  hsame.bind fun _ _ hresult => .ok ⟨congrArg reply hresult, halike, rfl⟩

/-- If a request is performed in the first session, it is in the second one, with
the same reply and the same events. -/
theorem perform (halike : first.Alike second)
    (hvalid : first.tree.config.Valid) (request : Request V) :
    Follows Response.Alike (first.perform request)
      (second.perform request) := by
  have htree := halike.tree.corresponds hvalid
  have hzero := KeyMap.maps_identity 0
  have hdump : ∀ room, Follows Eq (first.tree.dumpWithin room)
      (second.tree.dumpWithin room) := by
    intro room
    rw [← Tree.dumpMapped_identity first.tree]
    exact htree.dumpWithin room
  cases hwhole : request.readsWhole with
  | false =>
      have hperform := (halike.corresponds hvalid).perform
        (fun _ _ => trivial) hwhole
      rw [Request.mapKeys_identity] at hperform
      exact hperform.imp fun _ _ => of_response
  | true =>
      cases request with
      | size => exact halike.read (htree.size hzero) .count
      | isEmpty => exact halike.read (htree.isEmpty hzero) .flag
      | audit =>
          exact .ok ⟨congrArg Reply.audited halike.tree.audit_eq, halike, rfl⟩
      | dump =>
          have htext : Follows Eq first.tree.dump second.tree.dump :=
            (hdump none).bind fun _ _ hshown => .ok (congrArg Prod.snd hshown)
          exact halike.read htext .text
      | dumpWithin room =>
          exact halike.read (hdump (some room)) fun cut => .cutText cut.1 cut.2
      | _ => cases hwhole

theorem exists_respondAll (halike : first.Alike second) {t : Subtree V}
    (hfirst : first.Sound t) (requests : List (Request V)) :
    ∃ responses others, first.respondAll requests = .ok responses ∧
      second.respondAll requests = .ok others ∧
      List.Forall₂ Response.Alike responses others := by
  induction requests generalizing first second t with
  | nil => exact ⟨[], [], rfl, rfl, .nil⟩
  | cons request rest ih =>
      obtain ⟨response, u, hperform, hnext, _⟩ := hfirst.exists_perform request
      obtain ⟨other, hother, hresponse⟩ :=
        (halike.perform hfirst.tree.valid request).exists_ok hperform
      obtain ⟨responses, others, hrest, hothers, hall⟩ :=
        ih hresponse.session hnext
      exact ⟨response :: responses, other :: others,
        respondAll_cons hperform hrest, respondAll_cons hother hothers,
        .cons hresponse hall⟩

end Alike

/-- The session over the same tree with other first keys. -/
def withFirstKeys (session : Session V) (choice : PageId → Option Key) :
    Session V :=
  { session with tree := session.tree.withFirstKeys choice }

/-- Reply and events are the same, and the sessions differ in first keys only.
-/
structure SameButFirstKeys (first second : Response V) : Prop where
  reply : second.reply = first.reply
  events : second.events = first.events
  session : ∃ choice, second.session = first.session.withFirstKeys choice

theorem SameButFirstKeys.of_alike {first second : Response V}
    (halike : first.Alike second) : SameButFirstKeys first second where
  reply := halike.reply.symm
  events := halike.events.symm
  session := by
    obtain ⟨choice, htree⟩ := Tree.alike_iff.mp halike.session.tree
    refine ⟨choice, ?_⟩
    rw [withFirstKeys, ← htree, halike.session.scans]

/-- Take any session that a new tree can come to, and give the first children of
any of its branches any other keys.  Neither session meets a fault on further
requests, and both give the same replies, with the same events, and stay the same
but for the keys of first children. -/
theorem first_keys_do_not_matter {config : Config}
    (hconfig : config.validate = .ok ()) (history : List (Request V))
    (choice : PageId → Option Key) (requests : List (Request V)) :
    ∃ session replies responses others,
      Session.runThread ⟨Tree.empty config, []⟩ history =
          .ok (session, replies) ∧
        session.respondAll requests = .ok responses ∧
        (session.withFirstKeys choice).respondAll requests = .ok others ∧
        List.Forall₂ SameButFirstKeys responses others := by
  have hvalid := Config.validate_eq_ok_iff.mp hconfig
  obtain ⟨session, replies, t, hrun, hsession⟩ :=
    (sound_new hvalid).exists_runThread history
  have halike : session.Alike (session.withFirstKeys choice) :=
    ⟨session.tree.alike_withFirstKeys choice, rfl⟩
  obtain ⟨responses, others, hresponses, hothers, hall⟩ :=
    halike.exists_respondAll hsession requests
  exact ⟨session, replies, responses, others, hrun, hresponses, hothers,
    hall.imp fun _ _ => SameButFirstKeys.of_alike⟩

/-- All branches of a tree of three levels get another first key.  Then a branch
is merged away, so that its first child moves behind another one. -/
theorem first_keys_do_not_matter_over_merge :
    ({ degree := 3 } : Config).validate = .ok () ∧
      ∃ session replies responses others,
        Session.runThread ⟨Tree.empty { degree := 3 }, []⟩
            [.insertAll ((List.range 16).map fun i => (.ofNat i, i))] =
          .ok (session, replies) ∧
        session.tree.firstKey? 6 = some 6 ∧
        (session.withFirstKeys fun _ => some 99).tree.firstKey? 6 = some 99 ∧
        session.respondAll [.removeAll [0, 1, 2], .dump] = .ok responses ∧
        responses.flatMap (·.events) =
          [.rebalanced .leaf .right .merge 2, .rebalanced .leaf .right .merge 1,
            .rebalanced .branch .right .merge 2] ∧
        (session.withFirstKeys fun _ => some 99).respondAll
            [.removeAll [0, 1, 2], .dump] = .ok others ∧
        List.Forall₂ SameButFirstKeys responses others := by
  have hconfig : ({ degree := 3 } : Config).validate = .ok () := rfl
  obtain ⟨session, replies, responses, others, hrun, hresponses, hothers,
    hall⟩ := first_keys_do_not_matter hconfig
      [.insertAll ((List.range 16).map fun i => (.ofNat i, i))]
      (fun _ => some 99) [.removeAll [0, 1, 2], .dump]
  have hkeys : (Session.runThread ⟨Tree.empty { degree := 3 }, []⟩
      [.insertAll ((List.range 16).map fun i => (.ofNat i, i))]).map
      (fun run => (run.1.tree.firstKey? 6,
        (run.1.withFirstKeys fun _ => some 99).tree.firstKey? 6)) =
      .ok (some 6, some 99) := by
    decide +kernel
  have hevents : ((Session.runThread ⟨Tree.empty { degree := 3 }, []⟩
      [.insertAll ((List.range 16).map fun i => (.ofNat i, i))]).bind fun run =>
      (run.1.respondAll [.removeAll [0, 1, 2], .dump]).map
        (fun responses => responses.flatMap (·.events))) =
      .ok [.rebalanced .leaf .right .merge 2, .rebalanced .leaf .right .merge 1,
        .rebalanced .branch .right .merge 2] := by
    decide +kernel
  rw [hrun, Except.map, Except.ok.injEq, Prod.mk.injEq] at hkeys
  rw [hrun, Except.bind, hresponses, Except.map, Except.ok.injEq] at hevents
  exact ⟨hconfig, session, replies, responses, others, hrun, hkeys.1, hkeys.2,
    hresponses, hevents, hothers, hall⟩

end Session

end LatchTree

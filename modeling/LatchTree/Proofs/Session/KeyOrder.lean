import LatchTree.Proofs.Corresponding.Session
import LatchTree.Proofs.Session.Safety

/-!
# Only the order of keys counts

Take the requests of a session and replace each key by its image under a map
that keeps the order of keys.  The responses are those to the first requests,
with the keys mapped in replies, events and dumps and with the same heights and
counters.  So no key is special, neither the key 0, at which a new tree and a
walk through all of it begin, nor the greatest key.
-/

namespace LatchTree

open Subtree

variable {V : Type} {g : KeyMap}

namespace Response

/-- What becomes of the reply to a request if all keys are mapped.  The reply to
a dump is the dump with the keys in it mapped. -/
def mappedReply (response : Response V) (g : KeyMap) :
    Request V → Except Fault (Reply V)
  | .dump => do
      return .text (← response.session.tree.dumpMapped g none).2
  | .dumpWithin room => do
      let (isWhole, text) ← response.session.tree.dumpMapped g (some room)
      return .cutText isWhole text
  | _ => .ok (response.reply.mapKeys g)

/-- The second response is the first one to the request with the keys mapped,
and so is all that the trees show after it. -/
structure Translated (g : KeyMap) (request : Request V)
    (first second : Response V) : Prop where
  reply : first.mappedReply g request = .ok second.reply
  events : second.events = first.events.map (Event.mapKeys g)
  height : second.session.tree.height = first.session.tree.height
  stats : second.session.tree.stats = first.session.tree.stats
  dump : ∀ room, ∃ shown, first.session.tree.dumpMapped g room = .ok shown ∧
    second.session.tree.dumpWithin room = .ok shown

end Response

namespace Session

/-- Sound sessions that correspond. -/
structure Paired (g : KeyMap) (first second : Session V) : Prop where
  corresponds : first.Corresponds g second
  first : ∃ t, first.Sound t
  second : ∃ u, second.Sound u

namespace Paired

variable {first second : Session V}

theorem exists_subtrees (hpaired : first.Paired g second) :
    ∃ t u, first.Sound t ∧ second.Sound u ∧ t.Corresponds g u := by
  obtain ⟨t, hfirst⟩ := hpaired.first
  obtain ⟨u, hsecond⟩ := hpaired.second
  obtain ⟨other, hother, hsubtrees⟩ :=
    hpaired.corresponds.tree.subtree.exists_ok hfirst.tree.subtree_eq
  rw [hsecond.tree.subtree_eq] at hother
  cases hother
  exact ⟨t, u, hfirst, hsecond, hsubtrees⟩

theorem exists_dump (hpaired : first.Paired g second) (room : Option Nat) :
    ∃ shown, first.tree.dumpMapped g room = .ok shown ∧
      second.tree.dumpWithin room = .ok shown := by
  obtain ⟨t, hfirst⟩ := hpaired.first
  have hdump : first.tree.dumpMapped g room =
      .ok ((first.tree.writeDump (t.mapKeys g)).runWithin room) := by
    rw [Tree.dumpMapped, hfirst.tree.subtree_eq]
    rfl
  obtain ⟨shown, hsecond, rfl⟩ :=
    (hpaired.corresponds.tree.dumpWithin room).exists_ok hdump
  exact ⟨_, hdump, hsecond⟩

theorem translated {request : Request V} {response other : Response V}
    (hpaired : response.session.Paired g other.session)
    (hreply : response.mappedReply g request = .ok other.reply)
    (hevents : other.events = response.events.map (Event.mapKeys g)) :
    response.Translated g request other where
  reply := hreply
  events := hevents
  height := hpaired.corresponds.tree.height.symm
  stats := hpaired.corresponds.tree.stats.symm
  dump := hpaired.exists_dump

theorem exists_perform_of_read (hpaired : first.Paired g second)
    {request : Request V} {reply other : Reply V}
    (hfirst : first.perform request = .ok ⟨reply, first, []⟩)
    (hsecond : second.perform request = .ok ⟨other, second, []⟩)
    (hreply : (⟨reply, first, []⟩ : Response V).mappedReply g request =
      .ok other) :
    ∃ response responseOther, first.perform request = .ok response ∧
      second.perform request = .ok responseOther ∧
      response.session.Paired g responseOther.session ∧
      response.Translated g request responseOther :=
  ⟨_, _, hfirst, hsecond, hpaired, translated hpaired hreply rfl⟩

/-- A request that shows the whole tree finds as many entries in both. -/
theorem exists_perform_whole (hpaired : first.Paired g second)
    {request : Request V} (hwhole : request.readsWhole) :
    ∃ response other, first.perform request = .ok response ∧
      second.perform request = .ok other ∧
      response.session.Paired g other.session ∧
      response.Translated g request other := by
  obtain ⟨t, u, hfirst, hsecond, hsubtrees⟩ := hpaired.exists_subtrees
  cases request with
  | size =>
      apply hpaired.exists_perform_of_read
      · rw [perform, hfirst.tree.size_eq]
        rfl
      · rw [perform, hsecond.tree.size_eq]
        rfl
      · rw [← hsubtrees.entries.length_eq]
        rfl
  | isEmpty =>
      apply hpaired.exists_perform_of_read
      · rw [perform, hfirst.tree.isEmpty_eq]
        rfl
      · rw [perform, hsecond.tree.isEmpty_eq]
        rfl
      · rw [← isEmpty_eq_of_forall₂ hsubtrees.entries]
        rfl
  | audit =>
      apply hpaired.exists_perform_of_read
      · rw [perform, hfirst.tree.audit_eq_ok]
        rfl
      · rw [perform, hsecond.tree.audit_eq_ok]
        rfl
      · rfl
  | dump =>
      obtain ⟨shown, hmapped, hshown⟩ := hpaired.exists_dump none
      apply hpaired.exists_perform_of_read
      · rw [perform, Tree.dump, Tree.dumpWithin, hfirst.tree.subtree_eq]
        rfl
      · rw [perform, Tree.dump, hshown]
        rfl
      · rw [Response.mappedReply, hmapped]
        rfl
  | dumpWithin room =>
      obtain ⟨shown, hmapped, hshown⟩ := hpaired.exists_dump (some room)
      apply hpaired.exists_perform_of_read
      · rw [perform, Tree.dumpWithin, hfirst.tree.subtree_eq]
        rfl
      · rw [perform, hshown]
        rfl
      · rw [Response.mappedReply, hmapped]
        rfl
  | _ => cases hwhole

theorem exists_perform (hpaired : first.Paired g second) {request : Request V}
    (hkeys : ∀ key ∈ request.keys, key ∈ g.keys) :
    ∃ response other, first.perform request = .ok response ∧
      second.perform (request.mapKeys g) = .ok other ∧
      response.session.Paired g other.session ∧
      response.Translated g request other := by
  cases hwhole : request.readsWhole with
  | true =>
      have hsame : request.mapKeys g = request := by
        cases request <;> first | rfl | cases hwhole
      rw [hsame]
      exact hpaired.exists_perform_whole hwhole
  | false =>
      obtain ⟨t, hfirst⟩ := hpaired.first
      obtain ⟨u, hsecond⟩ := hpaired.second
      obtain ⟨response, t', hperform, hnext, _⟩ := hfirst.exists_perform request
      obtain ⟨other, hother, hresponse⟩ :=
        (hpaired.corresponds.perform hkeys hwhole).exists_ok hperform
      obtain ⟨other', u', hother', hotherNext, _⟩ :=
        hsecond.exists_perform (request.mapKeys g)
      rw [hother] at hother'
      cases hother'
      have hreply : response.mappedReply g request = .ok other.reply := by
        rw [hresponse.reply]
        cases request <;> first | rfl | cases hwhole
      have hlater : response.session.Paired g other.session :=
        ⟨hresponse.session, ⟨t', hnext⟩, ⟨u', hotherNext⟩⟩
      exact ⟨response, other, hperform, hother, hlater,
        translated hlater hreply hresponse.events⟩

theorem exists_respondAll (hpaired : first.Paired g second)
    (requests : List (Request V))
    (hkeys : ∀ request ∈ requests, ∀ key ∈ request.keys, key ∈ g.keys) :
    ∃ responses others, first.respondAll requests = .ok responses ∧
      second.respondAll (requests.map (Request.mapKeys g)) = .ok others ∧
      responses.length = requests.length ∧
      List.Forall₂ (fun run other => run.2.Translated g run.1 other)
        (requests.zip responses) others := by
  induction requests generalizing first second with
  | nil => exact ⟨[], [], rfl, rfl, rfl, .nil⟩
  | cons request rest ih =>
      rw [List.forall_mem_cons] at hkeys
      obtain ⟨response, other, hperform, hother, hlater, htranslated⟩ :=
        hpaired.exists_perform hkeys.1
      obtain ⟨responses, others, hrest, hothers, hlength, hall⟩ :=
        ih hlater hkeys.2
      exact ⟨response :: responses, other :: others,
        respondAll_cons hperform hrest, respondAll_cons hother hothers,
        congrArg (· + 1) hlength, .cons htranslated hall⟩

end Paired

theorem paired_new (g : KeyMap) {config : Config} (hvalid : config.Valid) :
    (⟨Tree.empty config, []⟩ : Session V).Paired g ⟨Tree.empty config, []⟩ where
  corresponds := ⟨Tree.corresponds_empty g hvalid, .nil⟩
  first := ⟨_, sound_new hvalid⟩
  second := ⟨_, sound_new hvalid⟩

/-- Over a new tree, no request meets a fault, neither as it is nor with its keys
mapped, and the responses differ by the map alone. -/
theorem only_key_order_matters {config : Config}
    (hconfig : config.validate = .ok ()) (g : KeyMap)
    (requests : List (Request V))
    (hkeys : ∀ request ∈ requests, ∀ key ∈ request.keys, key ∈ g.keys) :
    ∃ responses others,
      Session.respondAll ⟨Tree.empty config, []⟩ requests = .ok responses ∧
        Session.respondAll ⟨Tree.empty config, []⟩
            (requests.map (Request.mapKeys g)) = .ok others ∧
        responses.length = requests.length ∧
        List.Forall₂ (fun run other => run.2.Translated g run.1 other)
          (requests.zip responses) others :=
  (paired_new g (Config.validate_eq_ok_iff.mp hconfig)).exists_respondAll
    requests hkeys

/-- Four keys, the least sent to the least key there is and the greatest to the
greatest. -/
def toBothEnds : KeyMap where
  keys := {key | key ∈ ([3, 9, 12, 20] : List Key)}
  map := fun key =>
    if key = 3 then 0 else if key = 20 then 18446744073709551615 else key + 491
  increasing := by
    have hkeys : ∀ key ∈ ([3, 9, 12, 20] : List Key),
        key = 3 ∨ key = 9 ∨ key = 12 ∨ key = 20 := by simp
    intro a ha b hb
    rcases hkeys a ha with rfl | rfl | rfl | rfl <;>
      rcases hkeys b hb with rfl | rfl | rfl | rfl <;> decide

/-- A leaf is split and merged again while a scan is open. -/
def requestsOverMerge : List (Request Nat) :=
  [.insertAll [(3, 0), (9, 1), (20, 2), (12, 3)], .openScan 1 3,
    .nextEntries 1 1, .remove 3, .lookup 3, .insert 20 4, .nextEntries 1 5,
    .range 3 2, .size, .dump]

theorem only_key_order_matters_at_both_ends :
    ({ degree := 3 } : Config).validate = .ok () ∧
      (∀ request ∈ requestsOverMerge, ∀ key ∈ request.keys,
        key ∈ toBothEnds.keys) ∧
      ∃ responses others,
        Session.respondAll ⟨Tree.empty { degree := 3 }, []⟩ requestsOverMerge =
          .ok responses ∧
        responses.flatMap (·.events) =
          [.pageSplit .leaf 2 12, .rootSplit 2 12,
            .rebalanced .leaf .right .merge 1, .rootCollapsed 1] ∧
        Session.respondAll ⟨Tree.empty { degree := 3 }, []⟩
            (requestsOverMerge.map (Request.mapKeys toBothEnds)) = .ok others ∧
        others.getLast?.map (·.session.tree.dump) = some (.ok
          "Tree(degree=3, height=1)\nleaf [500, 503, 18446744073709551615]\n") ∧
        responses.length = requestsOverMerge.length ∧
        List.Forall₂ (fun run other => run.2.Translated toBothEnds run.1 other)
          (requestsOverMerge.zip responses) others := by
  have hconfig : ({ degree := 3 } : Config).validate = .ok () := rfl
  have hkeys : ∀ request ∈ requestsOverMerge, ∀ key ∈ request.keys,
      key ∈ ([3, 9, 12, 20] : List Key) := by
    simp [requestsOverMerge, Request.keys]
  obtain ⟨responses, others, hresponses, hothers, hlength, hall⟩ :=
    only_key_order_matters hconfig toBothEnds requestsOverMerge hkeys
  have hevents : (Session.respondAll ⟨Tree.empty { degree := 3 }, []⟩
      requestsOverMerge).map (fun responses => responses.flatMap (·.events)) =
      .ok [.pageSplit .leaf 2 12, .rootSplit 2 12,
        .rebalanced .leaf .right .merge 1, .rootCollapsed 1] := by
    decide +kernel
  have hdump : (Session.respondAll ⟨Tree.empty { degree := 3 }, []⟩
      (requestsOverMerge.map (Request.mapKeys toBothEnds))).map
        (fun others => others.getLast?.map (·.session.tree.dump)) =
      .ok (some (.ok
        "Tree(degree=3, height=1)\nleaf [500, 503, 18446744073709551615]\n")) := by
    decide +kernel
  rw [hresponses, Except.map, Except.ok.injEq] at hevents
  rw [hothers, Except.map, Except.ok.injEq] at hdump
  exact ⟨hconfig, hkeys, responses, others, hresponses, hevents, hothers, hdump,
    hlength, hall⟩

end Session

end LatchTree

import LatchTree.Session.Basic
import LatchTree.Proofs.Corresponding.Changing
import LatchTree.Proofs.Corresponding.Dump

/-!
# Corresponding sessions

Two sessions correspond if their trees do and if the same scans are open, with
corresponding bounds and buffers.  A request and the request with its keys mapped
have corresponding responses and leave corresponding sessions.  Left aside here
are the requests that show a tree as a whole: they begin at the key 0, which need
not be among the keys of the map, or they write a text.
-/

namespace LatchTree

variable {V : Type} {g : KeyMap}

namespace Request

def keys : Request V → List Key
  | .insert key _ | .remove key | .lookup key | .get key | .contains key
  | .range key _ | .entriesFrom key | .openScan _ key => [key]
  | .insertAll entries => entries.map (·.1)
  | .removeAll keys | .containsAll keys => keys
  | _ => []

/-- The same request for the images of its keys. -/
def mapKeys (g : KeyMap) : Request V → Request V
  | .insert key value => .insert (g key) value
  | .remove key => .remove (g key)
  | .lookup key => .lookup (g key)
  | .get key => .get (g key)
  | .contains key => .contains (g key)
  | .range start count => .range (g start) count
  | .entriesFrom start => .entriesFrom (g start)
  | .insertAll entries => .insertAll (g.mapEntries entries)
  | .removeAll keys => .removeAll (keys.map g)
  | .containsAll keys => .containsAll (keys.map g)
  | .openScan id start => .openScan id (g start)
  | request => request

theorem mapKeys_identity (request : Request V) :
    request.mapKeys .identity = request := by
  cases request with
  | insertAll entries =>
      exact congrArg insertAll (KeyMap.mapEntries_identity entries)
  | removeAll keys => exact congrArg removeAll (List.map_id keys)
  | containsAll keys => exact congrArg containsAll (List.map_id keys)
  | _ => rfl

def readsWhole : Request V → Bool
  | .size | .isEmpty | .audit | .dump | .dumpWithin _ => true
  | _ => false

end Request

/-- The reply with the keys in it mapped.  Texts stay as they are. -/
def Reply.mapKeys (g : KeyMap) : Reply V → Reply V
  | .refused error => .refused (error.mapKeys g)
  | .entries found => .entries (g.mapEntries found)
  | reply => reply

theorem Reply.mapKeys_identity (reply : Reply V) :
    reply.mapKeys .identity = reply := by
  cases reply with
  | refused error => exact congrArg refused (TreeError.mapKeys_identity error)
  | entries found => exact congrArg entries (KeyMap.mapEntries_identity found)
  | _ => rfl

theorem Reply.ofInsert_eq {first second : Except TreeError Unit}
    (hresult : MapsResult g first second) :
    (ofInsert second : Reply V) = (ofInsert first).mapKeys g := by
  cases hresult
  cases first <;> rfl

theorem Reply.ofValue_eq {first second : Except TreeError V}
    (hresult : MapsResult g first second) :
    ofValue second = (ofValue first).mapKeys g := by
  cases hresult
  cases first <;> rfl

structure Session.Corresponds (g : KeyMap) (first second : Session V) : Prop where
  tree : first.tree.Corresponds g second.tree
  scans : List.Forall₂ (fun a b => a.1 = b.1 ∧ a.2.Corresponds g b.2)
    first.scans second.scans

structure Response.Corresponds (g : KeyMap) (first second : Response V) :
    Prop where
  reply : second.reply = first.reply.mapKeys g
  session : first.session.Corresponds g second.session
  events : second.events = first.events.map (Event.mapKeys g)

namespace Session.Corresponds

variable {first second : Session V}

theorem same (hsession : first.Corresponds g second) {reply : Reply V}
    (hreply : reply.mapKeys g = reply) :
    Response.Corresponds g { reply, session := first }
      { reply, session := second } :=
  ⟨hreply.symm, hsession, rfl⟩

theorem read (hsession : first.Corresponds g second) {α : Type}
    {R : α → α → Prop} {run other : Except Fault α} (hrun : Follows R run other)
    {reply : α → Reply V}
    (hreply : ∀ a b, R a b → reply b = (reply a).mapKeys g) :
    Follows (Response.Corresponds g)
      (do return { reply := reply (← run), session := first })
      (do return { reply := reply (← other), session := second }) :=
  hrun.bind fun a b hab => .ok ⟨hreply a b hab, hsession, rfl⟩

theorem change (hsession : first.Corresponds g second) {α : Type}
    {R : α → α → Prop} {run other : Except Fault (Outcome V α)}
    (hrun : Follows (Outcome.Corresponds g R) run other) {reply : α → Reply V}
    (hreply : ∀ a b, R a b → reply b = (reply a).mapKeys g) :
    Follows (Response.Corresponds g) (do return first.changed (← run) reply)
      (do return second.changed (← other) reply) :=
  hrun.bind fun _ _ hone =>
    .ok ⟨hreply _ _ hone.result, ⟨hone.tree, hsession.scans⟩, hone.events⟩

theorem closeScan (hsession : first.Corresponds g second) (id : ScanId) :
    (first.closeScan id).Corresponds g (second.closeScan id) where
  tree := hsession.tree
  scans := by
    refine List.rel_filter ?_ hsession.scans
    intro entry other hentry
    simp only [hentry.1]

theorem keepScan (hsession : first.Corresponds g second) (id : ScanId)
    {scan other : Scan V} (hscan : scan.Corresponds g other) :
    (first.keepScan id scan).Corresponds g (second.keepScan id other) where
  tree := hsession.tree
  scans := .cons ⟨rfl, hscan⟩ (hsession.closeScan id).scans

theorem lookup_scan (hsession : first.Corresponds g second) (id : ScanId) :
    Option.Rel (Scan.Corresponds g) (first.scans.lookup id)
      (second.scans.lookup id) := by
  have hscans := hsession.scans
  generalize first.scans = scans at hscans ⊢
  generalize second.scans = others at hscans ⊢
  induction hscans with
  | nil => exact .none
  | cons hentry _ ih =>
      rw [List.lookup_cons, List.lookup_cons, hentry.1]
      split
      · exact .some hentry.2
      · exact ih

theorem nextEntries (hsession : first.Corresponds g second) (id : ScanId)
    (count : Nat) :
    Follows (Response.Corresponds g) (first.nextEntries id count)
      (second.nextEntries id count) := by
  have hscan := hsession.lookup_scan id
  unfold Session.nextEntries
  generalize first.scans.lookup id = scan at hscan ⊢
  generalize second.scans.lookup id = other at hscan ⊢
  cases hscan with
  | none => exact .ok (hsession.same rfl)
  | some hscan =>
      refine (hscan.take hsession.tree count).bind ?_
      rintro ⟨entries, scan⟩ ⟨others, other⟩ ⟨hentries, hlater⟩
      have hreply : (Reply.entries others : Reply V) =
          (Reply.entries entries).mapKeys g :=
        congrArg Reply.entries (KeyMap.mapEntries_eq hentries).symm
      exact .ok ⟨hreply, hsession.keepScan id hlater, rfl⟩

/-- Each request but those that show the tree as a whole. -/
theorem perform (hsession : first.Corresponds g second) {request : Request V}
    (hkeys : ∀ key ∈ request.keys, key ∈ g.keys)
    (hpart : request.readsWhole = false) :
    Follows (Response.Corresponds g) (first.perform request)
      (second.perform (request.mapKeys g)) := by
  have htree := hsession.tree
  have hmaps : ∀ key, request.keys = [key] → g.Maps key (g key) := by
    intro key hone
    apply KeyMap.maps_of_mem
    apply hkeys
    rw [hone]
    exact List.mem_singleton_self key
  cases request with
  | insert key value =>
      have hinsert := htree.insert (hmaps key rfl) value
      exact hsession.change hinsert fun _ _ => Reply.ofInsert_eq
  | remove key =>
      have hremove := htree.remove (hmaps key rfl)
      exact hsession.change hremove fun _ _ => Reply.ofValue_eq
  | lookup key =>
      have hlookup := htree.lookup (hmaps key rfl)
      exact hsession.read hlookup fun _ _ => Reply.ofValue_eq
  | get key =>
      have hget := htree.get? (hmaps key rfl)
      exact hsession.read hget fun _ _ hsame => congrArg Reply.optional hsame.symm
  | contains key =>
      have hcontains := htree.contains (hmaps key rfl)
      exact hsession.read hcontains fun _ _ hsame =>
        congrArg Reply.flag hsame.symm
  | size => cases hpart
  | isEmpty => cases hpart
  | height =>
      have hheight := congrArg (Reply.count (V := V)) htree.height
      exact .ok ⟨hheight.symm, hsession, rfl⟩
  | degree =>
      have hdegree := congrArg (fun config => Reply.count (V := V) config.degree)
        htree.config
      exact .ok ⟨hdegree.symm, hsession, rfl⟩
  | stats =>
      have hstats := congrArg (Reply.stats (V := V)) htree.stats
      exact .ok ⟨hstats.symm, hsession, rfl⟩
  | reportStats =>
      have hreport := congrArg (fun stats => [Event.statsReport stats]) htree.stats
      exact .ok ⟨rfl, hsession, hreport.symm⟩
  | dump => cases hpart
  | dumpWithin room => cases hpart
  | describe =>
      have htext := congrArg (fun text => Reply.text (V := V) text.inline)
        htree.describe_eq
      exact .ok ⟨htext.symm, hsession, rfl⟩
  | describeIndented =>
      have htext := congrArg (fun text => Reply.text (V := V) (text.indented ""))
        htree.describe_eq
      exact .ok ⟨htext.symm, hsession, rfl⟩
  | audit => cases hpart
  | range start count =>
      have hrange := htree.range (hmaps start rfl) count
      exact hsession.read hrange fun _ _ hsame => congrArg Reply.values hsame.symm
  | entriesFrom start =>
      have hentries := htree.entriesFrom (hmaps start rfl)
      exact hsession.read hentries fun _ _ hall =>
        congrArg Reply.entries (KeyMap.mapEntries_eq hall).symm
  | insertAll entries =>
      have hall : List.Forall₂ g.MapsEntry entries (g.mapEntries entries) :=
        KeyMap.mapsEntry_mapEntries fun e he =>
          hkeys e.1 (List.mem_map_of_mem he)
      exact hsession.change (htree.insertAll hall) fun _ _ hsame =>
        congrArg Reply.tally hsame.symm
  | removeAll keys =>
      have hall := htree.removeAll (KeyMap.maps_map hkeys)
      exact hsession.change hall fun _ _ hsame => congrArg Reply.tally hsame.symm
  | containsAll keys =>
      have hall := htree.containsAll (KeyMap.maps_map hkeys)
      exact hsession.read hall fun _ _ hsame => congrArg Reply.tally hsame.symm
  | openScan id start =>
      have hscan := Scan.corresponds_start (V := V) (hmaps start rfl)
      exact .ok ⟨rfl, hsession.keepScan id hscan, rfl⟩
  | nextEntries id count => exact hsession.nextEntries id count
  | closeScan id => exact .ok ⟨rfl, hsession.closeScan id, rfl⟩

end Session.Corresponds

end LatchTree

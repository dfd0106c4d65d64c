import LatchTree.Session.Workload
import LatchTree.Proofs.Tree.History
import LatchTree.Proofs.Scan.Rest

/-!
# The tree as a sorted map

Seen from outside, a tree is a finite map with sorted keys.  Requests that
concern the entries only are map requests.  A session replies to them what a
sorted map answers, whatever came before, for the entries of a sound tree are
those of the map.
-/

namespace LatchTree

open Std Subtree

variable {V : Type}

abbrev Reference (V : Type) := TreeMap Key V

inductive MapRequest (V : Type) where
  | insert (key : Key) (value : V)
  | remove (key : Key)
  | lookup (key : Key)
  | get (key : Key)
  | contains (key : Key)
  | size
  | isEmpty
  | range (start : Key) (count : Nat)
  | entriesFrom (start : Key)

namespace Reference

/-- The entries whose keys are not below `start`, in ascending order of the
keys. -/
def entriesFrom (map : Reference V) (start : Key) : List (Key × V) :=
  map.toList.filter (start ≤ ·.1)

def reply (map : Reference V) : MapRequest V → Reply V
  | .insert key _ =>
      if map.contains key then .refused (.alreadyExists key) else .done
  | .remove key | .lookup key =>
      match map[key]? with
      | some value => .value value
      | none => .refused (.notFound key)
  | .get key => .optional map[key]?
  | .contains key => .flag (map.contains key)
  | .size => .count map.size
  | .isEmpty => .flag map.isEmpty
  | .range start count =>
      .values (((map.entriesFrom start).take count).map (·.2))
  | .entriesFrom start => .entries (map.entriesFrom start)

/-- The map after a request.  An insertion does not replace a value. -/
def next (map : Reference V) : MapRequest V → Reference V
  | .insert key value => if map.contains key then map else map.insert key value
  | .remove key => map.erase key
  | _ => map

def replies (map : Reference V) : List (MapRequest V) → List (Reply V)
  | [] => []
  | request :: rest => map.reply request :: (map.next request).replies rest

/-- The map after all requests. -/
def after (map : Reference V) : List (MapRequest V) → Reference V
  | [] => map
  | request :: rest => (map.next request).after rest

end Reference

def MapRequest.toRequest : MapRequest V → Request V
  | .insert key value => .insert key value
  | .remove key => .remove key
  | .lookup key => .lookup key
  | .get key => .get key
  | .contains key => .contains key
  | .size => .size
  | .isEmpty => .isEmpty
  | .range start count => .range start count
  | .entriesFrom start => .entriesFrom start

/-! ## Entries of the map -/

namespace Reference

variable {map : Reference V} {entries : List (Key × V)} {key : Key}

theorem ascending_toList (map : Reference V) : Ascending map.toList :=
  TreeMap.ordered_keys_toList.imp fun hkeys => compare_eq_lt.mp hkeys

theorem lookup_toList (map : Reference V) (key : Key) :
    map.toList.lookup key = map[key]? := by
  apply Option.ext
  intro value
  rw [map.ascending_toList.lookup_eq_some_iff,
    TreeMap.mem_toList_iff_getElem?_eq_some]

theorem eq_toList_insert (hentries : Ascending entries)
    (habsent : map[key]? = none) (value : V)
    (hmem : ∀ e, e ∈ entries ↔ e = (key, value) ∨ e ∈ map.toList) :
    entries = (map.insert key value).toList := by
  refine hentries.ext (ascending_toList _) fun e => ?_
  obtain ⟨other, found⟩ := e
  rw [hmem, TreeMap.mem_toList_iff_getElem?_eq_some,
    TreeMap.mem_toList_iff_getElem?_eq_some, TreeMap.getElem?_insert,
    Prod.mk.injEq]
  by_cases hkey : key = other
  · subst hkey
    rw [if_pos compare_self, habsent, Option.some.injEq]
    simp [eq_comm]
  · rw [if_neg fun hcompare => hkey (LawfulEqCmp.eq_of_compare hcompare)]
    simp [Ne.symm hkey]

theorem eq_toList_erase (hentries : Ascending entries)
    (hmem : ∀ e, e ∈ entries ↔ e ∈ map.toList ∧ e.1 ≠ key) :
    entries = (map.erase key).toList := by
  refine hentries.ext (ascending_toList _) fun e => ?_
  obtain ⟨other, found⟩ := e
  rw [hmem, TreeMap.mem_toList_iff_getElem?_eq_some,
    TreeMap.mem_toList_iff_getElem?_eq_some, TreeMap.getElem?_erase]
  by_cases hkey : key = other
  · subst hkey
    rw [if_pos compare_self]
    simp
  · rw [if_neg fun hcompare => hkey (LawfulEqCmp.eq_of_compare hcompare)]
    simp [Ne.symm hkey]

end Reference

/-! ## Replies -/

/-- The entries of the tree are those of the map. -/
structure Tree.Mirrors (tree : Tree V) (t : Subtree V) (map : Reference V) :
    Prop where
  sound : tree.Sound t
  entries : t.entries = map.toList

namespace Tree.Mirrors

variable {tree : Tree V} {t : Subtree V} {map : Reference V}

theorem empty {config : Config} (hvalid : config.Valid) :
    (Tree.empty config : Tree V).Mirrors (.leaf 0 {}) ∅ where
  sound := sound_empty hvalid
  entries := by
    rw [entries_leaf]
    exact (List.isEmpty_iff.mp
      (TreeMap.isEmpty_toList.trans TreeMap.isEmpty_emptyc)).symm

/-- Any sound tree mirrors the map of its entries. -/
theorem of_sound (hsound : tree.Sound t) :
    tree.Mirrors t (TreeMap.ofList t.entries) where
  sound := hsound
  entries := by
    have hascending := hsound.wellFormed.fits.ascending
    have hdistinct : t.entries.Pairwise
        fun a b => ¬ compare a.1 b.1 = .eq :=
      hascending.imp fun hlt => by rw [compare_eq_lt.mpr hlt]; nofun
    refine hascending.ext (Reference.ascending_toList _) fun e => ?_
    obtain ⟨key, value⟩ := e
    rw [TreeMap.mem_toList_iff_getElem?_eq_some]
    constructor
    · exact TreeMap.getElem?_ofList_of_mem compare_self hdistinct
    · intro hfound
      by_cases hkey : key ∈ t.entries.map Prod.fst
      · obtain ⟨⟨_, other⟩, hmem, rfl⟩ := List.mem_map.mp hkey
        rw [TreeMap.getElem?_ofList_of_mem compare_self hdistinct hmem] at hfound
        cases hfound
        exact hmem
      · rw [TreeMap.getElem?_ofList_of_contains_eq_false] at hfound
        · cases hfound
        · simpa using hkey

theorem lookup_eq (hmirrors : tree.Mirrors t map) (key : Key) :
    t.entries.lookup key = map[key]? := by
  rw [hmirrors.entries, Reference.lookup_toList]

theorem exists_insert (hmirrors : tree.Mirrors t map) (key : Key) (value : V) :
    ∃ outcome u, tree.insert key value = .ok outcome ∧
      Reply.ofInsert outcome.result = map.reply (.insert key value) ∧
      outcome.tree.Mirrors u (map.next (.insert key value)) := by
  have hlookup := hmirrors.lookup_eq key
  simp only [Reference.reply, Reference.next,
    TreeMap.contains_eq_isSome_getElem?]
  cases hfound : map[key]? with
  | some found =>
      rw [hfound] at hlookup
      have hpresent :=
        hmirrors.sound.insert_present (by rw [hlookup]; rfl) value
      exact ⟨_, t, hpresent, rfl, hmirrors⟩
  | none =>
      rw [hfound] at hlookup
      obtain ⟨_, _, _, _, settled, next, _, _, hinsert, hnext, _, hmem⟩ :=
        hmirrors.sound.exists_insert_absent hlookup value
      rw [hmirrors.entries] at hmem
      exact ⟨_, settled.tree, hinsert, rfl, hnext,
        Reference.eq_toList_insert hnext.wellFormed.fits.ascending hfound value
          hmem⟩

theorem exists_remove (hmirrors : tree.Mirrors t map) (key : Key) :
    ∃ outcome u, tree.remove key = .ok outcome ∧
      Reply.ofValue outcome.result = map.reply (.remove key) ∧
      outcome.tree.Mirrors u (map.next (.remove key)) := by
  have hlookup := hmirrors.lookup_eq key
  simp only [Reference.reply, Reference.next]
  cases hfound : map[key]? with
  | some value =>
      rw [hfound] at hlookup
      obtain ⟨_, _, _, _, settled, next, _, _, hremove, hnext, _, hmem⟩ :=
        hmirrors.sound.exists_remove_present hlookup
      rw [hmirrors.entries] at hmem
      exact ⟨_, settled.tree, hremove, rfl, hnext,
        Reference.eq_toList_erase hnext.wellFormed.fits.ascending hmem⟩
  | none =>
      rw [hfound] at hlookup
      have habsent := hmirrors.sound.remove_absent hlookup
      refine ⟨_, t, habsent, rfl, hmirrors.sound, ?_⟩
      -- There is nothing to erase.
      refine Reference.eq_toList_erase hmirrors.sound.wellFormed.fits.ascending
        fun e => ?_
      rw [hmirrors.entries, iff_self_and]
      rintro he rfl
      rw [TreeMap.mem_toList_iff_getElem?_eq_some.mp he] at hfound
      cases hfound

theorem exists_perform_of_read (hmirrors : tree.Mirrors t map)
    {scans : List (ScanId × Scan V)}
    {request : MapRequest V} (hkept : map.next request = map)
    (hperform : Session.perform ⟨tree, scans⟩ request.toRequest =
      .ok { reply := map.reply request, session := ⟨tree, scans⟩ }) :
    ∃ response u, Session.perform ⟨tree, scans⟩ request.toRequest =
      .ok response ∧ response.reply = map.reply request ∧
      response.session.tree.Mirrors u (map.next request) :=
  ⟨_, t, hperform, rfl, hkept.symm ▸ hmirrors⟩

theorem exists_perform (hmirrors : tree.Mirrors t map)
    (scans : List (ScanId × Scan V)) (request : MapRequest V) :
    ∃ response u, Session.perform ⟨tree, scans⟩ request.toRequest =
      .ok response ∧ response.reply = map.reply request ∧
      response.session.tree.Mirrors u (map.next request) := by
  have hsound := hmirrors.sound
  cases request with
  | insert key value =>
      obtain ⟨outcome, u, hinsert, hreply, hnext⟩ :=
        hmirrors.exists_insert key value
      refine ⟨⟨_, ⟨outcome.tree, scans⟩, outcome.events⟩, u, ?_, hreply, hnext⟩
      rw [MapRequest.toRequest, Session.perform, hinsert]
      rfl
  | remove key =>
      obtain ⟨outcome, u, hremove, hreply, hnext⟩ := hmirrors.exists_remove key
      refine ⟨⟨_, ⟨outcome.tree, scans⟩, outcome.events⟩, u, ?_, hreply, hnext⟩
      rw [MapRequest.toRequest, Session.perform, hremove]
      rfl
  | lookup key =>
      apply hmirrors.exists_perform_of_read rfl
      rw [MapRequest.toRequest, Session.perform, hsound.lookup_eq,
        hmirrors.lookup_eq, Reference.reply]
      cases map[key]? <;> rfl
  | get key =>
      apply hmirrors.exists_perform_of_read rfl
      rw [MapRequest.toRequest, Session.perform, hsound.get?_eq_lookup,
        hmirrors.lookup_eq]
      rfl
  | contains key =>
      apply hmirrors.exists_perform_of_read rfl
      rw [MapRequest.toRequest, Session.perform, hsound.contains_eq,
        hmirrors.lookup_eq, ← TreeMap.contains_eq_isSome_getElem?]
      rfl
  | size =>
      apply hmirrors.exists_perform_of_read rfl
      rw [MapRequest.toRequest, Session.perform, hsound.size_eq,
        hmirrors.entries, TreeMap.length_toList]
      rfl
  | isEmpty =>
      apply hmirrors.exists_perform_of_read rfl
      rw [MapRequest.toRequest, Session.perform, hsound.isEmpty_eq,
        hmirrors.entries, TreeMap.isEmpty_toList]
      rfl
  | range start count =>
      apply hmirrors.exists_perform_of_read rfl
      rw [MapRequest.toRequest, Session.perform, hsound.range_eq,
        hmirrors.entries]
      rfl
  | entriesFrom start =>
      apply hmirrors.exists_perform_of_read rfl
      rw [MapRequest.toRequest, Session.perform, hsound.entriesFrom_eq,
        hmirrors.entries]
      rfl

theorem exists_runThread_after (hmirrors : tree.Mirrors t map)
    (scans : List (ScanId × Scan V)) (requests : List (MapRequest V)) :
    ∃ session u, Session.runThread ⟨tree, scans⟩ (requests.map (·.toRequest)) =
        .ok (session, map.replies requests) ∧
      session.tree.Mirrors u (map.after requests) := by
  induction requests generalizing tree t map scans with
  | nil => exact ⟨_, t, rfl, hmirrors⟩
  | cons request rest ih =>
      obtain ⟨⟨reply, ⟨next, nextScans⟩, events⟩, u, hperform, hreply, hnext⟩ :=
        hmirrors.exists_perform scans request
      obtain ⟨session, last, hrest, hlast⟩ := ih hnext nextScans
      refine ⟨session, last, ?_, hlast⟩
      rw [List.map_cons, Session.runThread, hperform]
      simp only [bind, Except.bind, hrest, Reference.replies, ← hreply]
      rfl

theorem exists_runThread (hmirrors : tree.Mirrors t map)
    (scans : List (ScanId × Scan V)) (requests : List (MapRequest V)) :
    ∃ session, Session.runThread ⟨tree, scans⟩ (requests.map (·.toRequest)) =
      .ok (session, map.replies requests) := by
  obtain ⟨session, _, hrun, _⟩ :=
    hmirrors.exists_runThread_after scans requests
  exact ⟨session, hrun⟩

end Tree.Mirrors

namespace Session

/-- A session over a new tree replies to any list of map requests what a sorted
map answers that is empty at first. -/
theorem replies_of_new_tree {config : Config}
    (hconfig : config.validate = .ok ()) (requests : List (MapRequest V)) :
    ∃ session, Session.runThread ⟨Tree.empty config, []⟩
      (requests.map (·.toRequest)) =
      .ok (session, Reference.replies ∅ requests) :=
  (Tree.Mirrors.empty (Config.validate_eq_ok_iff.mp hconfig)).exists_runThread
    [] requests

/-- The least and the greatest key are keys like others. -/
theorem replies_of_new_tree_at_ends :
    ({ degree := 3 } : Config).validate = .ok () ∧
      ∃ session,
        Session.runThread ⟨Tree.empty { degree := 3 }, []⟩
            (([.insert 0 'a', .insert 18446744073709551615 'b', .insert 5 'c',
              .insert 7 'd', .insert 5 'e', .remove 0, .remove 0, .get 5,
              .range 5 2, .size, .entriesFrom 6] :
              List (MapRequest Char)).map (·.toRequest)) =
          .ok (session,
            [.done, .done, .done, .done, .refused (.alreadyExists 5),
              .value 'a', .refused (.notFound 0), .optional (some 'c'),
              .values ['c', 'd'], .count 3,
              .entries [(7, 'd'), (18446744073709551615, 'b')]]) := by
  have hconfig : ({ degree := 3 } : Config).validate = .ok () := rfl
  obtain ⟨session, hrun⟩ := replies_of_new_tree hconfig
    [.insert 0 'a', .insert 18446744073709551615 'b', .insert 5 'c',
      .insert 7 'd', .insert 5 'e', .remove 0, .remove 0, .get 5,
      .range 5 2, .size, .entriesFrom 6]
  refine ⟨hconfig, session, hrun.trans ?_⟩
  congr 2

end Session

end LatchTree

import LatchTree.Proofs.Session.Safety
import LatchTree.Proofs.Session.Schedules

/-!
# Independence of the schedule

The shape of the tree depends on the order in which the requests of several
threads are performed.  What each thread is told, and what the tree stores in the
end, does not, if no thread changes a key that another one uses.  If all threads
insert, or all remove, they may fight for keys: it does not matter in total who
comes first.
-/

namespace LatchTree

variable {V : Type}

/-- A schedule, the session after it, and the replies in its order. -/
structure Run (V : Type) where
  schedule : Schedule V
  last : Session V
  replies : List (Reply V)

namespace Run

def repliesByThread (run : Run V) (count : Nat) : List (List (Reply V)) :=
  byThread count (run.schedule.deliver run.replies)

/-- How many requests on the key succeed. -/
def successes (run : Run V) (key : Key) : Nat :=
  (outcomes run.schedule.requests run.replies).count (key, "ok")

/-- The run is one of the session, and the tree passes the audit at its end. -/
structure From (run : Run V) (session : Session V) : Prop where
  performed : session.runThread run.schedule.toThread =
    .ok (run.last, run.replies)
  audited : run.last.tree.audit = .ok ()

/-- Each thread gets the same replies, and the trees store the same entries. -/
structure Agree (threads : List (List (KeyRequest V))) (first second : Run V) :
    Prop where
  replies : first.repliesByThread threads.length =
    second.repliesByThread threads.length
  entries : ∃ entries, first.last.tree.entriesFrom 0 = .ok entries ∧
    second.last.tree.entriesFrom 0 = .ok entries ∧
    first.last.tree.size = .ok entries.length ∧
    second.last.tree.size = .ok entries.length

/-- All threads together get the same results, the trees store the same keys, and
on each key that is used just one request succeeds, if its presence in the session
is the one to start from, and else none. -/
structure AgreeInTotal (session : Session V) (present : Bool)
    (threads : List (List (KeyRequest V))) (first second : Run V) : Prop where
  totals : (Reply.totals (first.repliesByThread threads.length)).Perm
    (Reply.totals (second.repliesByThread threads.length))
  keys : ∃ entries others, first.last.tree.entriesFrom 0 = .ok entries ∧
    second.last.tree.entriesFrom 0 = .ok others ∧
    entries.map (·.1) = others.map (·.1)
  winners : ∀ thread ∈ threads, ∀ request ∈ thread,
    ∃ found, session.tree.contains request.key = .ok found ∧
      first.successes request.key = (if found = present then 1 else 0) ∧
      second.successes request.key = (if found = present then 1 else 0)

/-- The run seen from the maps that mirror its trees. -/
structure Mirrored (run : Run V) (map : Reference V) : Prop where
  replies : run.replies = map.replies run.schedule.mapRequests
  last : ∃ t, run.last.tree.Mirrors t (map.after run.schedule.mapRequests)

theorem exists_mirrored {session : Session V} {t : Subtree V}
    {map : Reference V} (hmirrors : session.tree.Mirrors t map)
    (schedule : Schedule V) :
    ∃ run : Run V, run.schedule = schedule ∧ run.From session ∧
      run.Mirrored map := by
  obtain ⟨last, u, hrun, hlast⟩ :=
    hmirrors.exists_runThread_after session.scans schedule.mapRequests
  exact ⟨⟨schedule, last, _⟩, rfl, ⟨hrun, hlast.sound.audit_eq_ok⟩, rfl, u,
    hlast⟩

namespace Mirrored

variable {run first second : Run V} {map : Reference V}
  {threads : List (List (KeyRequest V))}

theorem entriesFrom_zero (hrun : run.Mirrored map) :
    run.last.tree.entriesFrom 0 =
      .ok (map.after run.schedule.mapRequests).toList := by
  obtain ⟨t, hlast⟩ := hrun.last
  rw [hlast.sound.entriesFrom_eq, filter_zero_le, hlast.entries]

theorem size_eq (hrun : run.Mirrored map) :
    run.last.tree.size =
      .ok (map.after run.schedule.mapRequests).toList.length := by
  obtain ⟨t, hlast⟩ := hrun.last
  rw [hlast.sound.size_eq, hlast.entries]

theorem agree (hfirst : first.Mirrored map) (hsecond : second.Mirrored map)
    (hapart : Apart threads) (hfirstThreads : first.schedule.Interleaves threads)
    (hsecondThreads : second.schedule.Interleaves threads) :
    Agree threads first second := by
  have hsteps := hfirstThreads.withMark_eq hsecondThreads
  have hentries : (map.after first.schedule.mapRequests).toList =
      (map.after second.schedule.mapRequests).toList := by
    refine Reference.toList_eq_of_getElem?_eq fun key => ?_
    -- The value of the key is up to the one thread that may change it.
    obtain ⟨thread, hleft⟩ := hapart.exists_leftTo key
    rw [(hfirstThreads.replies_alone hapart map thread).2 key hleft,
      (hsecondThreads.replies_alone hapart map thread).2 key hleft, hsteps]
  refine ⟨List.map_congr_left fun thread _ => ?_, _, hfirst.entriesFrom_zero, ?_,
    hfirst.size_eq, ?_⟩
  · rw [hfirst.replies, hsecond.replies,
      (hfirstThreads.replies_alone hapart map thread).1,
      (hsecondThreads.replies_alone hapart map thread).1, hsteps]
  · rw [hentries]
    exact hsecond.entriesFrom_zero
  · rw [hentries]
    exact hsecond.size_eq

/-- Those who get the replies take nothing away and add nothing. -/
theorem flatten_repliesByThread (hrun : run.Mirrored map)
    (hthreads : run.schedule.Interleaves threads) :
    (run.repliesByThread threads.length).flatten.Perm run.replies := by
  have hlength : run.replies.length = (run.schedule.map (·.1)).length := by
    rw [hrun.replies, Reference.length_replies, List.length_map,
      Schedule.mapRequests, Schedule.requests, List.length_map, List.length_map]
  have hknown : ∀ m ∈ run.schedule.deliver run.replies,
      m.1 < threads.length := by
    intro m hm
    obtain ⟨step, hstep, hmark⟩ :=
      List.mem_map.mp (List.of_mem_zip hm).1
    exact hmark ▸ hthreads.known step hstep
  refine (flatten_byThread hknown).trans ?_
  rw [Schedule.deliver, List.map_snd_zip hlength.le]

section Flips

variable {session : Session V} {t : Subtree V} {present : Bool}

theorem withMark_outcomes (hrun : run.Mirrored map)
    (hflips : ∀ request ∈ run.schedule.requests, request.action.Flips present)
    (key : Key) :
    withMark (outcomes run.schedule.requests run.replies) key =
      verdicts present map[key]?.isSome
        ((run.schedule.requests.map (·.key)).count key) := by
  rw [hrun.replies]
  exact map.withMark_outcomes hflips key

theorem resultNames (hrun : run.Mirrored map) :
    (outcomes run.schedule.requests run.replies).map (·.2) =
      run.replies.map (·.resultName) := by
  refine List.map_snd_zip ?_
  rw [hrun.replies, List.length_map, Reference.length_replies,
    Schedule.mapRequests, List.length_map, List.length_map]

theorem successes_eq (hrun : run.Mirrored map)
    (hflips : ∀ request ∈ run.schedule.requests, request.action.Flips present)
    {request : KeyRequest V} (hrequest : request ∈ run.schedule.requests) :
    run.successes request.key =
      if map[request.key]?.isSome = present then 1 else 0 := by
  rw [successes, ← count_withMark, hrun.withMark_outcomes hflips]
  exact count_ok_verdicts _ _
    (List.count_pos_iff.mpr (List.mem_map_of_mem hrequest))

theorem names_perm (hfirst : first.Mirrored map)
    (hsecond : second.Mirrored map)
    (hfirstFlips : ∀ request ∈ first.schedule.requests,
      request.action.Flips present)
    (hsecondFlips : ∀ request ∈ second.schedule.requests,
      request.action.Flips present)
    (hrequests : first.schedule.requests.Perm second.schedule.requests) :
    (first.replies.map (·.resultName)).Perm
      (second.replies.map (·.resultName)) := by
  rw [← hfirst.resultNames, ← hsecond.resultNames]
  refine List.Perm.map _ (perm_of_withMark_eq fun key => ?_)
  rw [hfirst.withMark_outcomes hfirstFlips,
    hsecond.withMark_outcomes hsecondFlips, (hrequests.map _).count_eq]

theorem agreeInTotal (hfirst : first.Mirrored map)
    (hsecond : second.Mirrored map) (hsession : session.tree.Mirrors t map)
    (hflips : ∀ thread ∈ threads, ∀ request ∈ thread,
      request.action.Flips present)
    (hfirstThreads : first.schedule.Interleaves threads)
    (hsecondThreads : second.schedule.Interleaves threads) :
    AgreeInTotal session present threads first second := by
  have hflipsOf {schedule : Schedule V} (hthreads : schedule.Interleaves threads) :
      ∀ request ∈ schedule.requests, request.action.Flips present := by
    intro request hrequest
    obtain ⟨thread, hthread, hmem⟩ := hthreads.mem_requests_iff.mp hrequest
    exact hflips thread hthread request hmem
  have hfirstFlips := hflipsOf hfirstThreads
  have hsecondFlips := hflipsOf hsecondThreads
  have hrequests : first.schedule.requests.Perm second.schedule.requests :=
    (hfirstThreads.perm hsecondThreads).map _
  have hkeys : (map.after first.schedule.mapRequests).toList.map (·.1) =
      (map.after second.schedule.mapRequests).toList.map (·.1) := by
    refine Reference.keys_eq_of_isSome_eq fun key => ?_
    have hmem : key ∈ first.schedule.requests.map (·.key) ↔
        key ∈ second.schedule.requests.map (·.key) :=
      (hrequests.map _).mem_iff
    rw [Schedule.mapRequests, Schedule.mapRequests,
      map.isSome_after hfirstFlips, map.isSome_after hsecondFlips]
    simp only [hmem]
  refine ⟨Reply.totals_perm ?_, ⟨_, _, hfirst.entriesFrom_zero,
    hsecond.entriesFrom_zero, hkeys⟩, ?_⟩
  · exact ((hfirst.flatten_repliesByThread hfirstThreads).map _).trans
      ((hfirst.names_perm hsecond hfirstFlips hsecondFlips hrequests).trans
        ((hsecond.flatten_repliesByThread hsecondThreads).map _).symm)
  · intro thread hthread request hrequest
    have hmem : ∃ thread ∈ threads, request ∈ thread :=
      ⟨thread, hthread, hrequest⟩
    refine ⟨map[request.key]?.isSome, ?_, ?_, ?_⟩
    · rw [hsession.sound.contains_eq, hsession.lookup_eq]
    · exact hfirst.successes_eq hfirstFlips
        (hfirstThreads.mem_requests_iff.mpr hmem)
    · exact hsecond.successes_eq hsecondFlips
        (hsecondThreads.mem_requests_iff.mpr hmem)

end Flips

end Mirrored

end Run

namespace Session

/-- Take any session that a new tree can come to, and any two schedules of the
same threads.  Both run without a fault, and the tree passes the audit after
either.  If no thread changes a key that another one uses, the threads are told
the same and the same entries are stored.  If all requests insert, or all remove,
the results agree in total and the same keys are stored. -/
theorem schedules_agree {config : Config} (hconfig : config.validate = .ok ())
    (history : List (Request V)) {threads : List (List (KeyRequest V))}
    {first second : Schedule V} (hfirst : first.Interleaves threads)
    (hsecond : second.Interleaves threads) :
    ∃ (session : Session V) (earlier : List (Reply V)) (run other : Run V),
      Session.runThread ⟨Tree.empty config, []⟩ history =
          .ok (session, earlier) ∧
        run.schedule = first ∧ run.From session ∧
        other.schedule = second ∧ other.From session ∧
        (Apart threads → run.Agree threads other) ∧
        ∀ present,
          (∀ thread ∈ threads, ∀ request ∈ thread,
            request.action.Flips present) →
          Run.AgreeInTotal session present threads run other := by
  have hvalid := Config.validate_eq_ok_iff.mp hconfig
  obtain ⟨session, earlier, t, hhistory, hsession⟩ :=
    (sound_new hvalid).exists_runThread history
  have hmirrors := Tree.Mirrors.of_sound hsession.tree
  obtain ⟨run, rfl, hrun, hrunMap⟩ := Run.exists_mirrored hmirrors first
  obtain ⟨other, rfl, hother, hotherMap⟩ := Run.exists_mirrored hmirrors second
  exact ⟨session, earlier, run, other, hhistory, rfl, hrun, rfl, hother,
    fun hapart => hrunMap.agree hotherMap hapart hfirst hsecond,
    fun present hflips =>
      hrunMap.agreeInTotal hotherMap hmirrors hflips hfirst hsecond⟩

/-- Two threads share leaves, but no keys that change.  Then two threads insert the
same key, and it is another one that comes first. -/
theorem schedules_agree_on_shared_leaves :
    ({ degree := 3 } : Config).validate = .ok () ∧
      (∃ (session : Session Char) (earlier : List (Reply Char))
        (run other : Run Char),
        Session.runThread ⟨Tree.empty { degree := 3 }, []⟩
            [.insertAll [(1, 'a'), (2, 'b'), (3, 'c'), (4, 'd')]] =
          .ok (session, earlier) ∧
        run.schedule = [(0, ⟨1, .remove⟩), (0, ⟨1, .lookup⟩),
          (1, ⟨5, .insert 'e'⟩), (1, ⟨4, .get⟩)] ∧ run.From session ∧
        other.schedule = [(1, ⟨5, .insert 'e'⟩), (0, ⟨1, .remove⟩),
          (1, ⟨4, .get⟩), (0, ⟨1, .lookup⟩)] ∧ other.From session ∧
        run.Agree [[⟨1, .remove⟩, ⟨1, .lookup⟩],
          [⟨5, .insert 'e'⟩, ⟨4, .get⟩]] other) ∧
      ∃ (session : Session Char) (earlier : List (Reply Char))
        (run other : Run Char),
        Session.runThread ⟨Tree.empty { degree := 3 }, []⟩
            [.insertAll [(1, 'a'), (2, 'b'), (3, 'c'), (4, 'd')]] =
          .ok (session, earlier) ∧
        run.schedule = [(0, ⟨5, .insert 'e'⟩), (0, ⟨2, .insert 'x'⟩),
          (1, ⟨5, .insert 'f'⟩)] ∧ run.From session ∧
        other.schedule = [(1, ⟨5, .insert 'f'⟩), (0, ⟨5, .insert 'e'⟩),
          (0, ⟨2, .insert 'x'⟩)] ∧ other.From session ∧
        Run.AgreeInTotal session false [[⟨5, .insert 'e'⟩, ⟨2, .insert 'x'⟩],
          [⟨5, .insert 'f'⟩]] run other := by
  have hconfig : ({ degree := 3 } : Config).validate = .ok () := rfl
  refine ⟨hconfig, ?_, ?_⟩
  · have hfirst : Schedule.Interleaves
        [(0, ⟨1, .remove⟩), (0, ⟨1, .lookup⟩), (1, ⟨5, .insert 'e'⟩),
          (1, ⟨4, .get⟩)]
        [[⟨1, .remove⟩, ⟨1, .lookup⟩], [⟨5, .insert 'e'⟩, ⟨4, .get⟩]] :=
      ⟨by decide, rfl⟩
    have hsecond : Schedule.Interleaves
        [(1, ⟨5, .insert 'e'⟩), (0, ⟨1, .remove⟩), (1, ⟨4, .get⟩),
          (0, ⟨1, .lookup⟩)]
        [[⟨1, .remove⟩, ⟨1, .lookup⟩], [⟨5, .insert 'e'⟩, ⟨4, .get⟩]] :=
      ⟨by decide, rfl⟩
    have hapart : Apart [[⟨1, .remove⟩, ⟨1, .lookup⟩],
        [⟨5, .insert 'e'⟩, ⟨4, .get⟩]] := by
      unfold Apart
      decide +kernel
    obtain ⟨session, earlier, run, other, hhistory, hrun, hfrom, hother,
      hotherFrom, hagree, _⟩ := schedules_agree hconfig
        [.insertAll [(1, 'a'), (2, 'b'), (3, 'c'), (4, 'd')]] hfirst hsecond
    exact ⟨session, earlier, run, other, hhistory, hrun, hfrom, hother,
      hotherFrom, hagree hapart⟩
  · have hfirst : Schedule.Interleaves
        [(0, ⟨5, .insert 'e'⟩), (0, ⟨2, .insert 'x'⟩), (1, ⟨5, .insert 'f'⟩)]
        [[⟨5, .insert 'e'⟩, ⟨2, .insert 'x'⟩], [⟨5, .insert 'f'⟩]] :=
      ⟨by decide, rfl⟩
    have hsecond : Schedule.Interleaves
        [(1, ⟨5, .insert 'f'⟩), (0, ⟨5, .insert 'e'⟩), (0, ⟨2, .insert 'x'⟩)]
        [[⟨5, .insert 'e'⟩, ⟨2, .insert 'x'⟩], [⟨5, .insert 'f'⟩]] :=
      ⟨by decide, rfl⟩
    obtain ⟨session, earlier, run, other, hhistory, hrun, hfrom, hother,
      hotherFrom, _, htotal⟩ := schedules_agree hconfig
        [.insertAll [(1, 'a'), (2, 'b'), (3, 'c'), (4, 'd')]] hfirst hsecond
    refine ⟨session, earlier, run, other, hhistory, hrun, hfrom, hother,
      hotherFrom, htotal false ?_⟩
    simp only [List.forall_mem_cons, List.not_mem_nil, false_imp_iff,
      implies_true, and_true]
    exact ⟨⟨.insert 'e', .insert 'x'⟩, .insert 'f'⟩

end Session

end LatchTree

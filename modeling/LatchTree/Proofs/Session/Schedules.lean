import LatchTree.Proofs.Session.KeyRequests

/-!
# Schedules

Threads send requests on single keys, each its own list in order.  A schedule
says in which order the requests of all threads are performed.  As long as no
thread changes a key that another one uses, a map tells each thread what it would
tell it alone.
-/

namespace LatchTree

open Std

variable {V : Type}

/-- Requests, each with the number of the thread that sends it. -/
abbrev Schedule (V : Type) := List (Nat × KeyRequest V)

/-- What bears the number of a thread, for each of the first threads. -/
def byThread {α : Type} (count : Nat) (marked : List (Nat × α)) :
    List (List α) :=
  (List.range count).map (withMark marked)

namespace Schedule

def requests (schedule : Schedule V) : List (KeyRequest V) :=
  schedule.map (·.2)

def mapRequests (schedule : Schedule V) : List (MapRequest V) :=
  schedule.requests.map (·.toMapRequest)

def toThread (schedule : Schedule V) : Thread V :=
  schedule.mapRequests.map (·.toRequest)

/-- Each reply with the number of the thread that gets it. -/
def deliver (schedule : Schedule V) (replies : List (Reply V)) :
    List (Nat × Reply V) :=
  (schedule.map (·.1)).zip replies

/-- The schedule performs the requests of these threads, and no others, and keeps
the order of each thread. -/
structure Interleaves (schedule : Schedule V)
    (threads : List (List (KeyRequest V))) : Prop where
  known : ∀ step ∈ schedule, step.1 < threads.length
  steps : byThread threads.length schedule = threads

namespace Interleaves

variable {first second schedule : Schedule V}
  {threads : List (List (KeyRequest V))}

theorem getElem? (hschedule : schedule.Interleaves threads) {thread : Nat}
    (hthread : thread < threads.length) :
    threads[thread]? = some (withMark schedule thread) := by
  conv => lhs; rw [← hschedule.steps]
  rw [byThread, List.getElem?_map, List.getElem?_range hthread]
  rfl

theorem exists_thread (hschedule : schedule.Interleaves threads)
    {step : Nat × KeyRequest V} (hstep : step ∈ schedule) :
    ∃ requests, threads[step.1]? = some requests ∧ step.2 ∈ requests :=
  ⟨_, hschedule.getElem? (hschedule.known step hstep),
    mem_withMark.mpr hstep⟩

theorem withMark_eq (hfirst : first.Interleaves threads)
    (hsecond : second.Interleaves threads) (thread : Nat) :
    withMark first thread = withMark second thread := by
  by_cases hthread : thread < threads.length
  · exact Option.some.inj
      ((hfirst.getElem? hthread).symm.trans (hsecond.getElem? hthread))
  · have hnone {schedule : Schedule V}
        (hschedule : schedule.Interleaves threads) :
        withMark schedule thread = [] :=
      List.eq_nil_iff_forall_not_mem.mpr fun request hrequest =>
        hthread (hschedule.known _ (mem_withMark.mp hrequest))
    rw [hnone hfirst, hnone hsecond]

theorem perm (hfirst : first.Interleaves threads)
    (hsecond : second.Interleaves threads) : first.Perm second :=
  perm_of_withMark_eq (hfirst.withMark_eq hsecond)

theorem mem_requests_iff (hschedule : schedule.Interleaves threads)
    {request : KeyRequest V} :
    request ∈ schedule.requests ↔ ∃ thread ∈ threads, request ∈ thread := by
  constructor
  · intro hrequest
    obtain ⟨step, hstep, rfl⟩ := List.mem_map.mp hrequest
    obtain ⟨thread, hthread, hrequest⟩ := hschedule.exists_thread hstep
    exact ⟨thread, List.mem_of_getElem? hthread, hrequest⟩
  · rintro ⟨thread, hthread, hrequest⟩
    obtain ⟨mark, hmark, rfl⟩ := List.getElem_of_mem hthread
    have hsteps := hschedule.getElem? hmark
    rw [List.getElem?_eq_getElem hmark, Option.some.injEq] at hsteps
    rw [hsteps] at hrequest
    exact List.mem_map_of_mem (mem_withMark.mp hrequest)

end Interleaves

end Schedule

/-! ## Threads that leave each other's keys alone -/

/-- No thread changes a key that another one uses. -/
def Apart (threads : List (List (KeyRequest V))) : Prop :=
  threads.Pairwise fun first second =>
    ∀ a ∈ first, ∀ b ∈ second,
      a.action.changes ∨ b.action.changes → a.key ≠ b.key

/-- The other threads do not change the key. -/
def LeftTo (threads : List (List (KeyRequest V))) (thread : Nat) (key : Key) :
    Prop :=
  ∀ other requests, threads[other]? = some requests → other ≠ thread →
    ∀ request ∈ requests, request.action.changes → request.key ≠ key

theorem Apart.leftTo {threads : List (List (KeyRequest V))}
    (hapart : Apart threads) {thread : Nat} {requests : List (KeyRequest V)}
    (hthread : threads[thread]? = some requests) {request : KeyRequest V}
    (hrequest : request ∈ requests) : LeftTo threads thread request.key := by
  intro other others hother hne changing hchanging hchanges
  obtain ⟨hbound, rfl⟩ := List.getElem?_eq_some_iff.mp hthread
  obtain ⟨hotherBound, rfl⟩ := List.getElem?_eq_some_iff.mp hother
  have hpairs := List.pairwise_iff_getElem.mp hapart
  rcases Nat.lt_or_gt_of_ne hne with hlt | hlt
  · exact hpairs _ _ hotherBound hbound hlt _ hchanging _ hrequest (.inl hchanges)
  · exact (hpairs _ _ hbound hotherBound hlt _ hrequest _ hchanging
      (.inr hchanges)).symm

theorem Apart.exists_leftTo {threads : List (List (KeyRequest V))}
    (hapart : Apart threads) (key : Key) :
    ∃ thread, LeftTo threads thread key := by
  by_cases hused : ∃ (thread : Nat) (requests : List (KeyRequest V)),
      threads[thread]? = some requests ∧ ∃ request ∈ requests, request.key = key
  · obtain ⟨thread, requests, hthread, request, hrequest, rfl⟩ := hused
    exact ⟨thread, hapart.leftTo hthread hrequest⟩
  · exact ⟨0, fun thread requests hthread _ request hrequest _ hkey =>
      hused ⟨thread, requests, hthread, request, hrequest, hkey⟩⟩

namespace Reference

/-- Let `own` hold of the keys that a thread uses, and let no other thread change
such a key.  Then the thread is told what it would be told alone, and those keys
end up with the values that they would have without the others. -/
theorem replies_alone {schedule : Schedule V} {thread : Nat} {own : Key → Prop}
    {map alone : Reference V}
    (hagree : ∀ key, own key → map[key]? = alone[key]?)
    (hown : ∀ step ∈ schedule, step.1 = thread → own step.2.key)
    (hothers : ∀ step ∈ schedule, step.1 ≠ thread →
      step.2.action.changes → ¬ own step.2.key) :
    withMark (schedule.deliver (map.replies schedule.mapRequests)) thread =
        alone.replies ((withMark schedule thread).map (·.toMapRequest)) ∧
      ∀ key, own key → (map.after schedule.mapRequests)[key]? =
        (alone.after ((withMark schedule thread).map (·.toMapRequest)))[key]? := by
  induction schedule generalizing map alone with
  | nil => exact ⟨rfl, hagree⟩
  | cons step rest ih =>
      obtain ⟨sender, request⟩ := step
      obtain ⟨hrequest, hown⟩ := List.forall_mem_cons.mp hown
      obtain ⟨hother, hothers⟩ := List.forall_mem_cons.mp hothers
      have hcons : Schedule.mapRequests ((sender, request) :: rest) =
          request.toMapRequest :: Schedule.mapRequests rest := rfl
      rw [hcons, replies, after, Schedule.deliver, List.map_cons,
        List.zip_cons_cons, withMark_cons, withMark_cons]
      by_cases hsender : sender = thread
      · have hvalue := hagree _ (hrequest hsender)
        have hnext : ∀ key, own key →
            (map.next request.toMapRequest)[key]? =
              (alone.next request.toMapRequest)[key]? := by
          intro key hkey
          rw [getElem?_next, getElem?_next, hagree key hkey]
        obtain ⟨hreplies, hvalues⟩ := ih hnext hown hothers
        rw [if_pos hsender, if_pos hsender, List.map_cons, replies, after,
          ← hreplies, reply_toMapRequest, reply_toMapRequest, hvalue]
        exact ⟨rfl, hvalues⟩
      · -- Another thread is served, which leaves the own keys as they are.
        have hnext : ∀ key, own key →
            (map.next request.toMapRequest)[key]? = alone[key]? := by
          intro key hkey
          rw [getElem?_next, ← hagree key hkey]
          split
          · next heq =>
              have hreads : request.action.changes = false := by
                rw [← Bool.not_eq_true]
                exact fun hchanges =>
                  hother hsender hchanges (heq ▸ hkey)
              exact KeyAction.next_of_not_changes hreads _
          · rfl
        rw [if_neg hsender, if_neg hsender]
        exact ih hnext hown hothers

end Reference

theorem Schedule.Interleaves.replies_alone {schedule : Schedule V}
    {threads : List (List (KeyRequest V))}
    (hschedule : schedule.Interleaves threads) (hapart : Apart threads)
    (map : Reference V) (thread : Nat) :
    withMark (schedule.deliver (map.replies schedule.mapRequests)) thread =
        map.replies ((withMark schedule thread).map (·.toMapRequest)) ∧
      ∀ key, LeftTo threads thread key →
        (map.after schedule.mapRequests)[key]? =
          (map.after ((withMark schedule thread).map (·.toMapRequest)))[key]? := by
  refine Reference.replies_alone (fun _ _ => rfl) ?_ ?_
  · rintro step hstep rfl
    obtain ⟨requests, hthread, hrequest⟩ := hschedule.exists_thread hstep
    exact hapart.leftTo hthread hrequest
  · intro step hstep hother hchanges hleft
    obtain ⟨requests, hthread, hrequest⟩ := hschedule.exists_thread hstep
    exact hleft step.1 requests hthread hother step.2 hrequest hchanges rfl

/-! ## Contents of maps -/

namespace Reference

variable {first second : Reference V}

theorem toList_eq_of_getElem?_eq
    (hsame : ∀ key : Key, first[key]? = second[key]?) :
    first.toList = second.toList := by
  refine first.ascending_toList.ext second.ascending_toList fun e => ?_
  obtain ⟨key, value⟩ := e
  rw [TreeMap.mem_toList_iff_getElem?_eq_some,
    TreeMap.mem_toList_iff_getElem?_eq_some, hsame]

theorem keys_eq_of_isSome_eq
    (hsame : ∀ key : Key, first[key]?.isSome = second[key]?.isSome) :
    first.toList.map (·.1) = second.toList.map (·.1) := by
  have hmem (map : Reference V) (key : Key) :
      key ∈ map.toList.map (·.1) ↔ map[key]?.isSome := by
    rw [TreeMap.map_fst_toList_eq_keys, TreeMap.mem_keys,
      ← TreeMap.contains_iff_mem, TreeMap.contains_eq_isSome_getElem?]
  have hsorted (map : Reference V) :
      (map.toList.map (·.1)).Pairwise (· < ·) :=
    List.pairwise_map.mpr map.ascending_toList
  refine List.Pairwise.eq_of_mem_iff (hsorted first) (hsorted second)
    fun key => ?_
  rw [hmem, hmem, hsame]

end Reference

/-! ## Totals -/

theorem nodup_eraseDups {α : Type} [DecidableEq α] (l : List α) :
    l.eraseDups.Nodup := by
  induction hlength : l.length using Nat.strong_induction_on generalizing l with
  | _ n ih =>
      cases l with
      | nil => exact List.nodup_nil
      | cons a rest =>
          rw [List.eraseDups_cons]
          refine List.nodup_cons.mpr ⟨by simp, ih _ ?_ _ rfl⟩
          rw [← hlength, List.length_cons]
          exact Nat.lt_succ_of_le (List.length_filter_le _ _)

theorem flatten_byThread {α : Type} {count : Nat} {marked : List (Nat × α)}
    (hknown : ∀ m ∈ marked, m.1 < count) :
    (byThread count marked).flatten.Perm (marked.map (·.2)) := by
  rw [byThread, ← List.flatMap_def]
  exact flatMap_withMark List.nodup_range
    fun m hm => List.mem_range.mpr (hknown m hm)

theorem Reply.totals_perm {first second : List (List (Reply V))}
    (hnames : (first.flatten.map (·.resultName)).Perm
      (second.flatten.map (·.resultName))) :
    (Reply.totals first).Perm (Reply.totals second) := by
  have hcounts : (fun name =>
        (name, (first.flatten.map (·.resultName)).count name)) =
      fun name => (name, (second.flatten.map (·.resultName)).count name) :=
    funext fun name => by rw [hnames.count_eq]
  simp only [totals]
  rw [hcounts]
  refine List.Perm.map _ ((List.perm_ext_iff_of_nodup (nodup_eraseDups _)
    (nodup_eraseDups _)).mpr fun name => ?_)
  rw [List.mem_eraseDups, List.mem_eraseDups, hnames.mem_iff]

end LatchTree

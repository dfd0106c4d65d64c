import LatchTree.Scan.Basic
import LatchTree.Proofs.Scan.Walk

/-!
# What a scan has yet to yield

The rest of a scan is what stands in its buffer, followed by the entries that
its walk has yet to pass.  To read a leaf moves entries from the second part to
the first, and a question takes the first entry of the rest.  So over a tree
that does not change a scan yields the entries from its first key on.  Over one
that changes, the keys that a scan has passed remain passed.
-/

namespace LatchTree

open Subtree

variable {V : Type}

namespace Scan

/-- The entries that a scan has yet to yield, should the tree stay as it is. -/
def rest (scan : Scan V) (t : Subtree V) : List (Key × V) :=
  scan.buffer ++ scan.walk.pending t

/-- What remains true of a scan while it is not asked, whatever happens to the
tree. -/
structure Ready (scan : Scan V) (pages : PageTable V) : Prop where
  remembers : scan.walk.Remembers pages
  ascending : Ascending scan.buffer
  below : scan.walk.cursor ≠ .finished →
    ∀ e ∈ scan.buffer, e.1 < scan.walk.lower

/-- The scan will not yield the key or a smaller one, whatever happens to the
tree. -/
structure Passed (scan : Scan V) (key : Key) : Prop where
  buffer : ∀ e ∈ scan.buffer, key < e.1
  lower : scan.walk.cursor ≠ .finished → key < scan.walk.lower

/-- The scan will not yield anything, whatever happens to the tree. -/
structure Ended (scan : Scan V) : Prop where
  buffer : scan.buffer = []
  walk : scan.walk.cursor = .finished

theorem rest_start (t : Subtree V) (lower : Key) :
    (start lower : Scan V).rest t = t.entries.filter (lower ≤ ·.1) := by
  rw [rest, start, Walk.pending_start]
  rfl

theorem mem_rest {scan : Scan V} {t : Subtree V} {e : Key × V} :
    e ∈ scan.rest t ↔
      e ∈ scan.buffer ∨
        scan.walk.cursor ≠ .finished ∧ scan.walk.lower ≤ e.1 ∧
          e ∈ t.entries := by
  rw [rest, List.mem_append, Walk.mem_pending]

theorem ready_start (lower : Key) (pages : PageTable V) :
    (start lower).Ready pages where
  remembers := Walk.remembers_start lower pages
  ascending := List.Pairwise.nil
  below := by simp [start]

theorem passed_start {lower key : Key} (hkey : key < lower) :
    (start lower : Scan V).Passed key where
  buffer := by simp [start]
  lower := fun _ => hkey

theorem Ready.evolve {scan : Scan V} {old new : PageTable V}
    (hready : scan.Ready old) (hevolves : old.Evolves new) :
    scan.Ready new where
  remembers := hready.remembers.evolve hevolves
  ascending := hready.ascending
  below := hready.below

/-- A scan that is ready, with leaves in front of it. -/
structure Poised (scan : Scan V) (tree : Tree V) (t : Subtree V) :
    Prop extends scan.Ready tree.pages where
  facing : ∃ leaves, scan.walk.Facing tree t leaves

theorem poised_start {tree : Tree V} {t : Subtree V} (hshows : tree.Shows t)
    (lower : Key) : (start lower).Poised tree t where
  toReady := ready_start lower tree.pages
  facing := Walk.facing_start hshows lower

theorem Ready.poised {scan : Scan V} {tree : Tree V} {t : Subtree V}
    (hready : scan.Ready tree.pages) (hsound : tree.Sound t) :
    scan.Poised tree t where
  toReady := hready
  facing := Walk.exists_facing hsound hready.remembers

section Shows

variable {tree : Tree V} {t : Subtree V} {scan : Scan V}

theorem rest_ascending (hshows : tree.Shows t)
    (hready : scan.Ready tree.pages) :
    Ascending (scan.rest t) := by
  have hentries := hshows.wellFormed.fits.ascending
  have hpending : Ascending (scan.walk.pending t) := by
    unfold Walk.pending
    split
    · exact List.Pairwise.nil
    · exact hentries.sublist List.filter_sublist
  refine Ascending.append_iff.mpr ⟨hready.ascending, hpending, ?_⟩
  intro a ha b hb
  obtain ⟨hopen, hlower, _⟩ := Walk.mem_pending.mp hb
  exact UInt64.lt_of_lt_of_le (hready.below hopen a ha) hlower

/-! ## Filling the buffer -/

/-- What the filling of the buffer does to a scan. -/
structure Fills (tree : Tree V) (t : Subtree V) (scan filled : Scan V) :
    Prop where
  poised : filled.Poised tree t
  rest : filled.rest t = scan.rest t
  passed : ∀ key, scan.Passed key → filled.Passed key
  drained : filled.buffer = [] → filled.walk.cursor = .finished

theorem exists_fillWithin (hshows : tree.Shows t)
    {leaves : List (PageId × Leaf V)}
    (hfacing : scan.walk.Facing tree t leaves) (hready : scan.Ready tree.pages)
    {fuel : Nat} (hfuel : leaves.length < fuel) :
    ∃ visits filled, fillWithin tree fuel scan = .ok (visits, filled) ∧
      Fills tree t scan filled := by
  induction leaves generalizing scan fuel with
  | nil =>
      obtain ⟨fuel, rfl⟩ :=
        Nat.exists_eq_add_one_of_ne_zero (Nat.ne_of_gt hfuel)
      have hcursor := hfacing.finished_iff.mpr rfl
      refine ⟨[], scan, ?_, ⟨hready, _, hfacing⟩, rfl,
        fun _ hpassed => hpassed, fun _ => hcursor⟩
      rw [fillWithin, Walk.nextVisit?, hcursor]
      cases scan.buffer.isEmpty <;> rfl
  | cons leaf leaves ih =>
      obtain ⟨fuel, rfl⟩ := Nat.exists_eq_add_one_of_ne_zero
        (Nat.ne_of_gt (Nat.lt_of_le_of_lt (Nat.zero_le _) hfuel))
      rw [fillWithin]
      cases hbuffer : scan.buffer with
      | cons e buffer =>
          refine ⟨[], scan, rfl, ⟨hready, _, hfacing⟩, rfl,
            fun _ hpassed => hpassed, fun hnil => ?_⟩
          rw [hbuffer] at hnil
          cases hnil
      | nil =>
          obtain ⟨visit, hadvances⟩ := hfacing.exists_advances hshows
          have hread : Scan.Ready ⟨scan.walk.after visit, visit.entries⟩
              tree.pages :=
            ⟨hadvances.remembers, hadvances.ascending, hadvances.below⟩
          obtain ⟨visits, filled, hfill, hfills⟩ :=
            ih hadvances.facing hread (Nat.lt_of_succ_lt_succ hfuel)
          refine ⟨visit :: visits, filled, ?_, hfills.poised, ?_, ?_,
            hfills.drained⟩
          · simp only [List.isEmpty_nil, if_true, hadvances.visited, bind,
              Except.bind, hfill]
            rfl
          · rw [hfills.rest, rest, rest, hbuffer, List.nil_append,
              hadvances.pending]
          · intro key hpassed
            have hopen : scan.walk.cursor ≠ .finished :=
              fun hcursor => List.cons_ne_nil _ _
                (hfacing.finished_iff.mp hcursor)
            have hkey := hpassed.lower hopen
            refine hfills.passed key ⟨fun e he => ?_, fun _ => ?_⟩
            · exact UInt64.lt_of_lt_of_le hkey (hadvances.above e he)
            · exact UInt64.lt_of_lt_of_le hkey (scan.walk.lower_le_after visit)

/-! ## Questions -/

/-- What a question to a scan answers, and what it does to the scan. -/
structure Yields (tree : Tree V) (t : Subtree V) (scan : Scan V)
    (answer : Option (Key × V)) (later : Scan V) : Prop where
  poised : later.Poised tree t
  answered : answer = (scan.rest t).head?
  rest : later.rest t = (scan.rest t).tail
  passed : ∀ key, scan.Passed key → later.Passed key ∧ ∀ e ∈ answer, key < e.1
  yielded : ∀ e ∈ answer, later.Passed e.1
  ended : answer = none → later.Ended

theorem exists_next (hshows : tree.Shows t) (hpoised : scan.Poised tree t) :
    ∃ answer later, scan.next tree = .ok (answer, later) ∧
      Yields tree t scan answer later := by
  obtain ⟨leaves, hfacing⟩ := hpoised.facing
  obtain ⟨visits, filled, hfill, hfills⟩ :=
    exists_fillWithin hshows hfacing hpoised.toReady
      (Nat.lt_succ_of_le (hfacing.length_le hshows))
  rw [next, fill, hfill]
  simp only [bind, Except.bind]
  cases hbuffer : filled.buffer with
  | nil =>
      have hwalk := hfills.drained hbuffer
      have hrest : scan.rest t = [] := by
        rw [← hfills.rest, rest, hbuffer, Walk.pending, if_pos hwalk]
        rfl
      refine ⟨none, filled, rfl, hfills.poised, ?_, ?_, ?_, ?_,
        fun _ => ⟨hbuffer, hwalk⟩⟩
      · rw [hrest, List.head?_nil]
      · rw [hfills.rest, hrest, List.tail_nil]
      · exact fun key hpassed => ⟨hfills.passed key hpassed, by simp⟩
      · simp
  | cons e buffer =>
      have hrest : scan.rest t = e :: (buffer ++ filled.walk.pending t) := by
        rw [← hfills.rest, rest, hbuffer, List.cons_append]
      have hascending := hfills.poised.ascending
      have hbelow := hfills.poised.below
      rw [hbuffer] at hascending hbelow
      obtain ⟨hfirst, htail⟩ := List.pairwise_cons.mp hascending
      refine ⟨some e, { filled with buffer := buffer }, rfl,
        ⟨⟨hfills.poised.remembers, htail,
          fun hopen a ha => hbelow hopen a (List.mem_cons_of_mem e ha)⟩,
          hfills.poised.facing⟩, ?_, ?_, ?_, ?_, ?_⟩
      · rw [hrest, List.head?_cons]
      · rw [hrest, List.tail_cons, rest]
      · intro key hpassed
        have hfilled := hfills.passed key hpassed
        refine ⟨⟨fun a ha => hfilled.buffer a ?_, hfilled.lower⟩,
          fun a ha => hfilled.buffer a ?_⟩
        · rw [hbuffer]
          exact List.mem_cons_of_mem e ha
        · rw [hbuffer, ← Option.mem_some.mp ha]
          exact List.mem_cons_self
      · rintro a ⟨⟩
        exact ⟨hfirst, fun hopen => hbelow hopen e List.mem_cons_self⟩
      · intro hnone
        cases hnone

theorem exists_take (hshows : tree.Shows t) (hpoised : scan.Poised tree t)
    (count : Nat) :
    ∃ later, take tree count scan = .ok ((scan.rest t).take count, later) ∧
      later.Poised tree t := by
  induction count generalizing scan with
  | zero => exact ⟨scan, rfl, hpoised⟩
  | succ count ih =>
      obtain ⟨answer, later, hnext, hyields⟩ := exists_next hshows hpoised
      obtain ⟨last, htake, hlast⟩ := ih hyields.poised
      have hanswer := hyields.answered
      rw [hyields.rest] at htake
      rw [take, hnext]
      cases hrest : scan.rest t with
      | nil =>
          rw [hrest, List.head?_nil] at hanswer
          subst hanswer
          exact ⟨later, rfl, hyields.poised⟩
      | cons e entries =>
          rw [hrest, List.head?_cons] at hanswer
          rw [hrest, List.tail_cons] at htake
          subst hanswer
          refine ⟨last, ?_, hlast⟩
          simp only [bind, Except.bind, htake]
          rfl

theorem drain_eq (hshows : tree.Shows t) (hpoised : scan.Poised tree t) :
    scan.drain tree = .ok (scan.rest t) := by
  obtain ⟨later, htake, _⟩ := exists_take hshows hpoised UInt64.size
  have hlength := (rest_ascending hshows hpoised.toReady).length_le
  rw [List.take_of_length_le hlength] at htake
  rw [drain, htake]
  rfl

end Shows

end Scan

namespace Tree

variable {tree : Tree V} {t : Subtree V}

theorem Shows.entriesFrom_eq (hshows : tree.Shows t) (start : Key) :
    tree.entriesFrom start = .ok (t.entries.filter (start ≤ ·.1)) := by
  rw [entriesFrom, Scan.drain_eq hshows (Scan.poised_start hshows start),
    Scan.rest_start]

namespace Sound

theorem isEmpty_eq (hsound : tree.Sound t) :
    tree.isEmpty = .ok t.entries.isEmpty := by
  obtain ⟨answer, later, hnext, hyields⟩ :=
    Scan.exists_next hsound.shows (Scan.poised_start hsound.shows 0)
  rw [isEmpty, hnext, hyields.answered, Scan.rest_start, filter_zero_le]
  cases t.entries <;> rfl

theorem entriesFrom_eq (hsound : tree.Sound t) (start : Key) :
    tree.entriesFrom start = .ok (t.entries.filter (start ≤ ·.1)) :=
  hsound.shows.entriesFrom_eq start

theorem range_eq (hsound : tree.Sound t) (start : Key) (count : Nat) :
    tree.range start count =
      .ok (((t.entries.filter (start ≤ ·.1)).take count).map (·.2)) := by
  obtain ⟨later, htake, _⟩ :=
    Scan.exists_take hsound.shows (Scan.poised_start hsound.shows start) count
  rw [range, htake, Scan.rest_start]
  rfl

end Sound

end Tree

end LatchTree

import LatchTree.Proofs.Scan.Parked
import LatchTree.Proofs.Tree.Found

/-!
# How scans get on

A walk descends only if it has no leaf that it trusts, and the links of the
leaves lead it on from there.  So in answer to one question a scan descends at
most once, and it visits each leaf at most once.  From a descent on, every leaf
that it visits covers the lower bound.  A leaf that is remembered but not trusted
is not visited, though the links may lead to it later.
-/

namespace LatchTree

open Subtree

variable {V : Type}

namespace Walk

def afterAll (walk : Walk) (visits : List (Visit V)) : Walk :=
  visits.foldl after walk

/-- The visits are the next ones that the walk makes. -/
inductive Makes (tree : Tree V) : Walk → List (Visit V) → Prop
  | nil {walk : Walk} : Makes tree walk []
  | cons {walk : Walk} {visit : Visit V} {rest : List (Visit V)} :
      walk.nextVisit? tree = .ok (some visit) →
      Makes tree (walk.after visit) rest → Makes tree walk (visit :: rest)

/-- The visited leaf covers the lower bound, so the bound rises unless the walk
ends there. -/
structure Rises (tree : Tree V) (walk : Walk) (visit : Visit V) : Prop where
  covers : ∃ contents,
    tree.pages.liveNode? visit.page = some (.leaf contents) ∧
      contents.Covers walk.lower
  rises : (walk.after visit).cursor = .finished ∨
    walk.lower < (walk.after visit).lower

/-- The walk gets on by these visits. -/
structure Progresses (tree : Tree V) (walk : Walk) (visits : List (Visit V)) :
    Prop where
  makes : Makes tree walk visits
  descents : visits.countP (·.descended) ≤ 1
  nodup : (visits.map (·.page)).Nodup
  rises : ∀ before visit after, visits = before ++ visit :: after →
    (before ++ [visit]).any (·.descended) →
      Rises tree (walk.afterAll before) visit

/-! ## Visits in a row -/

section Makes

variable {tree : Tree V} {walk : Walk} {visits others : List (Visit V)}

theorem makes_append_iff :
    Makes tree walk (visits ++ others) ↔
      Makes tree walk visits ∧ Makes tree (walk.afterAll visits) others := by
  induction visits generalizing walk with
  | nil => exact ⟨fun hmakes => ⟨.nil, hmakes⟩, fun hmakes => hmakes.2⟩
  | cons visit rest ih =>
      constructor
      · rintro (_ | ⟨hvisit, hlater⟩)
        obtain ⟨hrest, hothers⟩ := ih.mp hlater
        exact ⟨.cons hvisit hrest, hothers⟩
      · rintro ⟨_ | ⟨hvisit, hrest⟩, hothers⟩
        exact .cons hvisit (ih.mpr ⟨hrest, hothers⟩)

theorem afterAll_append :
    walk.afterAll (visits ++ others) =
      (walk.afterAll visits).afterAll others :=
  List.foldl_append

theorem Progresses.of_append
    (hprogresses : walk.Progresses tree (visits ++ others)) :
    walk.Progresses tree visits where
  makes := (makes_append_iff.mp hprogresses.makes).1
  descents := by
    have hdescents := hprogresses.descents
    rw [List.countP_append] at hdescents
    omega
  nodup := by
    have hnodup := hprogresses.nodup
    rw [List.map_append] at hnodup
    exact hnodup.of_append_left
  rises := by
    rintro before visit after rfl hdescended
    apply hprogresses.rises before visit (after ++ others) _ hdescended
    rw [List.append_assoc, List.cons_append]

/-- With enough fuel, the visits of a walk are those that it makes until it has
finished. -/
theorem Makes.visitsWithin_eq (hmakes : Makes tree walk visits)
    (hfinished : (walk.afterAll visits).cursor = .finished) {fuel : Nat}
    (hfuel : visits.length < fuel) :
    visitsWithin tree fuel walk = .ok visits := by
  induction hmakes generalizing fuel with
  | nil =>
      obtain ⟨fuel, rfl⟩ :=
        Nat.exists_eq_add_one_of_ne_zero (Nat.ne_zero_of_lt hfuel)
      rw [afterAll, List.foldl_nil] at hfinished
      rw [visitsWithin, nextVisit?, hfinished]
      rfl
  | cons hvisit _ ih =>
      obtain ⟨fuel, rfl⟩ :=
        Nat.exists_eq_add_one_of_ne_zero (Nat.ne_zero_of_lt hfuel)
      rw [visitsWithin, hvisit]
      simp only [bind, Except.bind,
        ih hfinished (Nat.lt_of_succ_lt_succ hfuel)]
      rfl

end Makes

/-! ## Descents -/

section Descents

variable {tree : Tree V} {walk : Walk} {visit : Visit V}

theorem leafFor_of_seekLeaf (hseek : walk.seekLeaf tree = .ok visit) :
    visit.descended = true ∧
      ∃ leaf, tree.leafFor walk.lower = .ok (visit.page, leaf) := by
  obtain ⟨⟨page, leaf⟩, hleaf, hvisit⟩ := exists_of_bind_eq_ok hseek
  cases hvisit
  exact ⟨rfl, leaf, hleaf⟩

/-- A walk that does not descend goes to the leaf that it remembers. -/
theorem nextVisit?_cases (hvisit : walk.nextVisit? tree = .ok (some visit)) :
    (visit.descended = true ∧
        ∃ leaf, tree.leafFor walk.lower = .ok (visit.page, leaf)) ∨
      visit.descended = false ∧ walk.cursor = .leaf visit.page := by
  have hseek : (do return some (← walk.seekLeaf tree)) =
      (.ok (some visit) : Except Fault (Option (Visit V))) →
      visit.descended = true ∧
        ∃ leaf, tree.leafFor walk.lower = .ok (visit.page, leaf) := by
    intro hfound
    obtain ⟨found, hfound, hsame⟩ := exists_of_bind_eq_ok hfound
    cases hsame
    exact leafFor_of_seekLeaf hfound
  cases hcursor : walk.cursor with
  | finished =>
      simp only [nextVisit?, hcursor] at hvisit
      cases hvisit
  | seek =>
      simp only [nextVisit?, hcursor] at hvisit
      exact .inl (hseek hvisit)
  | leaf id =>
      simp only [nextVisit?, hcursor] at hvisit
      obtain ⟨page, _, hvisit⟩ := exists_of_bind_eq_ok hvisit
      obtain ⟨leaf, _, hvisit⟩ := exists_of_bind_eq_ok hvisit
      by_cases hstale : page.retired || walk.lower < leaf.low
      · rw [if_pos hstale] at hvisit
        exact .inl (hseek hvisit)
      · rw [if_neg hstale] at hvisit
        cases hvisit
        exact .inr ⟨rfl, rfl⟩

theorem covers_of_descended {t : Subtree V} (hshows : tree.Shows t)
    {page : PageId} {contents : Leaf V}
    (hleaf : (page, .leaf contents) ∈ t.cells)
    (hvisit : walk.nextVisit? tree =
      .ok (some (walk.visit tree page true contents))) :
    contents.Covers walk.lower := by
  rcases nextVisit?_cases hvisit with ⟨_, leaf, hfound⟩ | ⟨hnot, _⟩
  · obtain ⟨_, found, foundContents, _, hleads, hleafFor⟩ :=
      hshows.exists_leafFor walk.lower
    rw [hleafFor] at hfound
    cases hfound
    have hlive := hshows.carries _ _ hleads.mem_cells
    have hsame := hshows.carries _ _ hleaf
    rw [show (walk.visit tree page true contents).page = page from rfl, hsame]
      at hlive
    cases hlive
    exact hleads.fits.covers hleads.admits
  · cases hnot

end Descents

/-! ## Along the leaves -/

/-- The visits of a walk that goes along the leaves. -/
def visitsOver (tree : Tree V) :
    Walk → Bool → List (PageId × Leaf V) → List (Visit V)
  | _, _, [] => []
  | walk, descended, (page, contents) :: rest =>
      walk.visit tree page descended contents ::
        visitsOver tree (walk.after (walk.visit tree page descended contents))
          false rest

section VisitsOver

variable {tree : Tree V} {t : Subtree V} {walk : Walk} {descended : Bool}

@[simp] theorem pages_visitsOver (leaves : List (PageId × Leaf V)) :
    (visitsOver tree walk descended leaves).map (·.page) =
      leaves.map (·.1) := by
  induction leaves generalizing walk descended with
  | nil => rfl
  | cons leaf rest ih =>
      rw [visitsOver, List.map_cons, ih, List.map_cons]
      rfl

theorem not_descended_visitsOver {leaves : List (PageId × Leaf V)}
    {visit : Visit V} (hvisit : visit ∈ visitsOver tree walk false leaves) :
    visit.descended = false := by
  induction leaves generalizing walk with
  | nil => cases hvisit
  | cons leaf rest ih =>
      rcases List.mem_cons.mp hvisit with rfl | hlater
      · rfl
      · exact ih hlater

/-- A descent is possible only at the first leaf. -/
theorem descended_of_mem_visitsOver {leaves : List (PageId × Leaf V)}
    {visit : Visit V} (hvisit : visit ∈ visitsOver tree walk descended leaves)
    (hdescended : visit.descended = true) : descended = true := by
  cases descended with
  | true => rfl
  | false =>
      rw [not_descended_visitsOver hvisit] at hdescended
      cases hdescended

theorem descents_visitsOver (leaves : List (PageId × Leaf V)) :
    (visitsOver tree walk descended leaves).countP (·.descended) ≤ 1 := by
  cases leaves with
  | nil => exact Nat.zero_le 1
  | cons leaf rest =>
      have hnone : (visitsOver tree
          (walk.after (walk.visit tree leaf.1 descended leaf.2)) false
          rest).countP (·.descended) = 0 := by
        rw [List.countP_eq_zero]
        intro visit hvisit
        simp [not_descended_visitsOver hvisit]
      rw [visitsOver, List.countP_cons, hnone]
      split <;> omega

/-- Once a walk has visited a leaf, links lead it through all leaves behind. -/
theorem makes_visitsOver (hshows : tree.Shows t)
    {front rest : List (PageId × Leaf V)} {leaf : PageId × Leaf V}
    (hleaves : t.leaves = front ++ leaf :: rest)
    (hvisit : walk.nextVisit? tree =
      .ok (some (walk.visit tree leaf.1 descended leaf.2))) :
    Makes tree walk (visitsOver tree walk descended (leaf :: rest)) ∧
      (walk.afterAll
        (visitsOver tree walk descended (leaf :: rest))).cursor = .finished := by
  induction rest generalizing walk front leaf descended with
  | nil =>
      have hafter : walk.after (walk.visit tree leaf.1 descended leaf.2) =
          ⟨.finished, walk.lower⟩ := after_visit_last hshows hleaves descended
      refine ⟨.cons hvisit .nil, ?_⟩
      rw [visitsOver, visitsOver, afterAll, List.foldl_cons, List.foldl_nil,
        hafter]
  | cons next rest ih =>
      have hafter : walk.after (walk.visit tree leaf.1 descended leaf.2) =
          ⟨.leaf next.1, max walk.lower next.2.low⟩ :=
        after_visit_next hshows hleaves descended
      have hsplit : t.leaves = (front ++ [leaf]) ++ next :: rest := by
        rw [hleaves, List.append_assoc, List.singleton_append]
      have hnext := nextVisit?_leaf hshows hsplit (congrArg cursor hafter) (by
        rw [hafter]
        exact Key.le_max_right _ _)
      obtain ⟨hmakes, hfinished⟩ := ih hsplit hnext
      exact ⟨.cons hvisit hmakes, hfinished⟩

/-- Behind a leaf that covers the bound, each leaf covers the bound that the
walk has when it gets there. -/
theorem rises_visitsOver (hshows : tree.Shows t)
    {front rest : List (PageId × Leaf V)} {leaf : PageId × Leaf V}
    (hleaves : t.leaves = front ++ leaf :: rest)
    (hcovers : leaf.2.Covers walk.lower) {before after : List (Visit V)}
    {visit : Visit V}
    (hvisits : visitsOver tree walk descended (leaf :: rest) =
      before ++ visit :: after) :
    Rises tree (walk.afterAll before) visit := by
  induction before generalizing walk front leaf rest descended with
  | nil =>
      have hcell : (leaf.1, Node.leaf leaf.2) ∈ t.cells :=
        mem_cells_of_leaves_eq hleaves
      obtain ⟨hvisit, _⟩ := List.cons.inj hvisits
      subst hvisit
      refine ⟨⟨leaf.2, hshows.carries _ _ hcell, hcovers⟩, ?_⟩
      cases rest with
      | nil =>
          exact .inl (congrArg cursor (after_visit_last hshows hleaves descended))
      | cons next rest =>
          have htiles := hshows.wellFormed.fits.tiles
          rw [hleaves] at htiles
          have hbelow := hcovers.high _ htiles.consecutive.1
          refine .inr (UInt64.lt_of_lt_of_le hbelow ?_)
          rw [show walk.afterAll ([] : List (Visit V)) = walk from rfl,
            after_visit_next hshows hleaves]
          exact Key.le_max_right _ _
  | cons first before ih =>
      obtain ⟨hfirst, hlater⟩ := List.cons.inj hvisits
      cases rest with
      | nil => cases before <;> cases hlater
      | cons next rest =>
          have hsplit : t.leaves = (front ++ [leaf]) ++ next :: rest := by
            rw [hleaves, List.append_assoc, List.singleton_append]
          have hafter : walk.after first =
              ⟨.leaf next.1, max walk.lower next.2.low⟩ := by
            rw [← hfirst]
            exact after_visit_next hshows hleaves descended
          have htiles := hshows.wellFormed.fits.tiles
          rw [hleaves] at htiles
          have hbelow := hcovers.high _ htiles.consecutive.1
          have hrises : max walk.lower next.2.low = next.2.low :=
            Key.max_eq_right (UInt64.le_of_lt hbelow)
          rw [hfirst] at hlater
          refine ih hsplit ?_ hlater
          rw [hafter, hrises]
          exact htiles.covers_low

end VisitsOver

section Facing

variable {tree : Tree V} {t : Subtree V} {walk : Walk}
  {leaves : List (PageId × Leaf V)}

theorem Facing.length_lt (hfacing : walk.Facing tree t leaves)
    (hshows : tree.Shows t) {visits : List (Visit V)}
    (hpages : visits.map (·.page) = leaves.map (·.1)) :
    visits.length < tree.pages.size + 1 := by
  have hlength := congrArg List.length hpages
  rw [List.length_map, List.length_map] at hlength
  have hbound := hfacing.length_le hshows
  omega

/-- Only the first of the visits that a walk has yet to make, should the tree
stay as it is, can take a descent. -/
theorem Facing.exists_progresses (hfacing : walk.Facing tree t leaves)
    (hshows : tree.Shows t) :
    ∃ visits, walk.Progresses tree visits ∧
      (walk.afterAll visits).cursor = .finished ∧
      visits.map (·.page) = leaves.map (·.1) ∧
      ∀ visit ∈ visits.tail, visit.descended = false := by
  cases hfacing with
  | finished hcursor =>
      refine ⟨[], ⟨.nil, Nat.zero_le 1, List.nodup_nil, ?_⟩, hcursor, rfl, ?_⟩
      · intro before visit after hvisits
        cases before <;> cases hvisits
      · simp
  | @leaf front rest page contents descended hleaves hlow hvisit =>
      obtain ⟨hmakes, hfinished⟩ := makes_visitsOver hshows hleaves hvisit
      refine ⟨_, ⟨hmakes, descents_visitsOver _, ?_, ?_⟩, hfinished,
        pages_visitsOver _, fun _ => not_descended_visitsOver⟩
      · have hnodup := hshows.nodup.sublist (Cell.leafPagesIn_sublist t.cells)
        rw [Cell.leafPagesIn, ← Subtree.leaves, hleaves, List.map_append]
          at hnodup
        rw [pages_visitsOver]
        exact hnodup.of_append_right
      · intro before visit after hvisits hdescended
        obtain ⟨earlier, hearlier, hflag⟩ := List.any_eq_true.mp hdescended
        have hmem : earlier ∈ visitsOver tree walk descended
            ((page, contents) :: rest) := by
          rw [hvisits, List.append_cons]
          exact List.mem_append_left _ hearlier
        have hfirst : descended = true := descended_of_mem_visitsOver hmem hflag
        subst hfirst
        have hcovers := covers_of_descended hshows
          (mem_cells_of_leaves_eq hleaves) hvisit
        exact rises_visitsOver hshows hleaves hcovers hvisits

end Facing

end Walk

namespace Scan

/-- A question to a scan, the visits that it takes, and the visits that are left.
-/
structure Reads (tree : Tree V) (scan later : Scan V) (visits : List (Visit V)) :
    Prop where
  fill : ∃ filled, scan.fill tree = .ok (visits, filled) ∧
    later.walk = filled.walk
  walk : later.walk = scan.walk.afterAll visits
  progresses : scan.walk.Progresses tree visits
  left : ∃ others, later.walk.visits tree = .ok others ∧
    scan.walk.visits tree = .ok (visits ++ others)

section Fill

variable {tree : Tree V} {scan : Scan V} {visits : List (Visit V)}

/-- To fill the buffer takes the first of the visits that the walk makes. -/
theorem exists_fillWithin_of_makes (hmakes : scan.walk.Makes tree visits)
    (hfinished : (scan.walk.afterAll visits).cursor = .finished) {fuel : Nat}
    (hfuel : visits.length < fuel) :
    ∃ made others filled, visits = made ++ others ∧
      fillWithin tree fuel scan = .ok (made, filled) ∧
      filled.walk = scan.walk.afterAll made := by
  induction visits generalizing scan fuel with
  | nil =>
      obtain ⟨fuel, rfl⟩ :=
        Nat.exists_eq_add_one_of_ne_zero (Nat.ne_zero_of_lt hfuel)
      have hcursor : scan.walk.cursor = .finished := hfinished
      refine ⟨[], [], scan, rfl, ?_, rfl⟩
      rw [fillWithin, Walk.nextVisit?, hcursor]
      cases scan.buffer.isEmpty <;> rfl
  | cons visit rest ih =>
      obtain ⟨fuel, rfl⟩ :=
        Nat.exists_eq_add_one_of_ne_zero (Nat.ne_zero_of_lt hfuel)
      rw [fillWithin]
      cases hbuffer : scan.buffer.isEmpty with
      | false => exact ⟨[], visit :: rest, scan, rfl, rfl, rfl⟩
      | true =>
          cases hmakes with
          | cons hvisit hrest =>
              let read : Scan V := ⟨scan.walk.after visit, visit.entries⟩
              have hread : read.walk.Makes tree rest := hrest
              obtain ⟨made, others, filled, rfl, hfill, hwalk⟩ :=
                ih hread hfinished (Nat.lt_of_succ_lt_succ hfuel)
              refine ⟨visit :: made, others, filled, rfl, ?_, hwalk⟩
              simp only [if_true, hvisit, bind, Except.bind]
              rw [hfill]
              rfl

theorem exists_reads {t : Subtree V} (hsound : tree.Sound t)
    (hready : scan.Ready tree.pages) :
    ∃ answer later visits, scan.next tree = .ok (answer, later) ∧
      scan.Reads tree later visits := by
  have hshows := hsound.shows
  obtain ⟨leaves, hfacing⟩ := Walk.exists_facing hsound hready.remembers
  obtain ⟨visits, hprogresses, hfinished, hpages, _⟩ :=
    hfacing.exists_progresses hshows
  have hfuel := hfacing.length_lt hshows hpages
  obtain ⟨made, others, filled, rfl, hfill, hwalk⟩ :=
    exists_fillWithin_of_makes hprogresses.makes hfinished hfuel
  have hothers := (Walk.makes_append_iff.mp hprogresses.makes).2
  have hnext : ∃ answer later, scan.next tree = .ok (answer, later) ∧
      later.walk = filled.walk := by
    rw [next, fill, hfill]
    simp only [bind, Except.bind]
    cases filled.buffer with
    | nil => exact ⟨_, _, rfl, rfl⟩
    | cons e buffer => exact ⟨_, _, rfl, rfl⟩
  obtain ⟨answer, later, hanswer, hlater⟩ := hnext
  refine ⟨answer, later, made, hanswer, ⟨filled, hfill, hlater⟩,
    hlater.trans hwalk, hprogresses.of_append, others, ?_, ?_⟩
  · rw [hlater, hwalk]
    rw [Walk.afterAll_append] at hfinished
    rw [List.length_append] at hfuel
    exact hothers.visitsWithin_eq hfinished (by omega)
  · exact hprogresses.makes.visitsWithin_eq hfinished hfuel

end Fill

end Scan

/-! ## Fresh walks -/

namespace Tree

/-- The visits of a walk from a key to the end: a descent to the leaf that covers
the key, and from there along the links through all leaves behind. -/
structure Sweeps (tree : Tree V) (start : Key) (visits : List (Visit V)) :
    Prop where
  progresses : (Walk.start start).Progresses tree visits
  leaves : ∃ t before, tree.subtree = .ok t ∧
    t.leafPages = before ++ visits.map (·.page)
  descends : ∃ first rest, visits = first :: rest ∧ first.descended = true ∧
    ∀ visit ∈ rest, visit.descended = false
  covers : ∃ visit contents, visits.head? = some visit ∧
    tree.pages.liveNode? visit.page = some (.leaf contents) ∧
      contents.Covers start

theorem Sound.exists_sweeps {tree : Tree V} {t : Subtree V}
    (hsound : tree.Sound t) (start : Key) :
    ∃ visits, (Walk.start start).visits tree = .ok visits ∧
      tree.Sweeps start visits := by
  have hshows := hsound.shows
  obtain ⟨leaves, hfacing⟩ := Walk.facing_start hshows start
  obtain ⟨visits, hprogresses, hfinished, hpages, hlinked⟩ :=
    hfacing.exists_progresses hshows
  have hvisits := hprogresses.makes.visitsWithin_eq hfinished
    (hfacing.length_lt hshows hpages)
  cases hprogresses.makes with
  | nil => cases hfinished
  | @cons _ first rest hfirst _ =>
      have hdescended : first.descended = true := by
        rcases Walk.nextVisit?_cases hfirst with ⟨hflag, _⟩ | ⟨_, hcursor⟩
        · exact hflag
        · cases hcursor
      have hrises := hprogresses.rises [] first rest rfl (by simp [hdescended])
      obtain ⟨contents, hlive, hcovers⟩ := hrises.covers
      have hleaves : ∃ before,
          t.leafPages = before ++ (first :: rest).map (·.page) := by
        rw [hpages]
        cases hfacing with
        | finished hcursor => cases hcursor
        | @leaf before _ _ _ _ hleaves _ _ =>
            refine ⟨before.map (·.1), ?_⟩
            rw [leafPages, Cell.leafPagesIn, ← Subtree.leaves, hleaves,
              List.map_append]
      obtain ⟨before, hleaves⟩ := hleaves
      exact ⟨_, hvisits, hprogresses, ⟨t, before, hshows.subtree_eq, hleaves⟩,
        ⟨first, rest, rfl, hdescended, hlinked⟩,
        ⟨first, contents, rfl, hlive, hcovers⟩⟩

end Tree

namespace Scan

/-- Wherever changes and questions leave a tree and a scan over it, the next
question descends at most once and visits no leaf twice, and from a descent on
the lower bound rises with each visit.  A walk from any key over the tree as it
is then sweeps the leaves. -/
theorem questions_progress {config : Config} (hconfig : config.validate = .ok ())
    (history : List (Change V)) (lower : Key) (steps : List (ScanStep V)) :
    ∃ tree last parked,
      (Tree.empty config).changeAll history = .ok tree ∧
        (start lower).follow tree steps = .ok (last, parked) ∧
        (∃ answer later visits, parked.next last = .ok (answer, later) ∧
          parked.Reads last later visits) ∧
        ∀ first, ∃ visits, (Walk.start first).visits last = .ok visits ∧
          last.Sweeps first visits := by
  have hvalid := Config.validate_eq_ok_iff.mp hconfig
  obtain ⟨tree, t, hrun, hsound⟩ :=
    (Tree.sound_empty hvalid).exists_changeAll history
  obtain ⟨last, parked, u, hfollow, hlast, hready⟩ :=
    exists_follow hsound (ready_start lower tree.pages) steps
  exact ⟨tree, last, parked, hrun, hfollow, exists_reads hlast hready,
    hlast.exists_sweeps⟩

/-- The remembered leaf has lent the key 40 to the leaf before it, which has lost
that key since.  So the scan descends to a leaf where it has nothing to read, and
the link leads it on. -/
theorem questions_progress_past_emptied_range :
    ({ degree := 4 } : Config).validate = .ok () ∧
      ∃ tree last parked answer later visits,
        (Tree.empty { degree := 4 }).changeAll
            (([10, 20, 30, 40, 50, 45, 47] : List Key).map (.insert · 'a')) =
              .ok tree ∧
          (start 0).follow tree [.next, .next, .next, .change (.remove 10),
            .change (.remove 20), .change (.insert 35 'b'),
            .change (.remove 40)] = .ok (last, parked) ∧
          parked.walk = ⟨.leaf 1, 40⟩ ∧
          parked.next last = .ok (answer, later) ∧
          parked.Reads last later visits ∧
          visits.map (fun visit => (visit.page, visit.descended)) =
            [(0, true), (1, false)] := by
  have hconfig : ({ degree := 4 } : Config).validate = .ok () := rfl
  obtain ⟨tree, last, parked, hrun, hfollow, hreads, _⟩ :=
    questions_progress hconfig
    (([10, 20, 30, 40, 50, 45, 47] : List Key).map (.insert · 'a')) 0
    [.next, .next, .next, .change (.remove 10), .change (.remove 20),
      .change (.insert 35 'b'), .change (.remove 40)]
  obtain ⟨answer, later, visits, hnext, hreads⟩ := hreads
  obtain ⟨filled, hfill, _⟩ := hreads.fill
  have hseen : ((Tree.empty { degree := 4 }).changeAll
      (([10, 20, 30, 40, 50, 45, 47] : List Key).map (.insert · 'a'))).bind
        (fun tree => ((start 0).follow tree [.next, .next, .next,
          .change (.remove 10), .change (.remove 20), .change (.insert 35 'b'),
          .change (.remove 40)]).bind fun (last, parked) =>
            (parked.fill last).map fun (visits, _) => (parked.walk,
              visits.map fun visit => (visit.page, visit.descended))) =
      .ok (⟨.leaf 1, 40⟩, [(0, true), (1, false)]) := by
    decide +kernel
  rw [hrun, Except.bind, hfollow, Except.bind] at hseen
  dsimp only at hseen
  rw [hfill, Except.map, Except.ok.injEq] at hseen
  obtain ⟨hwalk, hvisits⟩ := Prod.mk.inj hseen
  exact ⟨hconfig, tree, last, parked, answer, later, visits, hrun, hfollow,
    hwalk, hnext, hreads, hvisits⟩

end Scan

end LatchTree

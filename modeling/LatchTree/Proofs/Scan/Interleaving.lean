import LatchTree.Proofs.Tree.History
import LatchTree.Proofs.Scan.Rest

/-!
# Scans over a tree that changes

While a scan is under way, the tree may change in any way between two questions
to the scan.  The scan still yields each key at most once and in ascending
order, and it does not miss a key that stays in the tree from the first question
on.
-/

namespace LatchTree

open Subtree

variable {V : Type}

/-- What happens while a scan is under way. -/
inductive ScanStep (V : Type) where
  | change (change : Change V)
  | next

/-- What a step shows. -/
inductive Moment (V : Type) where
  | changed (tree : Tree V)
  /-- The tree of a question to the scan, and the answer. -/
  | asked (tree : Tree V) (answer : Option (Key × V))

namespace Moment

def tree : Moment V → Tree V
  | .changed tree => tree
  | .asked tree _ => tree

def isChange : Moment V → Bool
  | .changed _ => true
  | .asked _ _ => false

def answer? : Moment V → Option (Option (Key × V))
  | .changed _ => none
  | .asked _ answer => some answer

def answers (moments : List (Moment V)) : List (Option (Key × V)) :=
  moments.filterMap answer?

def yielded (moments : List (Moment V)) : List (Key × V) :=
  (answers moments).reduceOption

/-- The moments from the first question on. -/
def sinceFirstQuestion (moments : List (Moment V)) : List (Moment V) :=
  moments.dropWhile isChange

end Moment

namespace Scan

/-- The moments of a scan that is under way while the steps happen. -/
def play (tree : Tree V) (scan : Scan V) :
    List (ScanStep V) → Except Fault (List (Moment V))
  | [] => return []
  | .change change :: steps => do
    let tree ← tree.change change
    return .changed tree :: (← play tree scan steps)
  | .next :: steps => do
    let (answer, scan) ← scan.next tree
    return .asked tree answer :: (← play tree scan steps)

/-- Moments that can be seen from a sound tree and a scan on. -/
inductive Plays : Tree V → Subtree V → Scan V → List (Moment V) → Prop
  | nil {tree : Tree V} {t : Subtree V} {scan : Scan V} : Plays tree t scan []
  | changed {tree next : Tree V} {t u : Subtree V} {scan : Scan V}
      {moments : List (Moment V)} :
      next.Sound u → scan.Ready next.pages → Agree t.entries u.entries →
      Plays next u scan moments → Plays tree t scan (.changed next :: moments)
  | asked {tree : Tree V} {t : Subtree V} {scan later : Scan V}
      {answer : Option (Key × V)} {moments : List (Moment V)} :
      Yields tree t scan answer later → Plays tree t later moments →
      Plays tree t scan (.asked tree answer :: moments)

section Plays

variable {tree : Tree V} {t : Subtree V} {scan : Scan V}

theorem exists_play (hsound : tree.Sound t) (hready : scan.Ready tree.pages)
    (steps : List (ScanStep V)) :
    ∃ moments, play tree scan steps = .ok moments ∧
      Plays tree t scan moments := by
  induction steps generalizing tree t scan with
  | nil => exact ⟨[], rfl, .nil⟩
  | cons step steps ih =>
      cases step with
      | change change =>
          obtain ⟨next, u, _, hchange, hnext, hcontinues, hagree⟩ :=
            hsound.exists_change change
          have hlater := hready.evolve hcontinues.pages
          obtain ⟨moments, hplay, hplays⟩ := ih hnext hlater
          refine ⟨.changed next :: moments, ?_,
            .changed hnext hlater hagree hplays⟩
          rw [play, hchange]
          simp only [bind, Except.bind, hplay]
          rfl
      | next =>
          obtain ⟨answer, later, hnext, hyields⟩ :=
            exists_next hsound.shows (hready.poised hsound)
          obtain ⟨moments, hplay, hplays⟩ := ih hsound hyields.poised.toReady
          refine ⟨.asked tree answer :: moments, ?_, .asked hyields hplays⟩
          rw [play, hnext]
          simp only [bind, Except.bind, hplay]
          rfl

/-! ## Order -/

namespace Plays

variable {moments : List (Moment V)}

theorem passed (hplays : Plays tree t scan moments) {key : Key}
    (hpassed : scan.Passed key)
    {e : Key × V} (he : e ∈ Moment.yielded moments) : key < e.1 := by
  induction hplays with
  | nil => cases he
  | changed _ _ _ _ ih => exact ih hpassed he
  | @asked _ _ _ _ answer _ hyields _ ih =>
      obtain ⟨hlater, hanswer⟩ := hyields.passed key hpassed
      cases answer with
      | none => exact ih hlater he
      | some first =>
          rcases List.mem_cons.mp he with rfl | he
          · exact hanswer e rfl
          · exact ih hlater he

theorem ascending (hplays : Plays tree t scan moments) :
    Ascending (Moment.yielded moments) := by
  induction hplays with
  | nil => exact List.Pairwise.nil
  | changed _ _ _ _ ih => exact ih
  | @asked _ _ _ _ answer _ hyields hlater ih =>
      cases answer with
      | none => exact ih
      | some first =>
          have hpassed := hyields.yielded first rfl
          exact List.pairwise_cons.mpr
            ⟨fun e he => hlater.passed hpassed he, ih⟩

theorem answers_of_ended (hplays : Plays tree t scan moments)
    (hended : scan.Ended) :
    ∀ answer ∈ Moment.answers moments, answer = none := by
  induction hplays with
  | nil => simp [Moment.answers]
  | changed _ _ _ _ ih => exact ih hended
  | @asked tree t scan later answer _ hyields _ ih =>
      have hrest : scan.rest t = [] := by
        rw [rest, Walk.pending, hended.buffer, if_pos hended.walk]
        rfl
      have hnone : answer = none := by
        rw [hyields.answered, hrest, List.head?_nil]
      intro other hother
      rcases List.mem_cons.mp hother with rfl | hother
      · exact hnone
      · exact ih (hyields.ended hnone) other hother

/-- Once a scan has no entry to yield, it has none for good. -/
theorem answers_after_none (hplays : Plays tree t scan moments)
    {earlier later : List (Option (Key × V))}
    (hanswers : Moment.answers moments = earlier ++ none :: later) :
    ∀ answer ∈ later, answer = none := by
  induction hplays generalizing earlier with
  | nil => simp [Moment.answers] at hanswers
  | changed _ _ _ _ ih => exact ih hanswers
  | @asked _ _ _ _ answer moments hyields hrest ih =>
      have hcons : answer :: Moment.answers moments =
          earlier ++ none :: later := hanswers
      cases earlier with
      | nil =>
          obtain ⟨hnone, htail⟩ := List.cons.inj hcons
          rw [← htail]
          exact hrest.answers_of_ended (hyields.ended hnone)
      | cons first earlier =>
          obtain ⟨_, htail⟩ := List.cons.inj hcons
          exact ih htail

/-! ## Completeness -/

theorem get?_eq_some {window later : List (Moment V)}
    (hplays : Plays tree t scan (window ++ later)) (hsound : tree.Sound t)
    {key : Key} {value : V} (hmem : (key, value) ∈ t.entries)
    (hlasts : ∀ m ∈ window, m.tree.contains key = .ok true) :
    ∀ m ∈ window, m.tree.get? key = .ok (some value) := by
  induction window generalizing tree t scan with
  | nil => simp
  | cons first window ih =>
      obtain ⟨hfirst, hrest⟩ := List.forall_mem_cons.mp hlasts
      rw [List.cons_append] at hplays
      cases hplays with
      | @changed _ next _ u _ _ hnext _ hagree hlater =>
          obtain ⟨found, hfound⟩ := hnext.exists_mem_of_contains hfirst
          have hsame := hagree (key, value) hmem (key, found) hfound rfl
          rw [← hsame] at hfound
          exact List.forall_mem_cons.mpr
            ⟨hnext.get?_eq_some hfound, ih hlater hnext hfound hrest⟩
      | asked _ hlater =>
          exact List.forall_mem_cons.mpr
            ⟨hsound.get?_eq_some hmem, ih hlater hsound hmem hrest⟩

/-- An entry of the rest stays there while it stays in the tree, until the scan
yields it.  The scan does not get past its key before. -/
theorem exists_asked_of_mem_rest {during later : List (Moment V)}
    {last : Tree V} {answer : Option (Key × V)}
    (hplays : Plays tree t scan (during ++ .asked last answer :: later))
    (hsound : tree.Sound t)
    (hready : scan.Ready tree.pages) {key : Key} {value : V}
    (hmem : (key, value) ∈ t.entries) (hrest : (key, value) ∈ scan.rest t)
    (hlasts : ∀ m ∈ during, m.tree.contains key = .ok true)
    (hanswer : ∀ e ∈ answer, key < e.1) :
    ∃ asked, .asked asked (some (key, value)) ∈ during := by
  induction during generalizing tree t scan with
  | nil =>
      have hascending := rest_ascending hsound.shows hready
      cases hplays with
      | asked hyields _ =>
          have hfirst := hyields.answered
          cases hentries : scan.rest t with
          | nil =>
              rw [hentries] at hrest
              cases hrest
          | cons e entries =>
              rw [hentries, List.head?_cons] at hfirst
              rw [hentries] at hrest hascending
              have hpast := hanswer e (Option.mem_def.mpr hfirst)
              rcases List.mem_cons.mp hrest with rfl | htail
              · exact absurd hpast (UInt64.lt_irrefl _)
              · have hbefore := (List.pairwise_cons.mp hascending).1 _ htail
                exact absurd (UInt64.lt_trans hpast hbefore)
                  (UInt64.lt_irrefl _)
  | cons first during ih =>
      obtain ⟨hcontains, hrests⟩ := List.forall_mem_cons.mp hlasts
      rw [List.cons_append] at hplays
      cases hplays with
      | @changed _ next _ u _ _ hnext hlater hagree hplays =>
          obtain ⟨found, hfound⟩ := hnext.exists_mem_of_contains hcontains
          have hsame := hagree (key, value) hmem (key, found) hfound rfl
          rw [← hsame] at hfound
          have hkept : (key, value) ∈ scan.rest u := by
            rw [mem_rest] at hrest ⊢
            exact hrest.imp_right fun hahead => ⟨hahead.1, hahead.2.1, hfound⟩
          obtain ⟨asked, hasked⟩ := ih hplays hnext hlater hfound hkept hrests
          exact ⟨asked, List.mem_cons_of_mem _ hasked⟩
      | @asked _ _ _ later firstAnswer _ hyields hplays =>
          cases hentries : scan.rest t with
          | nil =>
              rw [hentries] at hrest
              cases hrest
          | cons e entries =>
              have hfirst := hyields.answered
              have hkept := hyields.rest
              rw [hentries, List.head?_cons] at hfirst
              rw [hentries, List.tail_cons] at hkept
              rw [hentries] at hrest
              rcases List.mem_cons.mp hrest with rfl | htail
              · exact ⟨tree, by rw [hfirst]; exact List.mem_cons_self⟩
              · rw [← hkept] at htail
                obtain ⟨asked, hasked⟩ :=
                  ih hplays hsound hyields.poised.toReady hmem htail hrests
                exact ⟨asked, List.mem_cons_of_mem _ hasked⟩

theorem exists_value_of_contains {lower key : Key}
    {earlier later : List (Moment V)}
    {last : Tree V} {answer : Option (Key × V)}
    (hplays : Plays tree t (start lower)
      (earlier ++ .asked last answer :: later))
    (hsound : tree.Sound t) (hkey : lower ≤ key)
    (hcontains : tree.contains key = .ok true)
    (hlasts : ∀ m ∈ earlier ++ [.asked last answer],
      m.tree.contains key = .ok true)
    (hanswer : ∀ e ∈ answer, key < e.1) :
    ∃ value,
      (∀ m ∈ earlier ++ [.asked last answer],
        m.tree.get? key = .ok (some value)) ∧
        ∃ asked, .asked asked (some (key, value)) ∈ earlier := by
  obtain ⟨value, hmem⟩ := hsound.exists_mem_of_contains hcontains
  have hrest : (key, value) ∈ (start lower : Scan V).rest t := by
    rw [rest_start, List.mem_filter]
    exact ⟨hmem, decide_eq_true hkey⟩
  have hbefore : ∀ m ∈ earlier, m.tree.contains key = .ok true :=
    fun m hm => hlasts m (List.mem_append_left _ hm)
  have hasked := hplays.exists_asked_of_mem_rest hsound
    (ready_start lower tree.pages) hmem hrest hbefore hanswer
  rw [List.append_cons] at hplays
  exact ⟨value, hplays.get?_eq_some hsound hmem hlasts, hasked⟩

/-- A key that stays in the tree from the first question on.  The changes before
that question leave the scan as it began. -/
theorem exists_value {lower key : Key} {earlier later : List (Moment V)}
    {last : Tree V} {answer : Option (Key × V)}
    (hplays : Plays tree t (start lower)
      (earlier ++ .asked last answer :: later))
    (hsound : tree.Sound t) (hkey : lower ≤ key)
    (hlasts : ∀ m ∈ Moment.sinceFirstQuestion (earlier ++ [.asked last answer]),
      m.tree.contains key = .ok true)
    (hanswer : ∀ e ∈ answer, key < e.1) :
    ∃ value,
      (∀ m ∈ Moment.sinceFirstQuestion (earlier ++ [.asked last answer]),
        m.tree.get? key = .ok (some value)) ∧
        ∃ asked, .asked asked (some (key, value)) ∈ earlier := by
  induction earlier generalizing tree t with
  | nil =>
      cases id hplays with
      | asked _ _ =>
          exact hplays.exists_value_of_contains hsound hkey
            (hlasts _ List.mem_cons_self) hlasts hanswer
  | cons first earlier ih =>
      cases id hplays with
      | changed hnext _ _ hlater =>
          obtain ⟨value, hvalue, asked, hasked⟩ := ih hlater hnext hlasts
          exact ⟨value, hvalue, asked, List.mem_cons_of_mem _ hasked⟩
      | asked _ _ =>
          exact hplays.exists_value_of_contains hsound hkey
            (hlasts _ List.mem_cons_self) hlasts hanswer

end Plays

end Plays

theorem exists_play_of_history {config : Config}
    (hconfig : config.validate = .ok ())
    (history : List (Change V)) (lower : Key) (steps : List (ScanStep V)) :
    ∃ tree t moments,
      (Tree.empty config).changeAll history = .ok tree ∧ tree.Sound t ∧
        (start lower).play tree steps = .ok moments ∧
        Plays tree t (start lower) moments := by
  have hvalid := Config.validate_eq_ok_iff.mp hconfig
  obtain ⟨tree, t, hrun, hsound⟩ :=
    (Tree.sound_empty hvalid).exists_changeAll history
  obtain ⟨moments, hplay, hplays⟩ :=
    exists_play hsound (ready_start lower tree.pages) steps
  exact ⟨tree, t, moments, hrun, hsound, hplay, hplays⟩

/-- While the tree changes in any way, a scan does not miss a key that stays in
the tree from the first question on: by the time it yields a greater key or has
none left, it has yielded the key with its value. -/
theorem yields_lasting_keys {config : Config}
    (hconfig : config.validate = .ok ())
    (history : List (Change V)) (lower : Key) (steps : List (ScanStep V)) :
    ∃ tree moments,
      (Tree.empty config).changeAll history = .ok tree ∧
        (start lower).play tree steps = .ok moments ∧
        ∀ earlier last answer later key,
          moments = earlier ++ .asked last answer :: later →
          lower ≤ key →
          (∀ m ∈ Moment.sinceFirstQuestion (earlier ++ [.asked last answer]),
            m.tree.contains key = .ok true) →
          (∀ e ∈ answer, key < e.1) →
          ∃ value,
            (∀ m ∈ Moment.sinceFirstQuestion (earlier ++ [.asked last answer]),
              m.tree.get? key = .ok (some value)) ∧
              ∃ asked, .asked asked (some (key, value)) ∈ earlier := by
  obtain ⟨tree, t, moments, hrun, hsound, hplay, hplays⟩ :=
    exists_play_of_history hconfig history lower steps
  refine ⟨tree, moments, hrun, hplay, ?_⟩
  rintro earlier last answer later key rfl hkey hlasts hanswer
  exact hplays.exists_value hsound hkey hlasts hanswer

/-- The removal merges the leaf that the scan remembers into its neighbour. -/
theorem yields_lasting_keys_over_merge :
    ({ degree := 3 } : Config).validate = .ok () ∧
      ∃ tree moments earlier last later,
        (Tree.empty { degree := 3 }).changeAll
            [.insert 1 'a', .insert 2 'b', .insert 3 'c', .insert 4 'd',
              .insert 5 'e', .insert 6 'f'] = .ok tree ∧
          (start 2).play tree [.next, .change (.remove 1), .next, .next,
            .next] = .ok moments ∧
          moments = earlier ++ .asked last (some (5, 'e')) :: later ∧
          (∀ m ∈ Moment.sinceFirstQuestion
            (earlier ++ [.asked last (some (5, 'e'))]),
            m.tree.contains 4 = .ok true) ∧
          ∃ value asked, .asked asked (some (4, value)) ∈ earlier := by
  have hconfig : ({ degree := 3 } : Config).validate = .ok () := rfl
  obtain ⟨tree, moments, hrun, hplay, hyields⟩ := yields_lasting_keys hconfig
    [.insert 1 'a', .insert 2 'b', .insert 3 'c', .insert 4 'd', .insert 5 'e',
      .insert 6 'f'] 2
    [.next, .change (.remove 1), .next, .next, .next]
  have hseen : ((Tree.empty { degree := 3 }).changeAll
      [.insert 1 'a', .insert 2 'b', .insert 3 'c', .insert 4 'd',
        .insert 5 'e', .insert 6 'f']).bind
        (fun tree => ((start 2).play tree [.next, .change (.remove 1), .next,
          .next, .next]).map fun moments => (moments.map Moment.answer?,
            moments.all fun m => m.tree.contains 4 == .ok true)) =
      .ok ([some (some (2, 'b')), none, some (some (3, 'c')),
        some (some (4, 'd'))] ++ [some (some (5, 'e'))], true) := by
    decide +kernel
  rw [hrun, Except.bind, hplay, Except.map, Except.ok.injEq, Prod.mk.injEq]
    at hseen
  obtain ⟨hanswers, hpresent⟩ := hseen
  obtain ⟨earlier, rest, rfl, _, hrest⟩ := List.map_eq_append_iff.mp hanswers
  obtain ⟨m, later, rfl, hm, _⟩ := List.map_eq_cons_iff.mp hrest
  cases m with
  | changed _ => cases hm
  | asked last answer =>
      cases hm
      have hlasts : ∀ m ∈ Moment.sinceFirstQuestion
          (earlier ++ [.asked last (some (5, 'e'))]),
          m.tree.contains 4 = .ok true := by
        intro m hm
        have hmem := (List.dropWhile_sublist _).subset hm
        rw [List.all_append, List.all_cons] at hpresent
        grind
      obtain ⟨value, _, hasked⟩ :=
        hyields earlier last (some (5, 'e')) later 4 rfl (by decide) hlasts
          (by simp)
      exact ⟨hconfig, tree, _, earlier, last, later, hrun, hplay, rfl, hlasts,
        value, hasked⟩

/-- While the tree changes in any way, a scan yields keys from its first key on,
in ascending order and thus each at most once.  Once it has none left, it has
none for good. -/
theorem yields_ascending_keys {config : Config}
    (hconfig : config.validate = .ok ())
    (history : List (Change V)) (lower : Key) (steps : List (ScanStep V)) :
    ∃ tree moments,
      (Tree.empty config).changeAll history = .ok tree ∧
        (start lower).play tree steps = .ok moments ∧
        (∀ e ∈ Moment.yielded moments, lower ≤ e.1) ∧
        Ascending (Moment.yielded moments) ∧
        ∀ earlier later, Moment.answers moments = earlier ++ none :: later →
          ∀ answer ∈ later, answer = none := by
  obtain ⟨tree, t, moments, hrun, hsound, hplay, hplays⟩ :=
    exists_play_of_history hconfig history lower steps
  refine ⟨tree, moments, hrun, hplay, fun e he => ?_, hplays.ascending,
    fun earlier later => hplays.answers_after_none⟩
  -- A smaller key would have been passed before the first question.
  refine UInt64.not_lt.mp fun hlt => ?_
  exact absurd (hplays.passed (passed_start hlt) he) (UInt64.lt_irrefl _)

/-- The last insertion comes too late for the scan. -/
theorem yields_ascending_keys_to_end :
    ({ degree := 3 } : Config).validate = .ok () ∧
      ∃ tree moments,
        (Tree.empty { degree := 3 }).changeAll
            [.insert 1 'a', .insert 2 'b', .insert 3 'c', .insert 4 'd'] =
              .ok tree ∧
          (start 2).play tree [.next, .change (.remove 1),
            .change (.insert 5 'e'), .next, .next, .next, .next,
            .change (.insert 9 'f'), .next] = .ok moments ∧
          Moment.answers moments =
            [some (2, 'b'), some (3, 'c'), some (4, 'd'), some (5, 'e'), none,
              none] ∧
          (∀ e ∈ Moment.yielded moments, 2 ≤ e.1) ∧
          Ascending (Moment.yielded moments) := by
  have hconfig : ({ degree := 3 } : Config).validate = .ok () := rfl
  obtain ⟨tree, moments, hrun, hplay, habove, hascending, _⟩ :=
    yields_ascending_keys hconfig
    [.insert 1 'a', .insert 2 'b', .insert 3 'c', .insert 4 'd'] 2
    [.next, .change (.remove 1), .change (.insert 5 'e'), .next, .next, .next,
      .next, .change (.insert 9 'f'), .next]
  have hseen : ((Tree.empty { degree := 3 }).changeAll
      [.insert 1 'a', .insert 2 'b', .insert 3 'c', .insert 4 'd']).bind
        (fun tree => ((start 2).play tree [.next, .change (.remove 1),
          .change (.insert 5 'e'), .next, .next, .next, .next,
          .change (.insert 9 'f'), .next]).map Moment.answers) =
      .ok [some (2, 'b'), some (3, 'c'), some (4, 'd'), some (5, 'e'), none,
        none] := by
    decide +kernel
  rw [hrun, Except.bind, hplay, Except.map, Except.ok.injEq] at hseen
  exact ⟨hconfig, tree, moments, hrun, hplay, hseen, habove, hascending⟩

end Scan

end LatchTree

import LatchTree.Proofs.Page.LeafChain

/-!
# Linking in and out as steps on a list

Pages are linked into a chain behind other pages and are linked out again.  On
the list that the links spell out, the one step puts in a page and the other
takes out a page.  Wherever in the list that happens, the links spell out the
new list afterwards, so they do after any number of steps.
-/

namespace LatchTree

inductive LinkStep where
  | linkAfter (left right : PageId)
  | unlink (id : PageId)
  deriving DecidableEq

namespace LinkStep

variable {V : Type} {table : PageTable V} {ids : List PageId}
  {step : LinkStep}

def onTable (table : PageTable V) : LinkStep → PageTable V
  | .linkAfter left right => table.linkAfter left right
  | .unlink id => table.unlink id

/-- Puts a page directly behind another one. -/
def putBehind (left right : PageId) : List PageId → List PageId
  | [] => []
  | id :: rest =>
      if id = left then id :: right :: rest else id :: putBehind left right rest

def onList (ids : List PageId) : LinkStep → List PageId
  | .linkAfter left right => putBehind left right ids
  | .unlink id => ids.erase id

/-- Pages of the list are linked out, and other pages of the table are linked
in. -/
def Suits (size : Nat) (ids : List PageId) : LinkStep → Prop
  | .linkAfter left right => left ∈ ids ∧ right ∉ ids ∧ right < size
  | .unlink id => id ∈ ids

/-- Each step suits the list to which the steps before it lead. -/
def SuitAll (size : Nat) : List PageId → List LinkStep → Prop
  | _, [] => True
  | ids, step :: rest =>
      step.Suits size ids ∧ SuitAll size (step.onList ids) rest

/-- The page that is linked in or out and its neighbours. -/
def touched (table : PageTable V) : LinkStep → List PageId
  | .linkAfter left right => left :: right :: (table.next? left).toList
  | .unlink id => id :: ((table.prev? id).toList ++ (table.next? id).toList)

/-- The links spell out the list to which the step leads.  No other page is
linked in another way, and a page that is linked out has no links. -/
structure Leads (step : LinkStep) (table : PageTable V) (ids : List PageId) :
    Prop where
  spells : (step.onTable table).Spells (step.onList ids)
  others : ∀ other ∉ step.touched table,
    (step.onTable table).prev? other = table.prev? other ∧
      (step.onTable table).next? other = table.next? other
  unlinked : ∀ id, step = .unlink id →
    (step.onTable table).prev? id = none ∧
      (step.onTable table).next? id = none

@[simp] theorem size_onTable (table : PageTable V) (step : LinkStep) :
    (step.onTable table).size = table.size := by
  cases step <;> simp [onTable]

theorem not_mem_of_nodup_split {id : PageId} {before after : List PageId}
    (hnodup : (before ++ id :: after).Nodup) : id ∉ before := by
  intro hmem
  exact (List.nodup_append.mp hnodup).2.2 id hmem id List.mem_cons_self rfl

theorem putBehind_split {left right : PageId} {before after : List PageId}
    (hleft : left ∉ before) :
    putBehind left right (before ++ left :: after) =
      before ++ left :: right :: after := by
  induction before with
  | nil => simp [putBehind]
  | cons id rest ih =>
      simp only [List.mem_cons, not_or] at hleft
      simp [putBehind, Ne.symm hleft.1, ih hleft.2]

theorem leads_linkAfter {left right : PageId} (hspells : table.Spells ids)
    (hleft : left ∈ ids) (hfresh : right ∉ ids) (hright : right < table.size) :
    (linkAfter left right).Leads table ids := by
  obtain ⟨before, after, rfl⟩ := List.append_of_mem hleft
  have hbefore := not_mem_of_nodup_split hspells.nodup
  constructor
  · rw [onList, putBehind_split hbefore]
    exact hspells.linkAfter hright hfresh
  · intro other hother
    simp only [touched, List.mem_cons, Option.mem_toList, not_or] at hother
    exact hspells.links_linkAfter hright hother.1 hother.2.1 hother.2.2
  · simp

theorem leads_unlink {id : PageId} (hspells : table.Spells ids)
    (hid : id ∈ ids) : (unlink id).Leads table ids := by
  obtain ⟨before, after, rfl⟩ := List.append_of_mem hid
  have hbefore := not_mem_of_nodup_split hspells.nodup
  constructor
  · rw [onList, List.erase_append_right _ hbefore, List.erase_cons_head]
    exact hspells.unlink
  · intro other hother
    simp only [touched, List.mem_cons, List.mem_append, Option.mem_toList,
      not_or] at hother
    exact hspells.links_unlink hother.1 hother.2.1 hother.2.2
  · rintro _ ⟨⟩
    exact hspells.unlinked

theorem leads (hspells : table.Spells ids)
    (hsuits : step.Suits table.size ids) : step.Leads table ids := by
  cases step with
  | linkAfter left right =>
      exact leads_linkAfter hspells hsuits.1 hsuits.2.1 hsuits.2.2
  | unlink id => exact leads_unlink hspells hsuits

theorem spells_foldl (hspells : table.Spells ids) {steps : List LinkStep}
    (hsuits : SuitAll table.size ids steps) :
    (steps.foldl onTable table).Spells (steps.foldl onList ids) := by
  induction steps generalizing table ids with
  | nil => exact hspells
  | cons step rest ih =>
      obtain ⟨hstep, hrest⟩ := hsuits
      apply ih (leads hspells hstep).spells
      rw [size_onTable]
      exact hrest

/-- Every step that suits the list makes the links spell out the list that the
step leads to, and so does every sequence of such steps. -/
theorem chain_follows_list (hspells : table.Spells ids) :
    (∀ step : LinkStep, step.Suits table.size ids → step.Leads table ids) ∧
      ∀ steps : List LinkStep, SuitAll table.size ids steps →
        (steps.foldl onTable table).Spells (steps.foldl onList ids) :=
  ⟨fun _ hsuits => leads hspells hsuits,
    fun _ hsuits => spells_foldl hspells hsuits⟩

/-- Two pages are linked in behind the first one.  Then the page in the middle
and the first one are linked out. -/
theorem chain_follows_list_to_single_page :
    ∃ table : PageTable Char,
      table = ((PageTable.alloc {} (.leaf {})).alloc (.leaf {})).alloc
        (.leaf {}) ∧
      table.Spells [0] ∧ (linkAfter 0 2).Suits table.size [0] ∧
      (linkAfter 0 2).Leads table [0] ∧
      SuitAll table.size [0]
        [.linkAfter 0 2, .linkAfter 0 1, .unlink 1, .unlink 0] ∧
      ([.linkAfter 0 2, .linkAfter 0 1, .unlink 1, .unlink 0] :
        List LinkStep).foldl onList [0] = [2] ∧
      (([.linkAfter 0 2, .linkAfter 0 1, .unlink 1, .unlink 0] :
        List LinkStep).foldl onTable table).Spells [2] := by
  have hspells : (((PageTable.alloc {} (.leaf {})).alloc (.leaf {})).alloc
      (.leaf {}) : PageTable Char).Spells [0] :=
    ⟨by decide, by decide, rfl, rfl, trivial⟩
  obtain ⟨hstep, hsteps⟩ := chain_follows_list hspells
  have hsuits : SuitAll 3 [0]
      [.linkAfter 0 2, .linkAfter 0 1, .unlink 1, .unlink 0] := by
    simp [SuitAll, Suits, onList, putBehind]
  exact ⟨_, rfl, hspells, hsuits.1, hstep _ hsuits.1, hsuits, rfl,
    hsteps _ hsuits⟩

end LinkStep

end LatchTree

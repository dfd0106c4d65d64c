import LatchTree.Proofs.Page.Table
import LatchTree.Page.LeafChain

/-!
# The leaf chain as a list

The links of some pages spell out a list if they can be read as that list in
both directions.  Linking a page in puts it behind another one in the list, and
linking a page out removes it; the links of all other pages stay as they are.
The leaves of a tree are such a list, and no page outside it has links.
-/

namespace LatchTree.PageTable

variable {V : Type} {table : PageTable V}

/-! ## Single links -/

theorem next?_modify (table : PageTable V) (id : PageId) (f : Page V → Page V)
    (other : PageId) :
    (table.modify id f).next? other =
      if id = other then (table.page? other).bind fun page => (f page).next
      else table.next? other := by
  unfold next?
  rw [page?_modify]
  by_cases hid : id = other
  · rw [if_pos hid, if_pos hid, Option.bind_map, Function.comp_def]
  · rw [if_neg hid, if_neg hid]

theorem prev?_modify (table : PageTable V) (id : PageId) (f : Page V → Page V)
    (other : PageId) :
    (table.modify id f).prev? other =
      if id = other then (table.page? other).bind fun page => (f page).prev
      else table.prev? other := by
  unfold prev?
  rw [page?_modify]
  by_cases hid : id = other
  · rw [if_pos hid, if_pos hid, Option.bind_map, Function.comp_def]
  · rw [if_neg hid, if_neg hid]

theorem exists_page?_of_lt {id : PageId} (hid : id < table.size) :
    ∃ page, table.page? id = some page :=
  ⟨_, Array.getElem?_eq_getElem hid⟩

theorem next?_setNext {id : PageId} (hid : id < table.size)
    (next : Option PageId) (other : PageId) :
    (table.setNext id next).next? other =
      if id = other then next else table.next? other := by
  unfold setNext
  rw [next?_modify]
  by_cases hsame : id = other
  · obtain ⟨page, hpage⟩ := exists_page?_of_lt hid
    subst hsame
    simp [hpage]
  · rw [if_neg hsame, if_neg hsame]

theorem prev?_setPrev {id : PageId} (hid : id < table.size)
    (prev : Option PageId) (other : PageId) :
    (table.setPrev id prev).prev? other =
      if id = other then prev else table.prev? other := by
  unfold setPrev
  rw [prev?_modify]
  by_cases hsame : id = other
  · obtain ⟨page, hpage⟩ := exists_page?_of_lt hid
    subst hsame
    simp [hpage]
  · rw [if_neg hsame, if_neg hsame]

theorem next?_modify_of_next_eq (table : PageTable V) (id : PageId)
    (f : Page V → Page V)
    (hnext : ∀ page, (f page).next = page.next) (other : PageId) :
    (table.modify id f).next? other = table.next? other := by
  rw [next?_modify]
  by_cases hid : id = other
  · rw [if_pos hid]
    simp only [hnext]
    rfl
  · rw [if_neg hid]

theorem prev?_modify_of_prev_eq (table : PageTable V) (id : PageId)
    (f : Page V → Page V)
    (hprev : ∀ page, (f page).prev = page.prev) (other : PageId) :
    (table.modify id f).prev? other = table.prev? other := by
  rw [prev?_modify]
  by_cases hid : id = other
  · rw [if_pos hid]
    simp only [hprev]
    rfl
  · rw [if_neg hid]

@[simp] theorem next?_setPrev (table : PageTable V) (id : PageId)
    (prev : Option PageId) (other : PageId) :
    (table.setPrev id prev).next? other = table.next? other := by
  apply next?_modify_of_next_eq
  exact fun _ => rfl

@[simp] theorem prev?_setNext (table : PageTable V) (id : PageId)
    (next : Option PageId) (other : PageId) :
    (table.setNext id next).prev? other = table.prev? other := by
  apply prev?_modify_of_prev_eq
  exact fun _ => rfl

@[simp] theorem next?_setNode (table : PageTable V) (id : PageId)
    (node : Node V) (other : PageId) :
    (table.setNode id node).next? other = table.next? other := by
  apply next?_modify_of_next_eq
  exact fun _ => rfl

@[simp] theorem prev?_setNode (table : PageTable V) (id : PageId)
    (node : Node V) (other : PageId) :
    (table.setNode id node).prev? other = table.prev? other := by
  apply prev?_modify_of_prev_eq
  exact fun _ => rfl

@[simp] theorem next?_markRetired (table : PageTable V) (id other : PageId) :
    (table.markRetired id).next? other = table.next? other := by
  apply next?_modify_of_next_eq
  exact fun _ => rfl

@[simp] theorem prev?_markRetired (table : PageTable V) (id other : PageId) :
    (table.markRetired id).prev? other = table.prev? other := by
  apply prev?_modify_of_prev_eq
  exact fun _ => rfl

@[simp] theorem next?_alloc (table : PageTable V) (node : Node V)
    (other : PageId) :
    (table.alloc node).next? other = table.next? other := by
  unfold next?
  rw [page?_alloc]
  by_cases hid : other = table.size
  · rw [if_pos hid, hid, page?_size]
    rfl
  · rw [if_neg hid]

@[simp] theorem prev?_alloc (table : PageTable V) (node : Node V)
    (other : PageId) :
    (table.alloc node).prev? other = table.prev? other := by
  unfold prev?
  rw [page?_alloc]
  by_cases hid : other = table.size
  · rw [if_pos hid, hid, page?_size]
    rfl
  · rw [if_neg hid]

@[simp] theorem size_setPrev (table : PageTable V) (id : PageId)
    (prev : Option PageId) :
    (table.setPrev id prev).size = table.size :=
  table.size_modify id _

@[simp] theorem size_setNext (table : PageTable V) (id : PageId)
    (next : Option PageId) :
    (table.setNext id next).size = table.size :=
  table.size_modify id _

/-! ## Runs of linked pages -/

/-- Consecutive pages are linked in both directions.  The run stands behind the
page `before` and in front of the page `after`. -/
def Linked (table : PageTable V) (before : Option PageId) :
    List PageId → Option PageId → Prop
  | [], _ => True
  | id :: rest, after =>
      table.prev? id = before ∧ table.next? id = rest.head?.or after ∧
        table.Linked (some id) rest after

theorem linked_append {before after : Option PageId}
    {first second : List PageId} :
    table.Linked before (first ++ second) after ↔
      table.Linked before first (second.head?.or after) ∧
        table.Linked (first.getLast?.or before) second after := by
  induction first generalizing before with
  | nil => simp [Linked]
  | cons id rest ih =>
      have hhead : (rest ++ second).head?.or after =
          rest.head?.or (second.head?.or after) := by
        rw [List.head?_append, Option.or_assoc]
      have hlast : (id :: rest).getLast?.or before =
          rest.getLast?.or (some id) := by
        cases rest with
        | nil => rfl
        | cons next more => simp [List.getLast?_cons]
      rw [List.cons_append, Linked, Linked, ih, hhead, hlast]
      simp only [and_assoc]

theorem Linked.congr {other : PageTable V} {before after : Option PageId}
    {ids : List PageId} (hlinked : table.Linked before ids after)
    (hprev : ∀ id ∈ ids, other.prev? id = table.prev? id)
    (hnext : ∀ id ∈ ids, other.next? id = table.next? id) :
    other.Linked before ids after := by
  induction ids generalizing before with
  | nil => trivial
  | cons id rest ih =>
      obtain ⟨hbefore, hafter, hrest⟩ := hlinked
      refine ⟨(hprev id List.mem_cons_self).trans hbefore,
        (hnext id List.mem_cons_self).trans hafter, ih hrest ?_ ?_⟩
      · exact fun next hmem => hprev next (List.mem_cons_of_mem _ hmem)
      · exact fun next hmem => hnext next (List.mem_cons_of_mem _ hmem)

theorem Linked.relink_first {other : PageTable V}
    {before after beforeNew : Option PageId} {ids : List PageId}
    (hlinked : table.Linked before ids after) (hnodup : ids.Nodup)
    (hprev : ∀ id ∈ ids, other.prev? id =
      if ids.head? = some id then beforeNew else table.prev? id)
    (hnext : ∀ id ∈ ids, other.next? id = table.next? id) :
    other.Linked beforeNew ids after := by
  cases ids with
  | nil => trivial
  | cons first rest =>
      obtain ⟨_, hafter, hrest⟩ := hlinked
      refine ⟨?_, (hnext first List.mem_cons_self).trans hafter,
        hrest.congr ?_ ?_⟩
      · rw [hprev first List.mem_cons_self, List.head?_cons, if_pos rfl]
      · intro id hmem
        rw [hprev id (List.mem_cons_of_mem _ hmem), if_neg]
        rw [List.head?_cons, Option.some.injEq]
        exact fun heq => (List.nodup_cons.mp hnodup).1 (heq ▸ hmem)
      · exact fun id hmem => hnext id (List.mem_cons_of_mem _ hmem)

theorem Linked.relink_last {other : PageTable V}
    {before after afterNew : Option PageId} {ids : List PageId}
    (hlinked : table.Linked before ids after) (hnodup : ids.Nodup)
    (hprev : ∀ id ∈ ids, other.prev? id = table.prev? id)
    (hnext : ∀ id ∈ ids, other.next? id =
      if ids.getLast? = some id then afterNew else table.next? id) :
    other.Linked before ids afterNew := by
  rcases List.eq_nil_or_concat ids with rfl | ⟨init, last, rfl⟩
  · trivial
  · rw [List.concat_eq_append] at *
    obtain ⟨hinit, hbefore, _, _⟩ := linked_append.mp hlinked
    have hapart := (List.nodup_append.mp hnodup).2.2
    have hlast : (init ++ [last]).getLast? = some last := List.getLast?_concat
    refine linked_append.mpr ⟨hinit.congr ?_ ?_, ?_, ?_, trivial⟩
    · exact fun id hmem => hprev id (List.mem_append_left _ hmem)
    · intro id hmem
      rw [hnext id (List.mem_append_left _ hmem), if_neg]
      rw [hlast, Option.some.injEq]
      exact fun heq => hapart id hmem last List.mem_cons_self heq.symm
    · exact (hprev last (by simp)).trans hbefore
    · rw [hnext last (by simp), if_pos hlast]
      rfl

section Links

variable {left right : List PageId} {id : PageId}

theorem Linked.prev?_eq
    (hlinked : table.Linked none (left ++ id :: right) none) :
    table.prev? id = left.getLast? := by
  rw [(linked_append.mp hlinked).2.1, Option.or_none]

theorem Linked.next?_eq
    (hlinked : table.Linked none (left ++ id :: right) none) :
    table.next? id = right.head? := by
  rw [(linked_append.mp hlinked).2.2.1, Option.or_none]

theorem Linked.front (hlinked : table.Linked none (left ++ id :: right) none) :
    table.Linked none left (some id) := by
  have hleft := (linked_append.mp hlinked).1
  rwa [List.head?_cons, Option.some_or] at hleft

theorem Linked.rest (hlinked : table.Linked none (left ++ id :: right) none) :
    table.Linked (some id) right none :=
  (linked_append.mp hlinked).2.2.2

end Links

/-- The links of the pages spell out the list, without a page in front of it or
behind it. -/
structure Spells (table : PageTable V) (ids : List PageId) : Prop where
  nodup : ids.Nodup
  inTable : ∀ id ∈ ids, id < table.size
  linked : table.Linked none ids none

/-! ## The whole chain -/

/-- The links spell out the list, without a page in front of it or behind it.
No other page has links. -/
structure Chains (table : PageTable V) (ids : List PageId) : Prop where
  nodup : ids.Nodup
  linked : table.Linked none ids none
  apart : ∀ id ∉ ids, table.prev? id = none ∧ table.next? id = none

namespace Chains

theorem of_links {other : PageTable V} {ids : List PageId}
    (hchain : table.Chains ids) (hprev : ∀ id, other.prev? id = table.prev? id)
    (hnext : ∀ id, other.next? id = table.next? id) : other.Chains ids where
  nodup := hchain.nodup
  linked := hchain.linked.congr (fun id _ => hprev id) (fun id _ => hnext id)
  apart := fun id hid => by
    rw [hprev, hnext]
    exact hchain.apart id hid

variable {left right : List PageId} {id : PageId}

theorem prev?_eq (hchain : table.Chains (left ++ id :: right)) :
    table.prev? id = left.getLast? :=
  hchain.linked.prev?_eq

theorem next?_eq (hchain : table.Chains (left ++ id :: right)) :
    table.next? id = right.head? :=
  hchain.linked.next?_eq

/-- The links are those that the list spells out. -/
theorem links_eq {other : PageTable V} {ids : List PageId}
    (hchain : table.Chains ids) (hother : other.Chains ids) (id : PageId) :
    other.prev? id = table.prev? id ∧ other.next? id = table.next? id := by
  by_cases hmem : id ∈ ids
  · obtain ⟨left, right, rfl⟩ := List.append_of_mem hmem
    rw [hchain.prev?_eq, hchain.next?_eq, hother.prev?_eq, hother.next?_eq]
    exact ⟨rfl, rfl⟩
  · obtain ⟨hprev, hnext⟩ := hchain.apart id hmem
    obtain ⟨hprevOther, hnextOther⟩ := hother.apart id hmem
    rw [hprev, hnext]
    exact ⟨hprevOther, hnextOther⟩

/-- If a page goes from the chain, only its neighbours have other links. -/
theorem links_eq_of_erase {other : PageTable V} {gone : PageId}
    (hchain : table.Chains (left ++ gone :: right))
    (hother : other.Chains (left ++ right)) (hgone : id ≠ gone)
    (hprev : table.prev? gone ≠ some id) (hnext : table.next? gone ≠ some id) :
    other.prev? id = table.prev? id ∧ other.next? id = table.next? id := by
  rw [hchain.prev?_eq] at hprev
  rw [hchain.next?_eq] at hnext
  by_cases hmem : id ∈ left ++ right
  · rcases List.mem_append.mp hmem with hleft | hright
    · obtain ⟨before, between, rfl⟩ := List.append_of_mem hleft
      cases between with
      | nil => simp at hprev
      | cons first rest =>
          rw [List.append_assoc, List.cons_append] at hchain hother
          rw [hchain.prev?_eq, hchain.next?_eq, hother.prev?_eq,
            hother.next?_eq]
          exact ⟨rfl, rfl⟩
    · obtain ⟨between, after, rfl⟩ := List.append_of_mem hright
      rcases List.eq_nil_or_concat between with rfl | ⟨init, last, rfl⟩
      · simp at hnext
      · rw [← List.cons_append, ← List.append_assoc] at hchain
        rw [← List.append_assoc] at hother
        have hlast : (left ++ init.concat last).getLast? =
            (left ++ gone :: init.concat last).getLast? := by
          rw [List.concat_eq_append, ← List.cons_append, ← List.append_assoc,
            ← List.append_assoc, List.getLast?_concat, List.getLast?_concat]
        rw [hchain.prev?_eq, hchain.next?_eq, hother.prev?_eq, hother.next?_eq]
        exact ⟨hlast, rfl⟩
  · have hapart : id ∉ left ++ gone :: right := by
      simp only [List.mem_append, List.mem_cons, not_or] at hmem ⊢
      exact ⟨hmem.1, hgone, hmem.2⟩
    obtain ⟨hprevNone, hnextNone⟩ := hchain.apart id hapart
    obtain ⟨hprevOther, hnextOther⟩ := hother.apart id hmem
    rw [hprevNone, hnextNone]
    exact ⟨hprevOther, hnextOther⟩

end Chains

/-! ## Linking in -/

theorem linkAfter_eq (table : PageTable V) (left right : PageId) :
    table.linkAfter left right =
      (match table.next? left with
        | some next =>
            ((table.setPrev right (some left)).setNext right
              (table.next? left)).setPrev next (some right)
        | none =>
            (table.setPrev right (some left)).setNext right
              (table.next? left)).setNext
        left (some right) :=
  rfl

theorem next?_linkAfter {left right : PageId} (hleft : left < table.size)
    (hright : right < table.size) (other : PageId) :
    (table.linkAfter left right).next? other =
      if left = other then some right
      else if right = other then table.next? left
      else table.next? other := by
  rw [linkAfter_eq]
  cases hnext : table.next? left with
  | none => simp [next?_setNext, hleft, hright]
  | some next => simp [next?_setNext, hleft, hright]

theorem prev?_linkAfter {left right : PageId} (hright : right < table.size)
    (hnext : ∀ next ∈ table.next? left, next < table.size) (other : PageId) :
    (table.linkAfter left right).prev? other =
      if table.next? left = some other then some right
      else if right = other then some left
      else table.prev? other := by
  rw [linkAfter_eq]
  cases hlink : table.next? left with
  | none => simp [prev?_setPrev, hright]
  | some next => simp [prev?_setPrev, hright, hnext next hlink]

@[simp] theorem size_linkAfter (table : PageTable V) (left right : PageId) :
    (table.linkAfter left right).size = table.size := by
  rw [linkAfter_eq]
  cases table.next? left <;> simp

@[simp] theorem liveNode?_linkAfter (table : PageTable V)
    (left right other : PageId) :
    (table.linkAfter left right).liveNode? other = table.liveNode? other := by
  rw [linkAfter_eq]
  cases table.next? left <;> simp

theorem Spells.next_inTable {left right : List PageId} {id : PageId}
    (hspells : table.Spells (left ++ id :: right)) :
    ∀ next ∈ table.next? id, next < table.size := by
  rw [hspells.linked.next?_eq]
  intro next hmem
  exact hspells.inTable next (by simp [List.mem_of_mem_head? hmem])

theorem Spells.prev_inTable {left right : List PageId} {id : PageId}
    (hspells : table.Spells (left ++ id :: right)) :
    ∀ prev ∈ table.prev? id, prev < table.size := by
  rw [hspells.linked.prev?_eq]
  intro prev hmem
  exact hspells.inTable prev (by simp [List.mem_of_getLast? hmem])

/-- Only the neighbours of a page that is linked in have other links. -/
theorem Spells.links_linkAfter {left right : List PageId}
    {id new other : PageId}
    (hspells : table.Spells (left ++ id :: right)) (hnew : new < table.size)
    (hotherId : other ≠ id) (hotherNew : other ≠ new)
    (hnext : table.next? id ≠ some other) :
    (table.linkAfter id new).prev? other = table.prev? other ∧
      (table.linkAfter id new).next? other = table.next? other := by
  rw [prev?_linkAfter hnew hspells.next_inTable,
    next?_linkAfter (hspells.inTable id (by simp)) hnew, if_neg hnext,
    if_neg hotherNew.symm, if_neg hotherId.symm, if_neg hotherNew.symm]
  exact ⟨rfl, rfl⟩

theorem Spells.linkAfter {left right : List PageId} {id new : PageId}
    (hspells : table.Spells (left ++ id :: right)) (hnew : new < table.size)
    (hfresh : new ∉ left ++ id :: right) :
    (table.linkAfter id new).Spells (left ++ id :: new :: right) := by
  have hid : id < table.size := hspells.inTable id (by simp)
  have hnext : table.next? id = right.head? := hspells.linked.next?_eq
  have hnextSize := hspells.next_inTable
  have hnodup := hspells.nodup
  rw [List.nodup_append] at hnodup
  obtain ⟨_, hcons, hapart⟩ := hnodup
  obtain ⟨hidRight, hright⟩ := List.nodup_cons.mp hcons
  have hnewLeft : new ∉ left := fun hmem => hfresh (by simp [hmem])
  have hnewId : new ≠ id := fun heq => hfresh (by simp [heq])
  have hnewRight : new ∉ right := fun hmem => hfresh (by simp [hmem])
  have hperm : (left ++ id :: new :: right).Perm
      (new :: (left ++ id :: right)) := by
    rw [← List.singleton_append, ← List.append_assoc]
    exact (List.perm_middle).trans (by simp)
  -- the neighbour behind `id` is none of the pages in front of it
  have hprevKept : ∀ other, other ∉ right → other ≠ new →
      (table.linkAfter id new).prev? other = table.prev? other := by
    intro other hother hne
    rw [prev?_linkAfter hnew hnextSize, if_neg, if_neg hne.symm]
    rw [hnext]
    exact fun hhead => hother (List.mem_of_mem_head? hhead)
  have hnextKept : ∀ other, other ≠ id → other ≠ new →
      (table.linkAfter id new).next? other = table.next? other := by
    intro other hne hneNew
    rw [next?_linkAfter hid hnew, if_neg hne.symm, if_neg hneNew.symm]
  constructor
  · exact hperm.nodup_iff.mpr (List.nodup_cons.mpr ⟨hfresh, hspells.nodup⟩)
  · intro other hmem
    rw [size_linkAfter]
    rcases List.mem_cons.mp (hperm.mem_iff.mp hmem) with rfl | hmem
    · exact hnew
    · exact hspells.inTable other hmem
  · refine linked_append.mpr ⟨?_, ?_, ?_, ?_, ?_, ?_⟩
    · apply hspells.linked.front.congr
      · intro other hmem
        refine hprevKept other ?_ (fun heq => hnewLeft (heq ▸ hmem))
        exact fun hother => hapart other hmem other
          (List.mem_cons_of_mem _ hother) rfl
      · intro other hmem
        exact hnextKept other (hapart other hmem id List.mem_cons_self)
          (fun heq => hnewLeft (heq ▸ hmem))
    · rw [hprevKept id hidRight hnewId.symm, hspells.linked.prev?_eq,
        Option.or_none]
    · rw [next?_linkAfter hid hnew, if_pos rfl]
      rfl
    · rw [prev?_linkAfter hnew hnextSize, if_neg, if_pos rfl]
      rw [hnext]
      exact fun hhead => hnewRight (List.mem_of_mem_head? hhead)
    · rw [next?_linkAfter hid hnew, if_neg hnewId.symm, if_pos rfl, hnext,
        Option.or_none]
    · apply hspells.linked.rest.relink_first hright
      · intro other hmem
        rw [prev?_linkAfter hnew hnextSize, hnext,
          if_neg (c := new = other) fun heq => hnewRight (heq ▸ hmem)]
      · intro other hmem
        exact hnextKept other (fun heq => hidRight (heq ▸ hmem))
          (fun heq => hnewRight (heq ▸ hmem))

theorem Chains.linkAfter {left right : List PageId} {id new : PageId}
    (hchain : table.Chains (left ++ id :: right))
    (hsize : ∀ other ∈ left ++ id :: right, other < table.size)
    (hnew : new < table.size) (hfresh : new ∉ left ++ id :: right) :
    (table.linkAfter id new).Chains (left ++ id :: new :: right) := by
  have hspells : table.Spells (left ++ id :: right) :=
    ⟨hchain.nodup, hsize, hchain.linked⟩
  have hlinked := hspells.linkAfter hnew hfresh
  refine ⟨hlinked.nodup, hlinked.linked, ?_⟩
  intro other hother
  simp only [List.mem_append, List.mem_cons, not_or] at hother
  obtain ⟨hotherLeft, hotherId, hotherNew, hotherRight⟩ := hother
  have hnext : table.next? id ≠ some other := by
    rw [hchain.next?_eq]
    exact fun hhead => hotherRight (List.mem_of_mem_head? hhead)
  have hkept := hspells.links_linkAfter hnew hotherId hotherNew hnext
  rw [hkept.1, hkept.2]
  exact hchain.apart other (by simp [hotherLeft, hotherId, hotherRight])

/-! ## Linking out -/

theorem next?_unlink {id : PageId} (hid : id < table.size)
    (hprev : ∀ prev ∈ table.prev? id, prev < table.size) (other : PageId) :
    (table.unlink id).next? other =
      if id = other then none
      else if table.prev? id = some other then table.next? id
      else table.next? other := by
  unfold unlink
  cases hprevLink : table.prev? id with
  | none => cases hnextLink : table.next? id <;> simp [next?_setNext, hid]
  | some prev =>
      have hprevSize := hprev prev hprevLink
      cases hnextLink : table.next? id <;> simp [next?_setNext, hid, hprevSize]

theorem prev?_unlink {id : PageId} (hid : id < table.size)
    (hnext : ∀ next ∈ table.next? id, next < table.size) (other : PageId) :
    (table.unlink id).prev? other =
      if id = other then none
      else if table.next? id = some other then table.prev? id
      else table.prev? other := by
  unfold unlink
  cases hnextLink : table.next? id with
  | none => cases hprevLink : table.prev? id <;> simp [prev?_setPrev, hid]
  | some next =>
      have hnextSize := hnext next hnextLink
      cases hprevLink : table.prev? id <;> simp [prev?_setPrev, hid, hnextSize]

@[simp] theorem liveNode?_unlink (table : PageTable V) (id other : PageId) :
    (table.unlink id).liveNode? other = table.liveNode? other := by
  unfold unlink
  cases table.prev? id <;> cases table.next? id <;> simp

@[simp] theorem size_unlink (table : PageTable V) (id : PageId) :
    (table.unlink id).size = table.size := by
  unfold unlink
  cases table.prev? id <;> cases table.next? id <;> simp

/-- Only the neighbours of a page that is linked out have other links. -/
theorem Spells.links_unlink {left right : List PageId} {id other : PageId}
    (hspells : table.Spells (left ++ id :: right)) (hother : other ≠ id)
    (hprev : table.prev? id ≠ some other)
    (hnext : table.next? id ≠ some other) :
    (table.unlink id).prev? other = table.prev? other ∧
      (table.unlink id).next? other = table.next? other := by
  have hid : id < table.size := hspells.inTable id (by simp)
  rw [prev?_unlink hid hspells.next_inTable,
    next?_unlink hid hspells.prev_inTable, if_neg hother.symm, if_neg hnext,
    if_neg hother.symm, if_neg hprev]
  exact ⟨rfl, rfl⟩

theorem Spells.unlinked {left right : List PageId} {id : PageId}
    (hspells : table.Spells (left ++ id :: right)) :
    (table.unlink id).prev? id = none ∧ (table.unlink id).next? id = none := by
  have hid : id < table.size := hspells.inTable id (by simp)
  rw [prev?_unlink hid hspells.next_inTable,
    next?_unlink hid hspells.prev_inTable, if_pos rfl, if_pos rfl]
  exact ⟨rfl, rfl⟩

theorem Spells.unlink {left right : List PageId} {id : PageId}
    (hspells : table.Spells (left ++ id :: right)) :
    (table.unlink id).Spells (left ++ right) := by
  have hid : id < table.size := hspells.inTable id (by simp)
  have hprev : table.prev? id = left.getLast? := hspells.linked.prev?_eq
  have hnext : table.next? id = right.head? := hspells.linked.next?_eq
  have hprevSize := hspells.prev_inTable
  have hnextSize := hspells.next_inTable
  have hsublist : (left ++ right).Sublist (left ++ id :: right) :=
    (List.Sublist.refl left).append (List.sublist_cons_self id right)
  have hnodup := hspells.nodup
  rw [List.nodup_append] at hnodup
  obtain ⟨hleft, hcons, hapart⟩ := hnodup
  obtain ⟨hidRight, hright⟩ := List.nodup_cons.mp hcons
  have hidLeft : id ∉ left :=
    fun hmem => hapart id hmem id List.mem_cons_self rfl
  have hapartRight : ∀ other ∈ left, other ∉ right := fun other hmem hother =>
    hapart other hmem other (List.mem_cons_of_mem _ hother) rfl
  have hleftNe : ∀ other ∈ left, id ≠ other :=
    fun other hmem heq => hidLeft (heq ▸ hmem)
  have hrightNe : ∀ other ∈ right, id ≠ other :=
    fun other hmem heq => hidRight (heq ▸ hmem)
  constructor
  · exact hspells.nodup.sublist hsublist
  · intro other hmem
    rw [size_unlink]
    exact hspells.inTable other (hsublist.subset hmem)
  · refine linked_append.mpr ⟨?_, ?_⟩
    · apply hspells.linked.front.relink_last hleft
      · intro other hmem
        rw [prev?_unlink hid hnextSize, if_neg (hleftNe other hmem), if_neg]
        rw [hnext]
        exact fun hhead => hapartRight other hmem (List.mem_of_mem_head? hhead)
      · intro other hmem
        rw [next?_unlink hid hprevSize, if_neg (hleftNe other hmem), hprev,
          hnext, Option.or_none]
    · apply hspells.linked.rest.relink_first hright
      · intro other hmem
        rw [prev?_unlink hid hnextSize, if_neg (hrightNe other hmem), hprev,
          hnext, Option.or_none]
      · intro other hmem
        rw [next?_unlink hid hprevSize, if_neg (hrightNe other hmem), if_neg]
        rw [hprev]
        exact fun hlast => hapartRight other (List.mem_of_getLast? hlast) hmem

theorem Chains.unlink {left right : List PageId} {id : PageId}
    (hchain : table.Chains (left ++ id :: right))
    (hsize : ∀ other ∈ left ++ id :: right, other < table.size) :
    (table.unlink id).Chains (left ++ right) := by
  have hspells : table.Spells (left ++ id :: right) :=
    ⟨hchain.nodup, hsize, hchain.linked⟩
  have hunlinked := hspells.unlink
  refine ⟨hunlinked.nodup, hunlinked.linked, ?_⟩
  intro other hother
  rw [List.mem_append, not_or] at hother
  obtain ⟨hotherLeft, hotherRight⟩ := hother
  by_cases hsame : other = id
  · rw [hsame]
    exact hspells.unlinked
  · have hprev : table.prev? id ≠ some other := by
      rw [hchain.prev?_eq]
      exact fun hlast => hotherLeft (List.mem_of_getLast? hlast)
    have hnext : table.next? id ≠ some other := by
      rw [hchain.next?_eq]
      exact fun hhead => hotherRight (List.mem_of_mem_head? hhead)
    have hkept := hspells.links_unlink hsame hprev hnext
    rw [hkept.1, hkept.2]
    exact hchain.apart other (by simp [hotherLeft, hotherRight, hsame])

/-! ## Evolution -/

namespace Evolves

theorem linkAfter {left right : PageId} (hleft : (table.liveNode? left).isSome)
    (hright : (table.liveNode? right).isSome)
    (hnext : ∀ next ∈ table.next? left, (table.liveNode? next).isSome) :
    table.Evolves (table.linkAfter left right) := by
  rw [linkAfter_eq]
  have hlinked := (Evolves.setPrev hright (some left)).trans
    (Evolves.setNext (by simpa using hright) (table.next? left))
  cases hlink : table.next? left with
  | none =>
      rw [hlink] at hlinked
      exact hlinked.trans (Evolves.setNext (by simpa using hleft) _)
  | some next =>
      rw [hlink] at hlinked
      have hlive := hnext next hlink
      exact (hlinked.trans (Evolves.setPrev (by simpa using hlive) _)).trans
        (Evolves.setNext (by simpa using hleft) _)

theorem unlink {id : PageId} (hid : (table.liveNode? id).isSome)
    (hprev : ∀ prev ∈ table.prev? id, (table.liveNode? prev).isSome)
    (hnext : ∀ next ∈ table.next? id, (table.liveNode? next).isSome) :
    table.Evolves (table.unlink id) := by
  have hfront : table.Evolves (match table.prev? id with
      | some prev => table.setNext prev (table.next? id)
      | none => table) := by
    cases hlink : table.prev? id with
    | none => exact Evolves.refl table
    | some prev => exact Evolves.setNext (hprev prev hlink) _
  have hback : table.Evolves (match table.next? id with
      | some next => (match table.prev? id with
        | some prev => table.setNext prev (table.next? id)
        | none => table).setPrev next (table.prev? id)
      | none => match table.prev? id with
        | some prev => table.setNext prev (table.next? id)
        | none => table) := by
    cases hlink : table.next? id with
    | none => simpa [hlink] using hfront
    | some next =>
        rw [hlink] at hfront
        refine hfront.trans (Evolves.setPrev ?_ _)
        cases table.prev? id <;> simpa using hnext next hlink
  refine (hback.trans (Evolves.setPrev ?_ none)).trans (Evolves.setNext ?_ none)
  · cases table.next? id <;> cases table.prev? id <;> simpa using hid
  · cases table.next? id <;> cases table.prev? id <;> simpa using hid

end Evolves

end LatchTree.PageTable

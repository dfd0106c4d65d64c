import LatchTree.Tree.Lookup
import LatchTree.Proofs.Tree.Shows
import LatchTree.Proofs.Tree.Stores

/-!
# Descents in sound trees

In a tree that shows a subtree, a descent for a key reaches the only leaf whose
bounds admit the key.  Which latches it still holds there depends on the pages at
which it lets go of those above: they are the latches of the context of the leaf,
up to the first such page.  A look-up answers what the entries of the whole tree
say.  A tree is sound if it stores a well-formed subtree under its root; such a
tree shows it.
-/

namespace LatchTree

open Subtree

variable {V : Type}

/-! ## Release rules -/

/-- Tells at which pages a descent lets go of the latches above.  The flag marks
the root. -/
abbrev ReleaseRule (V : Type) := Node V → Bool → Bool

namespace ReleaseRule

/-- Lets go wherever the page is safe. -/
def safe (config : Config) (access : Access) : ReleaseRule V :=
  fun node isRoot => node.isSafe config access isRoot

/-- Keeps all latches. -/
def never : ReleaseRule V :=
  fun _ _ => false

/-- Lets go only where the page is safe. -/
def Cautious (rule : ReleaseRule V) (config : Config) (access : Access) :
    Prop :=
  ∀ node isRoot, rule node isRoot = true → node.isSafe config access isRoot

theorem cautious_safe (config : Config) (access : Access) :
    (safe config access : ReleaseRule V).Cautious config access :=
  fun _ _ hsafe => hsafe

theorem cautious_never (config : Config) (access : Access) :
    (never : ReleaseRule V).Cautious config access :=
  fun _ _ hnever => absurd hnever Bool.false_ne_true

end ReleaseRule

namespace Tree

/-- The same descent as `descendFrom`, under any rule. -/
def descendUnder (tree : Tree V) (rule : ReleaseRule V) (key : Key) :
    Nat → PageId → Nat → List Link → Except Fault (List Link)
  | 0, _, _, _ => .error .endless
  | fuel + 1, page, slot, above => do
    let node ← tree.pages.node page
    let links := Link.page page slot ::
      if rule node (above = [.root]) then [] else above
    match node with
    | .leaf _ => return links
    | .branch contents =>
      let next := contents.slotFor key
      tree.descendUnder rule key fuel (← contents.child next) next links

def descendBy (tree : Tree V) (rule : ReleaseRule V) (key : Key)
    (access : Access) : Except Fault LatchPath := do
  let links ← tree.descendUnder rule key tree.pages.size tree.root 0 [.root]
  return ⟨access.mode, links⟩

theorem descendFrom_eq_descendUnder (tree : Tree V) (key : Key)
    (access : Access) (fuel : Nat) (page : PageId) (slot : Nat)
    (above : List Link) :
    tree.descendFrom key access fuel page slot above =
      tree.descendUnder (.safe tree.config access) key fuel page slot above := by
  induction fuel generalizing page slot above with
  | zero => rfl
  | succ fuel ih =>
      rw [descendFrom, descendUnder]
      simp only [ih]
      rfl

theorem descend_eq_descendBy (tree : Tree V) (key : Key) (access : Access) :
    tree.descend key access =
      tree.descendBy (.safe tree.config access) key access := by
  rw [descend, descendBy, descendFrom_eq_descendUnder]

end Tree

/-! ## Held latches -/

namespace Context

/-- The latches held above a page after a descent to it. -/
def held (rule : ReleaseRule V) : Context V → Subtree V → List Link
  | [], t => if rule t.node true then [] else [.root]
  | frame :: rest, t =>
      if rule t.node false then []
      else .page frame.page (slot rest) :: held rule rest (frame.plug t)

/-- The latches held above a page before the page itself is looked at. -/
def offered (rule : ReleaseRule V) : Context V → Subtree V → List Link
  | [], _ => [.root]
  | frame :: rest, t =>
      .page frame.page (slot rest) :: held rule rest (frame.plug t)

theorem held_eq (rule : ReleaseRule V) (context : Context V) (t : Subtree V) :
    context.held rule t =
      if rule t.node context.isEmpty then [] else context.offered rule t := by
  cases context with
  | nil => rfl
  | cons frame rest => rfl

/-- Latches that suffice above a page: they lead up to the root pointer, or they
end where a page is safe. -/
inductive Guards (config : Config) (access : Access) :
    List Link → Context V → Subtree V → Prop
  | safe {context : Context V} {t : Subtree V} :
      t.node.isSafe config access context.isEmpty →
      Guards config access [] context t
  | root {t : Subtree V} : Guards config access [.root] [] t
  | page {above : List Link} {frame : Frame V} {rest : Context V}
      {t : Subtree V} :
      Guards config access above rest (frame.plug t) →
      Guards config access (.page frame.page (slot rest) :: above)
        (frame :: rest) t

theorem guards_held {config : Config} {access : Access} {rule : ReleaseRule V}
    (hrule : rule.Cautious config access) (context : Context V)
    (t : Subtree V) : Guards config access (context.held rule t) context t := by
  induction context generalizing t with
  | nil =>
      rw [held_eq]
      split
      next hrelease => exact .safe (hrule _ _ hrelease)
      next => exact .root
  | cons frame rest ih =>
      rw [held_eq]
      split
      next hrelease => exact .safe (hrule _ _ hrelease)
      next => exact .page (ih (frame.plug t))

end Context

/-! ## Leaves on the way -/

/-- The context of the leaf that covers a key, within a well-formed subtree. -/
structure Leads (config : Config) (height : Nat) (t : Subtree V) (key : Key)
    (context : Context V) (page : PageId) (contents : Leaf V)
    (bounds : Bounds) : Prop where
  plug : t = context.plug (.leaf page contents)
  outer : context.Fits config height 1 bounds
  fits : contents.FitsIn bounds
  sized : (Subtree.leaf page contents).Sized config context.isEmpty
  admits : bounds.Admits key

namespace Leads

variable {config : Config} {height : Nat} {t : Subtree V} {key : Key}
  {context : Context V} {page : PageId} {contents : Leaf V} {bounds : Bounds}

theorem mem_cells
    (hleads : Leads config height t key context page contents bounds) :
    (page, .leaf contents) ∈ t.cells := by
  rw [hleads.plug, (context.cells_plug_perm _).mem_iff]
  exact List.mem_append_left _ (by simp [cells])

theorem mem_entries
    (hleads : Leads config height t key context page contents bounds)
    {e : Key × V} (hkey : bounds.Admits e.1) :
    e ∈ t.entries ↔ e ∈ contents.entries := by
  rw [hleads.plug, hleads.outer.mem_entries_plug hkey, entries_leaf]

theorem get?_eq
    (hleads : Leads config height t key context page contents bounds)
    (hfits : t.Fits config height .all) :
    contents.get? key = t.entries.lookup key := by
  apply Option.ext
  intro value
  rw [hleads.fits.get?_eq_some_iff, ← hleads.mem_entries hleads.admits,
    hfits.ascending.lookup_eq_some_iff]

/-! The leaf that covers a key, after an entry was put in or taken out. -/

theorem insert_fits
    (hleads : Leads config height t key context page contents bounds)
    (habsent : contents.get? key = none) (value : V) :
    (Subtree.leaf page (contents.insert key value)).Fits config 1 bounds := by
  refine .leaf (hleads.fits.insert hleads.admits ?_ value)
  intro value hmem
  rw [hleads.fits.get?_eq_some_iff.mpr hmem] at habsent
  cases habsent

theorem insert_swollen
    (hleads : Leads config height t key context page contents bounds)
    (value : V) :
    (Subtree.leaf page (contents.insert key value)).Swollen config
      context.isEmpty := by
  obtain ⟨hleast, hmost⟩ := hleads.sized
  have hsize : (Subtree.leaf page (contents.insert key value)).size =
      (Subtree.leaf page contents).size + 1 :=
    Leaf.length_insert contents key value
  unfold Swollen
  rw [hsize]
  exact ⟨Nat.le_succ_of_le hleast, Nat.succ_le_succ hmost⟩

theorem erase_fits
    (hleads : Leads config height t key context page contents bounds) :
    (Subtree.leaf page (contents.erase key)).Fits config 1 bounds :=
  .leaf (hleads.fits.erase key)

theorem erase_shrunk
    (hleads : Leads config height t key context page contents bounds)
    {value : V} (hpresent : contents.get? key = some value) :
    (Subtree.leaf page (contents.erase key)).Shrunk config
      context.isEmpty := by
  obtain ⟨hleast, hmost⟩ := hleads.sized
  have hsize : (Subtree.leaf page (contents.erase key)).size =
      (Subtree.leaf page contents).size - 1 :=
    Leaf.length_erase (hleads.fits.get?_eq_some_iff.mp hpresent)
  unfold Shrunk
  rw [hsize]
  exact ⟨Nat.le_trans hleast (Nat.le_add_of_sub_le (Nat.le_refl _)),
    Nat.le_trans (Nat.sub_le _ _) hmost⟩

end Leads

namespace Tree

/-- The latches kept at a page, as a descent under a rule computes them. -/
theorem kept_eq_held (rule : ReleaseRule V) (context : Context V)
    (t : Subtree V) :
    (if rule t.node (context.offered rule t = [.root]) then []
      else context.offered rule t) = context.held rule t := by
  rw [Context.held_eq]
  cases context with
  | nil => rfl
  | cons frame rest =>
      have hroot : ¬ (Context.offered rule (frame :: rest) t = [.root]) := by
        rw [Context.offered]
        intro heq
        cases heq
      simp only [hroot, decide_false]
      rfl

/-- From any page of a subtree, a descent follows the branches down to a leaf.
-/
theorem exists_descendUnder {tree : Tree V} {height level : Nat}
    {context : Context V} {t : Subtree V} {bounds : Bounds} {key : Key}
    (hcarries : tree.pages.Carries (context.plug t).cells)
    (hcontext : context.Fits tree.config height level bounds)
    (hfits : t.Fits tree.config level bounds)
    (hsized : t.Sized tree.config context.isEmpty) (hkey : bounds.Admits key) :
    ∃ inner page contents innerBounds,
      Leads tree.config height (context.plug t) key inner page contents
          innerBounds ∧
        ∀ rule fuel, level ≤ fuel →
          tree.descendUnder rule key fuel t.page context.slot
              (context.offered rule t) =
            .ok (.page page inner.slot ::
              inner.held rule (.leaf page contents)) := by
  induction level generalizing context t bounds with
  | zero => exact absurd hfits.height_pos (Nat.lt_irrefl 0)
  | succ level ih =>
      have hnode : tree.pages.node t.page = .ok t.node := by
        apply hcarries.node
        rw [(context.cells_plug_perm t).mem_iff, cells_eq]
        exact List.mem_append_left _ List.mem_cons_self
      cases t with
      | leaf page contents =>
          cases hfits with
          | leaf hleaf =>
              refine ⟨context, page, contents, bounds,
                ⟨rfl, hcontext, hleaf, hsized, hkey⟩, ?_⟩
              intro rule fuel hfuel
              obtain ⟨fuel, rfl⟩ :=
                Nat.exists_eq_succ_of_ne_zero (Nat.ne_of_gt hfuel)
              rw [descendUnder, hnode, ← kept_eq_held]
              rfl
      | branch page children =>
          obtain ⟨frame, child, hplug, hslot, hgap⟩ :=
            Frame.exists_plug_of_admits hfits hkey
          obtain ⟨rfl, rfl⟩ := Subtree.branch.inj hplug
          obtain ⟨haround, hchildSized, hchildFits⟩ := Frame.fits_of_plug hfits
          have hinner : Context.Fits tree.config height (frame :: context) level
              (frame.gap bounds) :=
            .inner hcontext haround (frame.plug_size child ▸ hsized.1)
              (frame.plug_size child ▸ hsized.2)
          have hplugged :
              tree.pages.Carries (Context.plug (frame :: context) child).cells :=
            hcarries
          obtain ⟨inner, leafPage, contents, innerBounds, hleads, hdescend⟩ :=
            ih hplugged hinner hchildFits hchildSized hgap
          refine ⟨inner, leafPage, contents, innerBounds, hleads, ?_⟩
          intro rule fuel hfuel
          obtain ⟨fuel, rfl⟩ := Nat.exists_eq_add_one_of_ne_zero (Nat.ne_of_gt
            (Nat.lt_of_lt_of_le (Nat.succ_pos level) hfuel))
          have hchild :
              (Branch.mk (slots
                (frame.left ++ [(frame.key, child)] ++ frame.right))).child
              frame.left.length = .ok child.page := by
            rw [slots_append, slots_append, ← length_slots frame.left,
              List.append_assoc]
            exact Branch.child_split
          have hkept := kept_eq_held rule context (frame.plug child)
          have hbelow := hdescend rule fuel (Nat.le_of_succ_le_succ hfuel)
          rw [Context.offered, ← hkept] at hbelow
          rw [descendUnder, hnode]
          simp only [bind, Except.bind, node, hslot, hchild]
          exact hbelow

/-! ## Trees that show a subtree -/

namespace Shows

variable {tree : Tree V} {t : Subtree V}

theorem exists_descend (hshows : tree.Shows t) (key : Key) :
    ∃ context page contents bounds,
      Leads tree.config tree.height t key context page contents bounds ∧
        ∀ rule access, tree.descendBy rule key access =
          .ok ⟨access.mode, .page page context.slot ::
            context.held rule (.leaf page contents)⟩ := by
  have hcarries : tree.pages.Carries (Context.plug [] t).cells :=
    hshows.carries
  obtain ⟨context, page, contents, bounds, hleads, hdescend⟩ :=
    exists_descendUnder hcarries .root hshows.wellFormed.fits
      hshows.wellFormed.sized (Bounds.all_admits key)
  refine ⟨context, page, contents, bounds, hleads, fun rule access => ?_⟩
  have hlinks := hdescend rule tree.pages.size hshows.height_le_size
  rw [descendBy, hshows.root]
  simp only [Context.slot, Context.offered] at hlinks
  rw [hlinks]
  rfl

theorem exists_leafFor (hshows : tree.Shows t) (key : Key) :
    ∃ context page contents bounds,
      Leads tree.config tree.height t key context page contents bounds ∧
        tree.leafFor key = .ok (page, contents) := by
  obtain ⟨context, page, contents, bounds, hleads, hdescend⟩ :=
    hshows.exists_descend key
  refine ⟨context, page, contents, bounds, hleads, ?_⟩
  have hleaf := hshows.carries.leaf hleads.mem_cells
  simp [leafFor, descend_eq_descendBy, hdescend, LatchPath.page, hleaf, bind,
    Except.bind, pure, Except.pure]

theorem get?_eq_lookup (hshows : tree.Shows t) (key : Key) :
    tree.get? key = .ok (t.entries.lookup key) := by
  obtain ⟨context, page, contents, bounds, hleads, hleafFor⟩ :=
    hshows.exists_leafFor key
  rw [get?, hleafFor, ← hleads.get?_eq hshows.wellFormed.fits]
  rfl

end Shows

/-! ## Sound trees -/

/-- The tree stores a well-formed subtree under its root. -/
structure Sound (tree : Tree V) (t : Subtree V) :
    Prop extends tree.Holds t where
  valid : tree.config.Valid
  wellFormed : t.WellFormed tree.config tree.height

namespace Sound

variable {tree : Tree V} {t : Subtree V}

theorem shows (hsound : tree.Sound t) : tree.Shows t where
  root := hsound.root
  carries := hsound.stores.holds.carries
  nodup := hsound.stores.holds.nodup
  linked := hsound.stores.chains.linked
  wellFormed := hsound.wellFormed

theorem exists_descend (hsound : tree.Sound t) (key : Key) :
    ∃ context page contents bounds,
      Leads tree.config tree.height t key context page contents bounds ∧
        ∀ rule access, tree.descendBy rule key access =
          .ok ⟨access.mode, .page page context.slot ::
            context.held rule (.leaf page contents)⟩ :=
  hsound.shows.exists_descend key

theorem get?_eq_lookup (hsound : tree.Sound t) (key : Key) :
    tree.get? key = .ok (t.entries.lookup key) :=
  hsound.shows.get?_eq_lookup key

theorem contains_eq (hsound : tree.Sound t) (key : Key) :
    tree.contains key = .ok (t.entries.lookup key).isSome := by
  rw [contains, hsound.get?_eq_lookup]
  rfl

theorem lookup_eq (hsound : tree.Sound t) (key : Key) :
    tree.lookup key =
      .ok (match t.entries.lookup key with
        | some value => .ok value
        | none => .error (.notFound key)) := by
  rw [lookup, hsound.get?_eq_lookup]
  cases t.entries.lookup key <;> rfl

theorem get?_eq_some (hsound : tree.Sound t) {key : Key} {value : V}
    (hmem : (key, value) ∈ t.entries) : tree.get? key = .ok (some value) := by
  rw [hsound.get?_eq_lookup,
    hsound.wellFormed.fits.ascending.lookup_eq_some_iff.mpr hmem]

theorem exists_mem_of_contains (hsound : tree.Sound t) {key : Key}
    (hcontains : tree.contains key = .ok true) :
    ∃ value, (key, value) ∈ t.entries := by
  rw [hsound.contains_eq, Except.ok.injEq] at hcontains
  exact hsound.wellFormed.fits.ascending.lookup_isSome_iff.mp hcontains

end Sound

end Tree

end LatchTree

import LatchTree.Proofs.Tree.Repairs

/-!
# What repairs reach

A repair writes to a page, to the sibling beside it and to their parent.  So all
that repairs write to, as they climb, lies under the latches that are held: the
pages of the held latches, and siblings under such a page.  The order of the
leaves is changed only at the lower end: there one leaf comes in or goes.
-/

namespace LatchTree

open Subtree

variable {V : Type}

namespace Context

/-- The pages beside and above the gap, as far as latches are held. -/
def pagesUnder : List Link → Context V → List PageId
  | .page _ _ :: above, frame :: rest =>
      (frame.beside?.map page).toList ++ frame.page :: pagesUnder above rest
  | _, _ => []

/-! ## Cells out of reach -/

section Cells

variable {frame : Frame V} {rest : Context V} {cell : Cell V}

theorem mem_cellsBelow_of_pair {pairing : Pairing V}
    (hcell : cell ∈ cellsOf [(pairing.around.key, pairing.pair.left),
      (pairing.pair.separator, pairing.pair.right)])
    (hneedy : cell.1 ≠ pairing.needy.page)
    (hhelper : cell.1 ≠ pairing.helper.page) :
    cell ∈ pairing.pair.left.cellsBelow ++ pairing.pair.right.cellsBelow := by
  have hpages : cell.1 ≠ pairing.pair.left.page ∧
      cell.1 ≠ pairing.pair.right.page := by
    unfold Pairing.needy at hneedy
    unfold Pairing.helper at hhelper
    cases hdirection : pairing.direction with
    | left =>
        rw [hdirection] at hneedy hhelper
        exact ⟨hhelper, hneedy⟩
    | right =>
        rw [hdirection] at hneedy hhelper
        exact ⟨hneedy, hhelper⟩
  rw [cellsOf_cons, cellsOf_cons, cellsOf_nil, List.append_nil, cells_eq,
    cells_eq] at hcell
  simp only [List.mem_append, List.mem_cons] at hcell ⊢
  rcases hcell with (rfl | hleft) | rfl | hright
  · exact absurd rfl hpages.1
  · exact .inl hleft
  · exact absurd rfl hpages.2
  · exact .inr hright

variable {config : Config} {height level : Nat} {context : Context V}
  {bounds : Bounds} {t old : Subtree V} {above : List Link}

theorem keeps_repairUp_root (config : Config) (height : Nat)
    (hcell : cell ∈ t.cells) (hpage : cell.1 ≠ t.page) :
    cell ∈ (repairUp config height [] t).tree.cells := by
  match t with
  | .leaf _ _ => exact hcell
  | .branch _ [] => exact hcell
  | .branch _ (_ :: _ :: _) => exact hcell
  | .branch page [(key, child)] =>
      rw [cells_branch, cellsOf_cons, cellsOf_nil, List.append_nil] at hcell
      rcases List.mem_cons.mp hcell with rfl | hbelow
      · exact absurd rfl hpage
      · exact hbelow

theorem mem_plug_pairing {pairing : Pairing V} {middle : List (Key × Subtree V)}
    (hpair : frame.pairUp t = some pairing)
    (hcell : cell ∈ (rest.plug (frame.plug t)).cells)
    (hframe : cell.1 ≠ frame.page)
    (hmiddle : cell ∈ cellsOf [(pairing.around.key, pairing.pair.left),
      (pairing.pair.separator, pairing.pair.right)] → cell ∈ cellsOf middle) :
    cell ∈ (rest.plug (pairing.around.fill middle)).cells := by
  rw [← Frame.fill_pairUp hpair, Pairing.fill] at hcell
  rw [← Frame.page_pairUp hpair] at hframe
  exact mem_plug_fill_of_imp hcell hframe hmiddle

theorem ne_of_not_mem_pagesUnder {pairing : Pairing V} {page : PageId}
    {slot : Nat} (hpair : frame.pairUp t = some pairing)
    (haway : cell.1 ∉ pagesUnder (.page page slot :: above) (frame :: rest)) :
    cell.1 ≠ pairing.helper.page ∧ cell.1 ≠ frame.page ∧
      cell.1 ∉ rest.pagesUnder above := by
  rw [pagesUnder, Frame.beside?_pairUp hpair, Option.map_some,
    Option.toList_some, List.singleton_append, List.mem_cons, List.mem_cons,
    not_or, not_or] at haway
  exact haway

/-- Repairs keep all cells but those under the held latches. -/
theorem keeps_repairUp (hvalid : config.Valid)
    (hcontext : context.Fits config height level bounds)
    (hguards : Guards config .delete above context old)
    (hfits : t.Fits config level bounds)
    (hshrunk : t.Shrunk config context.isEmpty) (hkind : t.kind = old.kind)
    (hsize : old.size ≤ t.size + 1) (hcell : cell ∈ (context.plug t).cells)
    (hpage : cell.1 ≠ t.page) (haway : cell.1 ∉ context.pagesUnder above) :
    cell ∈ (context.repairUp config height t).tree.cells := by
  induction hcontext generalizing t old above with
  | root => exact keeps_repairUp_root config height hcell hpage
  | @inner frame rest level bounds hrest haround hwidth hcapacity ih =>
      cases hguards with
      | safe hsafe =>
          have hsized := Tree.sized_of_isSafe_delete hsafe hkind hsize hshrunk.2
          rw [repairUp_of_sized height (frame :: rest) hsized]
          exact hcell
      | @page upper _ _ _ hupper =>
          have hrepair := Repair.of_fits hvalid (hvalid.two_le_width hwidth)
            haround hfits hshrunk
          cases hrepair with
          | needless hsized =>
              rw [repairUp_of_sized height (frame :: rest) hsized]
              exact hcell
          | merge pairing hpair hunder hlacks hjoins =>
              obtain ⟨hhelper, hframe, hothers⟩ := ne_of_not_mem_pagesUnder
                hpair haway
              obtain ⟨hbranch, hbranchSize⟩ := branch_shrunk hvalid haround
                hwidth hcapacity hfits hpair hlacks hjoins
              have hwider : (frame.plug old).size ≤
                  (pairing.around.plug (merge pairing.pair)).size + 1 := by
                rw [Frame.plug_size, Frame.plug_size, frame.width_pairUp hpair]
              have hsame : (pairing.around.plug (merge pairing.pair)).kind =
                  (frame.plug old).kind := rfl
              rw [repairUp_merge hpair hunder hjoins]
              refine ih hupper hbranch hbranchSize hsame hwider ?_ ?_ hothers
              · refine mem_plug_pairing hpair hcell hframe fun hpairCell => ?_
                have hbelow := mem_cellsBelow_of_pair hpairCell
                  (Frame.needy_pairUp hpair ▸ hpage) hhelper
                rw [cellsOf_cons, cellsOf_nil, List.append_nil, cells_eq,
                  merge_cellsBelow hlacks.kind]
                exact List.mem_cons_of_mem _ hbelow
              · rw [Frame.plug_page, Frame.page_pairUp hpair]
                exact hframe
          | borrow pairing shifted n hpair hunder hlacks hfull hborrow hcut =>
              obtain ⟨hhelper, hframe, _⟩ := ne_of_not_mem_pagesUnder
                hpair haway
              rw [repairUp_borrow hpair hunder hfull hborrow]
              refine mem_plug_pairing hpair hcell hframe fun hpairCell => ?_
              have hbelow := mem_cellsBelow_of_pair hpairCell
                (Frame.needy_pairUp hpair ▸ hpage) hhelper
              rw [← merge_cellsBelow hlacks.kind, ← (cutInto hcut).cellsBelow,
                List.mem_append] at hbelow
              rw [cellsOf_cons, cellsOf_cons, cellsOf_nil, List.append_nil,
                List.mem_append, cells_eq, cells_eq]
              exact hbelow.imp (List.mem_cons_of_mem _) (List.mem_cons_of_mem _)

end Cells

/-! ## The order of the leaves -/

section LeafPages

variable {config : Config} {height level : Nat} {context : Context V}
  {bounds : Bounds} {t : Subtree V}

theorem leafPages_fill_congr {frame : Frame V} {rest : Context V}
    {middle other : List (Key × Subtree V)}
    (hmiddle : Cell.leafPagesIn (cellsOf middle) =
      Cell.leafPagesIn (cellsOf other)) :
    (rest.plug (frame.fill middle)).leafPages =
      (rest.plug (frame.fill other)).leafPages := by
  rw [leafPages_fill, leafPages_fill, hmiddle]

/-- Splits of branches leave the leaves where they are. -/
theorem leafPages_splitUp_branch (config : Config) (height : Nat)
    (context : Context V) (fresh : PageId) (hbranch : t.kind = .branch) :
    (context.splitUp config height fresh t).tree.leafPages =
      (context.plug t).leafPages := by
  induction context generalizing fresh t with
  | nil =>
      rw [splitUp]
      cases hoverflow : t.overflow config fresh with
      | none => rfl
      | some pair =>
          have hparts := cutInto (overflow_eq_halve hoverflow)
          have hleafPages := hparts.leafPages
          rw [hbranch] at hleafPages
          rw [leafPages_branch, leafPagesIn_cellsOf_cons,
            leafPagesIn_cellsOf_cons, leafPagesIn_cellsOf_nil, List.append_nil]
          exact hleafPages
  | cons frame rest ih =>
      rw [splitUp]
      cases hoverflow : t.overflow config fresh with
      | none => rfl
      | some pair =>
          have hparts := cutInto (overflow_eq_halve hoverflow)
          have hleafPages := hparts.leafPages
          rw [hbranch] at hleafPages
          refine (ih (fresh + 1) (frame.fill_kind _)).trans ?_
          refine leafPages_fill_congr ?_
          rw [leafPagesIn_cellsOf_cons, leafPagesIn_cellsOf_cons,
            leafPagesIn_cellsOf_cons, leafPagesIn_cellsOf_nil, List.append_nil,
            List.append_nil]
          exact hleafPages

/-- The new half of a leaf follows the old one. -/
theorem leafPages_splitUp_leaf (height : Nat) (context : Context V)
    {fresh page : PageId} {contents : Leaf V} {pair : Siblings (Subtree V)}
    (hoverflow : (Subtree.leaf page contents).overflow config fresh =
      some pair) :
    (context.splitUp config height fresh (.leaf page contents)).tree.leafPages =
      Cell.leafPagesIn context.cellsBefore ++ page :: fresh ::
        Cell.leafPagesIn context.cellsAfter := by
  have hparts := cutInto (overflow_eq_halve hoverflow)
  have hleafPages : pair.left.leafPages ++ pair.right.leafPages =
      [page, fresh] := hparts.leafPages
  have hpair : ∀ key, Cell.leafPagesIn (cellsOf [(key, pair.left),
      (pair.separator, pair.right)]) = [page, fresh] := by
    intro key
    rw [leafPagesIn_cellsOf_cons, leafPagesIn_cellsOf_cons,
      leafPagesIn_cellsOf_nil, List.append_nil, hleafPages]
  cases context with
  | nil =>
      rw [splitUp, hoverflow, leafPages_branch, hpair]
      rfl
  | cons frame rest =>
      rw [splitUp, hoverflow]
      refine (leafPages_splitUp_branch config height rest (fresh + 1)
        (frame.fill_kind _)).trans ?_
      rw [leafPages_fill, hpair, List.append_assoc]
      rfl

theorem leafPages_repairUp_root (config : Config) (height : Nat)
    (t : Subtree V) :
    (repairUp config height [] t).tree.leafPages = t.leafPages := by
  match t with
  | .leaf _ _ => rfl
  | .branch _ [] => rfl
  | .branch _ (_ :: _ :: _) => rfl
  | .branch page [(key, child)] =>
      rw [leafPages_branch, leafPagesIn_cellsOf_cons, leafPagesIn_cellsOf_nil,
        List.append_nil]
      rfl

/-- Repairs of branches leave the leaves where they are.  Repairs that begin at
a leaf take out the right one of two neighbours or none. -/
theorem leafPages_repairUp (hvalid : config.Valid)
    (hcontext : context.Fits config height level bounds)
    (hfits : t.Fits config level bounds)
    (hshrunk : t.Shrunk config context.isEmpty) :
    (context.repairUp config height t).tree.leafPages =
        (context.plug t).leafPages ∨
      t.kind = .leaf ∧ ∃ before gone after,
        (context.plug t).leafPages = before ++ gone :: after ∧
          (context.repairUp config height t).tree.leafPages =
            before ++ after := by
  induction hcontext generalizing t with
  | root => exact .inl (leafPages_repairUp_root config height t)
  | @inner frame rest level bounds hrest haround hwidth hcapacity ih =>
      have hrepair := Repair.of_fits hvalid (hvalid.two_le_width hwidth)
        haround hfits hshrunk
      cases hrepair with
      | needless hsized =>
          rw [repairUp_of_sized height (frame :: rest) hsized]
          exact .inl rfl
      | merge pairing hpair hunder hlacks hjoins =>
          obtain ⟨hbranch, hbranchSize⟩ := branch_shrunk hvalid haround hwidth
            hcapacity hfits hpair hlacks hjoins
          have hold : (Context.plug (frame :: rest) t).leafPages =
              (rest.plug (pairing.fill pairing.pair)).leafPages := by
            rw [Frame.fill_pairUp hpair]
            rfl
          have hnew : (repairUp config height (frame :: rest) t).tree.leafPages =
              (rest.plug (pairing.around.plug
                (merge pairing.pair))).leafPages := by
            rw [repairUp_merge hpair hunder hjoins]
            refine (ih hbranch hbranchSize).resolve_right ?_
            rintro ⟨hleaf, _⟩
            cases hleaf
          rw [hold, hnew, Pairing.fill, Frame.plug, leafPages_fill,
            leafPages_fill, leafPagesIn_cellsOf_cons, leafPagesIn_cellsOf_cons,
            leafPagesIn_cellsOf_cons, leafPagesIn_cellsOf_nil, List.append_nil,
            List.append_nil, leafPages_pair hlacks.kind,
            merge_leafPages hlacks.kind]
          have hkind := Frame.kind_pairUp hpair hlacks.kind
          cases hleft : pairing.pair.left.kind with
          | branch => exact .inl rfl
          | leaf =>
              refine .inr ⟨hkind.symm.trans hleft,
                Cell.leafPagesIn (cellsBefore (pairing.around :: rest)) ++
                  [pairing.pair.left.page], pairing.pair.right.page,
                Cell.leafPagesIn (cellsAfter (pairing.around :: rest)), ?_, ?_⟩
              · simp
              · rfl
      | borrow pairing shifted n hpair hunder hlacks hfull hborrow hcut =>
          have hold : (Context.plug (frame :: rest) t).leafPages =
              (rest.plug (pairing.fill pairing.pair)).leafPages := by
            rw [Frame.fill_pairUp hpair]
            rfl
          rw [repairUp_borrow hpair hunder hfull hborrow, hold]
          refine .inl (leafPages_fill_congr ?_)
          rw [leafPagesIn_cellsOf_cons, leafPagesIn_cellsOf_cons,
            leafPagesIn_cellsOf_cons, leafPagesIn_cellsOf_cons,
            leafPagesIn_cellsOf_nil, List.append_nil, List.append_nil]
          exact (cutInto hcut).leafPages_merge hlacks.kind

end LeafPages

end Context

end LatchTree

import LatchTree.Proofs.Subtree.Fits
import LatchTree.Proofs.Subtree.Outline

/-!
# Reading outlines

Whatever follows the text of an outline, the outline can be read off the whole.
A number ends before the first character that is not a digit, the keys of a page
end before the bracket, and the separators of a branch tell how many children
come below it.  So two texts cannot part at the end of a page, and the head and
the margin need not be read at all.
-/

namespace LatchTree

/-! ## Numbers -/

def leadingDigits (text : String) : List Char :=
  text.toList.takeWhile Char.isDigit

theorem leadingDigits_append {rest : String} (hrest : leadingDigits rest = [])
    (n : Nat) : leadingDigits (toString n ++ rest) = Nat.toDigits 10 n := by
  have hdigits : ∀ c ∈ Nat.toDigits 10 n, c.isDigit :=
    fun c hc => Nat.isDigit_of_mem_toDigits (by decide) (by decide) hc
  rw [leadingDigits, String.toList_append, Nat.toString_eq_repr,
    Nat.toList_repr, List.takeWhile_append_of_pos hdigits, ← leadingDigits,
    hrest, List.append_nil]

theorem toString_append_inj {m n : Nat} {rest other : String}
    (hrest : leadingDigits rest = []) (hother : leadingDigits other = [])
    (h : toString m ++ rest = toString n ++ other) : m = n ∧ rest = other := by
  have hdigits := congrArg leadingDigits h
  rw [leadingDigits_append hrest, leadingDigits_append hother] at hdigits
  have hvalue : m = n := calc
    m = Nat.ofDigitChars 10 (Nat.toDigits 10 m) 0 :=
      Nat.ofDigitChars_ten_toDigits.symm
    _ = Nat.ofDigitChars 10 (Nat.toDigits 10 n) 0 := by rw [hdigits]
    _ = n := Nat.ofDigitChars_ten_toDigits
  subst hvalue
  exact ⟨rfl, (String.append_right_inj _).mp h⟩

namespace Outline

/-! ## Keys -/

/-- What stands between the first key and the bracket. -/
def keyTail : List Key → String
  | [] => ""
  | key :: rest => ", " ++ keyText (key :: rest)

theorem keyText_cons (key : Key) (rest : List Key) :
    keyText (key :: rest) = toString key.toNat ++ keyTail rest := by
  cases rest with
  | nil =>
      rw [keyText, List.map_singleton, String.intercalate_singleton, keyTail,
        String.append_empty]
  | cons next rest =>
      rw [keyText, List.map_cons, List.map_cons,
        String.intercalate_cons_cons, String.append_assoc]
      rfl

theorem leadingDigits_keyTail (keys : List Key) (rest : String) :
    leadingDigits (keyTail keys ++ ("]\n" ++ rest)) = [] := by
  cases keys <;> simp [keyTail, leadingDigits]

theorem keyText_eq_of_keyTail_eq {keys others : List Key}
    {rest other : String}
    (h : keyTail keys ++ ("]\n" ++ rest) = keyTail others ++ ("]\n" ++ other)) :
    keyText keys ++ ("]\n" ++ rest) = keyText others ++ ("]\n" ++ other) := by
  cases keys with
  | nil =>
      cases others with
      | nil => exact h
      | cons key others =>
          have hchars := congrArg String.toList h
          simp [keyTail] at hchars
  | cons key keys =>
      cases others with
      | nil =>
          have hchars := congrArg String.toList h
          simp [keyTail] at hchars
      | cons next others =>
          rw [keyTail, keyTail, String.append_assoc, String.append_assoc] at h
          exact (String.append_right_inj _).mp h

theorem keyText_cons_ne (key : Key) (keys : List Key) (rest other : String) :
    keyText (key :: keys) ++ ("]\n" ++ rest) ≠ keyText [] ++ ("]\n" ++ other) := by
  intro h
  have hdigits := congrArg leadingDigits h
  rw [keyText_cons, String.append_assoc,
    leadingDigits_append (leadingDigits_keyTail keys rest)] at hdigits
  exact Nat.toDigits_ne_nil (hdigits.trans (leadingDigits_keyTail [] other))

/-- The bracket ends the keys. -/
theorem keyText_append_inj {keys others : List Key} {rest other : String}
    (h : keyText keys ++ ("]\n" ++ rest) = keyText others ++ ("]\n" ++ other)) :
    keys = others ∧ rest = other := by
  induction keys generalizing others with
  | nil =>
      cases others with
      | nil =>
          have hrest := (String.append_right_inj _).mp h
          exact ⟨rfl, (String.append_right_inj _).mp hrest⟩
      | cons key others => exact absurd h.symm (keyText_cons_ne _ _ _ _)
  | cons key keys ih =>
      cases others with
      | nil => exact absurd h (keyText_cons_ne _ _ _ _)
      | cons next others =>
          rw [keyText_cons, keyText_cons, String.append_assoc,
            String.append_assoc] at h
          obtain ⟨hkey, htail⟩ := toString_append_inj
            (leadingDigits_keyTail keys rest)
            (leadingDigits_keyTail others other) h
          obtain ⟨rfl, hrest⟩ := ih (keyText_eq_of_keyTail_eq htail)
          exact ⟨by rw [UInt64.toNat_inj.mp hkey], hrest⟩

/-! ## Pages -/

/-- Each branch has one child more than separators. -/
inductive Regular : Outline → Prop where
  | leaf (keys : List Key) : Regular (.leaf keys)
  | branch {separators : List Key} {children : List Outline}
      (hlength : children.length = separators.length + 1)
      (hchildren : ∀ child ∈ children, child.Regular) :
      Regular (.branch separators children)

/-- Drawn with the same head and margin, no other outline has a text that starts
as this one's, whatever follows. -/
def Readable (a : Outline) : Prop :=
  ∀ {b : Outline} {head margin rest other : String}, b.Regular →
    a.text head margin ++ rest = b.text head margin ++ other →
      a = b ∧ rest = other

theorem text_leaf_append (keys : List Key) (head margin rest : String) :
    (Outline.leaf keys).text head margin ++ rest =
      head ++ ("leaf [" ++ (keyText keys ++ ("]\n" ++ rest))) := by
  simp only [text, String.append_assoc]

theorem text_branch_append (separators : List Key) (children : List Outline)
    (head margin rest : String) :
    (Outline.branch separators children).text head margin ++ rest =
      head ++ ("internal [" ++ (keyText separators ++
        ("]\n" ++ (textOf margin children ++ rest)))) := by
  simp only [text, String.append_assoc]

theorem text_leaf_ne_text_branch {keys separators : List Key}
    {children : List Outline} {head margin rest other : String} :
    (Outline.leaf keys).text head margin ++ rest ≠
      (Outline.branch separators children).text head margin ++ other := by
  intro h
  rw [text_leaf_append, text_branch_append] at h
  have hchars := congrArg String.toList ((String.append_right_inj _).mp h)
  simp at hchars

theorem readable_leaf (keys : List Key) : (Outline.leaf keys).Readable := by
  intro b head margin rest other hb h
  cases hb with
  | leaf others =>
      rw [text_leaf_append, text_leaf_append] at h
      obtain ⟨rfl, hrest⟩ := keyText_append_inj
        ((String.append_right_inj _).mp ((String.append_right_inj _).mp h))
      exact ⟨rfl, hrest⟩
  | branch => exact absurd h text_leaf_ne_text_branch

/-- As many children are read one after the other. -/
theorem textOf_append_inj {children others : List Outline}
    (hlength : children.length = others.length)
    (hchildren : ∀ child ∈ children, child.Readable)
    (hothers : ∀ child ∈ others, child.Regular) {margin rest other : String}
    (h : textOf margin children ++ rest = textOf margin others ++ other) :
    children = others ∧ rest = other := by
  induction children generalizing others with
  | nil =>
      cases List.eq_nil_of_length_eq_zero hlength.symm
      exact ⟨rfl, (String.append_right_inj _).mp h⟩
  | cons child children ih =>
      cases others with
      | nil => cases hlength
      | cons next others =>
          have hlengths : children.length = others.length :=
            Nat.succ.inj hlength
          -- Both children are drawn as the last one, or neither is.
          have hlast : children.isEmpty = others.isEmpty := by
            rw [Bool.eq_iff_iff, List.isEmpty_iff_length_eq_zero,
              List.isEmpty_iff_length_eq_zero, hlengths]
          obtain ⟨hchild, hrest⟩ := List.forall_mem_cons.mp hchildren
          obtain ⟨hnext, hmore⟩ := List.forall_mem_cons.mp hothers
          rw [textOf, textOf, hlast, String.append_assoc,
            String.append_assoc] at h
          have hfirst : child = next ∧
              textOf margin children ++ rest = textOf margin others ++ other := by
            split at h <;> exact hchild hnext h
          obtain ⟨rfl, hafter⟩ := hfirst
          obtain ⟨rfl, hend⟩ := ih hlengths hrest hmore hafter
          exact ⟨rfl, hend⟩

theorem readable_branch {separators : List Key} {children : List Outline}
    (hlength : children.length = separators.length + 1)
    (hchildren : ∀ child ∈ children, child.Readable) :
    (Outline.branch separators children).Readable := by
  intro b head margin rest other hb h
  cases hb with
  | leaf => exact absurd h.symm text_leaf_ne_text_branch
  | branch hothers hregular =>
      rw [text_branch_append, text_branch_append] at h
      obtain ⟨rfl, hbelow⟩ := keyText_append_inj
        ((String.append_right_inj _).mp ((String.append_right_inj _).mp h))
      -- The same separators stand for as many children on both sides.
      obtain ⟨rfl, hrest⟩ := textOf_append_inj (hlength.trans hothers.symm)
        hchildren hregular hbelow
      exact ⟨rfl, hrest⟩

theorem Regular.readable {a : Outline} (ha : a.Regular) : a.Readable := by
  induction ha with
  | leaf keys => exact readable_leaf keys
  | branch hlength _ ih => exact readable_branch hlength ih

theorem Regular.text_inj {a b : Outline} (ha : a.Regular) (hb : b.Regular)
    {head margin : String} (h : a.text head margin = b.text head margin) :
    a = b :=
  (ha.readable hb (congrArg (· ++ "") h)).1

end Outline

namespace Subtree

variable {V : Type}

theorem outlinesOf_eq_map (children : List (Key × Subtree V)) :
    outlinesOf children = children.map fun e => e.2.outline := by
  induction children with
  | nil => rfl
  | cons e rest ih => rw [outlinesOf, ih, List.map_cons]

theorem Fits.regular_outline {config : Config} {height : Nat} {bounds : Bounds}
    {t : Subtree V} (hfits : t.Fits config height bounds) :
    t.outline.Regular := by
  induction hfits with
  | leaf hleaf =>
      rw [outline]
      exact .leaf _
  | @branch height bounds page children hne hall hchildren ih =>
      rw [outline, outlinesOf_eq_map]
      refine .branch ?_ ?_
      · rw [List.length_map, List.length_map, List.length_tail]
        have hpos := List.length_pos_of_ne_nil hne
        omega
      · intro child hmem
        obtain ⟨e, he, rfl⟩ := List.mem_map.mp hmem
        obtain ⟨inner, hinner⟩ := exists_childBounds bounds he
        exact ih _ hinner

end Subtree

end LatchTree

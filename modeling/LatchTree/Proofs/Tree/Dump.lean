import LatchTree.Proofs.Subtree.Reading
import LatchTree.Proofs.Tree.History

/-!
# Dumps

A dump shows the degree, the height and the outline of the pages, and all three
can be read off it.  So two trees have the same dump if and only if they agree
in these three, whatever values they hold and however they came about.
-/

namespace LatchTree

open Writing

/-! ## The text of a dump -/

def dumpText (degree height : Nat) (outline : Outline) : String :=
  "Tree(degree=" ++ (toString degree ++ (", height=" ++
    (toString height ++ (")\n" ++ outline.text "" ""))))

theorem dumpText_inj {degree otherDegree height otherHeight : Nat}
    {outline other : Outline} (houtline : outline.Regular)
    (hother : other.Regular)
    (h : dumpText degree height outline =
      dumpText otherDegree otherHeight other) :
    degree = otherDegree ∧ height = otherHeight ∧ outline = other := by
  have hcomma : ∀ rest, leadingDigits (", height=" ++ rest) = [] := by
    simp [leadingDigits]
  have hbracket : ∀ rest, leadingDigits (")\n" ++ rest) = [] := by
    simp [leadingDigits]
  rw [dumpText, dumpText] at h
  obtain ⟨hdegree, hafter⟩ := toString_append_inj (hcomma _) (hcomma _)
    ((String.append_right_inj _).mp h)
  obtain ⟨hheight, hpages⟩ := toString_append_inj (hbracket _) (hbracket _)
    ((String.append_right_inj _).mp hafter)
  have htext := (String.append_right_inj _).mp hpages
  exact ⟨hdegree, hheight, houtline.text_inj hother htext⟩

namespace Tree

variable {V W : Type}

theorem writeDump_eq_put (tree : Tree V) (t : Subtree V) :
    tree.writeDump t = put (dumpText tree.degree tree.height t.outline) := by
  rw [writeDump, Subtree.write_eq_put, put_append, dumpText]
  simp only [String.append_assoc]
  rfl

namespace Sound

variable {tree : Tree V} {t : Subtree V}

theorem dump_eq (hsound : tree.Sound t) :
    tree.dump = .ok (dumpText tree.degree tree.height t.outline) := by
  rw [dump, dumpWithin, hsound.shows.subtree_eq]
  simp only [bind, Except.bind, writeDump_eq_put, runWithin_put_none]
  rfl

theorem dumpWithin_eq (hsound : tree.Sound t) (room : Nat) :
    tree.dumpWithin (some room) =
      .ok (decide ((dumpText tree.degree tree.height t.outline).length ≤ room),
        String.ofList
          ((dumpText tree.degree tree.height t.outline).toList.take room)) := by
  rw [dumpWithin, hsound.shows.subtree_eq]
  simp only [bind, Except.bind, writeDump_eq_put, runWithin_put_some]
  rfl

end Sound

/-- After any two histories of new trees, of whatever degrees and values: the
dumps are the same text if and only if the trees have the same degree, the same
height and the same outline of their pages. -/
theorem dump_determines_tree {config other : Config}
    (hconfig : config.validate = .ok ()) (hother : other.validate = .ok ())
    (history : List (Change V)) (changes : List (Change W)) :
    ∃ first second t u firstText secondText,
      (Tree.empty config).changeAll history = .ok first ∧
        (Tree.empty other).changeAll changes = .ok second ∧
        first.subtree = .ok t ∧ second.subtree = .ok u ∧
        first.dump = .ok firstText ∧ second.dump = .ok secondText ∧
        (firstText = secondText ↔ first.degree = second.degree ∧
          first.height = second.height ∧ t.outline = u.outline) := by
  obtain ⟨first, t, hfirst, ht⟩ :=
    (sound_empty (Config.validate_eq_ok_iff.mp hconfig)).exists_changeAll history
  obtain ⟨second, u, hsecond, hu⟩ :=
    (sound_empty (Config.validate_eq_ok_iff.mp hother)).exists_changeAll changes
  refine ⟨first, second, t, u, _, _, hfirst, hsecond, ht.shows.subtree_eq,
    hu.shows.subtree_eq, ht.dump_eq, hu.dump_eq, ?_, ?_⟩
  · exact dumpText_inj ht.wellFormed.fits.regular_outline
      hu.wellFormed.fits.regular_outline
  · rintro ⟨hdegree, hheight, houtline⟩
    rw [hdegree, hheight, houtline]

/-- The second tree has split one leaf more and merged it again. -/
theorem dump_determines_tree_after_merge :
    ({ degree := 3 } : Config).validate = .ok () ∧
      ∃ first second t u text,
        (Tree.empty { degree := 3 }).changeAll
            (([1, 2, 3, 4, 5] : List Key).map (.insert · 'a')) = .ok first ∧
          (Tree.empty { degree := 3 }).changeAll
            (([1, 2, 3, 4, 5, 6] : List Key).map (.insert · true) ++
              [.remove 6]) = .ok second ∧
          first.subtree = .ok t ∧ second.subtree = .ok u ∧
          text = "Tree(degree=3, height=2)\ninternal [3]\n" ++
            "├── leaf [1, 2]\n└── leaf [3, 4, 5]\n" ∧
          first.dump = .ok text ∧ second.dump = .ok text ∧
          first.degree = second.degree ∧ first.height = second.height ∧
          t.outline = u.outline := by
  have hconfig : ({ degree := 3 } : Config).validate = .ok () := rfl
  obtain ⟨first, second, t, u, firstText, text, hfirst, hsecond, ht, hu,
      hfirstText, htext, hiff⟩ :=
    dump_determines_tree hconfig hconfig
      (([1, 2, 3, 4, 5] : List Key).map (.insert · 'a'))
      (([1, 2, 3, 4, 5, 6] : List Key).map (.insert · true) ++ [.remove 6])
  have hseen : ((Tree.empty { degree := 3 }).changeAll
      (([1, 2, 3, 4, 5] : List Key).map (.insert · 'a'))).bind Tree.dump =
        .ok ("Tree(degree=3, height=2)\ninternal [3]\n" ++
          "├── leaf [1, 2]\n└── leaf [3, 4, 5]\n") := by
    decide +kernel
  have hsame : ((Tree.empty { degree := 3 }).changeAll
      (([1, 2, 3, 4, 5, 6] : List Key).map (.insert · true) ++
        [.remove 6])).bind Tree.dump =
      ((Tree.empty { degree := 3 }).changeAll
        (([1, 2, 3, 4, 5] : List Key).map (.insert · 'a'))).bind Tree.dump := by
    decide +kernel
  rw [hsecond, hfirst, Except.bind, Except.bind, hfirstText, htext,
    Except.ok.injEq] at hsame
  rw [hfirst, Except.bind, hfirstText, Except.ok.injEq] at hseen
  subst hsame
  exact ⟨hconfig, first, second, t, u, text, hfirst, hsecond, ht, hu, hseen,
    hfirstText, htext, hiff.mp rfl⟩

end Tree

end LatchTree

import LatchTree.Proofs.Session.Safety
import LatchTree.Proofs.Tree.Dump

/-!
# Dumps into a limited sink

A session can be asked for a dump that has to fit into some room.  The sink may
run full at any piece of any line, and all that was to come after that is left
out.  So it receives the beginning of the dump, as long as the room allows, and
the session goes on as it was.
-/

namespace LatchTree

variable {V : Type}

namespace Session

/-- What the session replies to requests for its dump, the whole of which is the
text. -/
structure Dumps (session : Session V) (text : String) : Prop where
  whole : session.perform .dump = .ok { reply := .text text, session }
  within : ∀ room, session.perform (.dumpWithin room) = .ok {
    reply := .cutText (decide (text.length ≤ room))
      (String.ofList (text.toList.take (min room text.length)))
    session }

theorem Sound.dumps {session : Session V} {t : Subtree V}
    (hsession : session.Sound t) :
    session.Dumps
      (dumpText session.tree.degree session.tree.height t.outline) where
  whole := by
    rw [perform, hsession.tree.dump_eq]
    rfl
  within := by
    intro room
    rw [← String.length_toList, ← List.take_eq_take_min, String.length_toList,
      perform, hsession.tree.dumpWithin_eq]
    rfl

/-- Whatever a session over a new tree was asked before, of its dump a sink
receives as many characters as it has room for, writing fails if and only if
the dump is longer, and the session stays as it was. -/
theorem full_sink_has_start_of_dump {config : Config}
    (hconfig : config.validate = .ok ()) (requests : List (Request V)) :
    ∃ responses text,
      Session.respondAll ⟨Tree.empty config, []⟩ requests = .ok responses ∧
        (Session.after ⟨Tree.empty config, []⟩ responses).Dumps text := by
  have hvalid := Config.validate_eq_ok_iff.mp hconfig
  obtain ⟨responses, t, hrespond, hlast, _⟩ :=
    (sound_new hvalid).exists_respondAll requests
  exact ⟨responses, _, hrespond, hlast.dumps⟩

/-- The room ends inside the line that is drawn in front of a leaf. -/
theorem full_sink_has_start_of_dump_before_leaf :
    ({ degree := 3 } : Config).validate = .ok () ∧
      ∃ responses session text,
        Session.respondAll ⟨Tree.empty { degree := 3 }, []⟩
            [.insert 1 'a', .insert 2 'b', .insert 3 'c', .insert 4 'd',
              .insert 2 'e'] = .ok responses ∧
          session = Session.after ⟨Tree.empty { degree := 3 }, []⟩ responses ∧
          session.Dumps text ∧
          text = "Tree(degree=3, height=2)\ninternal [3]\n" ++
            "├── leaf [1, 2]\n└── leaf [3, 4]\n" ∧
          session.perform (.dumpWithin 40) = .ok {
            reply := .cutText false
              "Tree(degree=3, height=2)\ninternal [3]\n├─"
            session } := by
  have hconfig : ({ degree := 3 } : Config).validate = .ok () := rfl
  obtain ⟨responses, text, hrespond, hdumps⟩ :=
    full_sink_has_start_of_dump hconfig
      [.insert 1 'a', .insert 2 'b', .insert 3 'c', .insert 4 'd',
        .insert 2 'e']
  have hseen : (Session.respondAll ⟨Tree.empty { degree := 3 }, []⟩
      [.insert 1 'a', .insert 2 'b', .insert 3 'c', .insert 4 'd',
        .insert 2 'e']).bind (fun responses =>
          (Session.after ⟨Tree.empty { degree := 3 }, []⟩ responses).tree.dump) =
      .ok ("Tree(degree=3, height=2)\ninternal [3]\n" ++
        "├── leaf [1, 2]\n└── leaf [3, 4]\n") := by
    decide +kernel
  rw [hrespond, Except.bind] at hseen
  have hwhole := hdumps.whole
  rw [perform, hseen] at hwhole
  have htext : text = "Tree(degree=3, height=2)\ninternal [3]\n" ++
      "├── leaf [1, 2]\n└── leaf [3, 4]\n" := by
    cases hwhole
    rfl
  have hlong : decide (text.length ≤ 40) = false := by
    rw [htext]
    decide +kernel
  have hcut : String.ofList (text.toList.take (min 40 text.length)) =
      "Tree(degree=3, height=2)\ninternal [3]\n├─" := by
    rw [htext]
    decide +kernel
  have hwithin := hdumps.within 40
  rw [hlong, hcut] at hwithin
  exact ⟨hconfig, responses, _, text, hrespond, rfl, hdumps, htext, hwithin⟩

end Session

end LatchTree

import LatchTree.Proofs.Latch.Requests

/-!
# Rounds over latched values

A round sets some values directly, while there are no guards, then performs
requests one after another, and lets go of all guards in the end.  As long as no
request has to wait, the latches do their work at every point of a run of rounds,
and each latch keeps the last value written to it.
-/

namespace LatchTree

open LatchRequest

variable {α : Type}

/-- None of the requests of a round has to wait. -/
def LatchRound.NeverWaits (size : Nat) (round : LatchRound α) : Prop :=
  NeverWait size [] round.requests

instance (size : Nat) (round : LatchRound α) :
    Decidable (round.NeverWaits size) :=
  inferInstanceAs (Decidable (NeverWait size [] round.requests))

/-- What is written in rounds, directly or through guards, in order. -/
def writesOfRounds (rounds : List (LatchRound α)) : List (Nat × α) :=
  rounds.flatMap fun round => round.settings ++ writesOf [] round.requests

namespace LatchTable

variable (table : LatchTable α)

theorem tracks_setAll (hfree : table.guards = []) (settings : List (Nat × α)) :
    (table.setAll settings).Tracks [] :=
  tracks_of_free ((guards_setAll table settings).trans hfree)

theorem length_setAll (settings : List (Nat × α)) :
    (table.setAll settings).values.length = table.values.length := by
  rw [values_setAll, List.length_mapIdx]

theorem values_performRound (hfree : table.guards = []) {round : LatchRound α}
    (hround : round.NeverWaits table.values.length) :
    (table.performRound round).1.values =
      table.values.mapIdx (lastWritten (round.settings ++
        writesOf [] round.requests)) := by
  rw [← mapIdx_lastWritten_append, ← values_setAll]
  apply (table.tracks_setAll hfree round.settings).values_performAll
  rw [length_setAll]
  exact hround

theorem performRounds_eq (hfree : table.guards = [])
    {rounds : List (LatchRound α)}
    (hrounds : ∀ round ∈ rounds, round.NeverWaits table.values.length) :
    (table.performRounds rounds).1 =
      { values := table.values.mapIdx (lastWritten (writesOfRounds rounds)) } := by
  induction rounds generalizing table with
  | nil =>
      rw [writesOfRounds, List.flatMap_nil, mapIdx_lastWritten_nil, ← hfree]
      rfl
  | cons round rest ih =>
      obtain ⟨hround, hrest⟩ := List.forall_mem_cons.mp hrounds
      have hvalues := table.values_performRound hfree hround
      have hlength : (table.performRound round).1.values.length =
          table.values.length := by
        rw [hvalues, List.length_mapIdx]
      change ((table.performRound round).1.performRounds rest).1 = _
      rw [ih _ rfl (by rwa [hlength]), hvalues, mapIdx_lastWritten_append]
      rfl

theorem replies_performRounds_append (before after : List (LatchRound α)) :
    (table.performRounds (before ++ after)).2 =
      (table.performRounds before).2 ++
        ((table.performRounds before).1.performRounds after).2 := by
  induction before generalizing table with
  | nil => rfl
  | cons round rest ih => exact congrArg (_ :: ·) (ih _)

theorem length_replies_performRounds (rounds : List (LatchRound α)) :
    (table.performRounds rounds).2.length = rounds.length := by
  induction rounds generalizing table with
  | nil => rfl
  | cons round rest ih => exact congrArg (· + 1) (ih _)

end LatchTable

/-- A point of a run: rounds that are over, and what was done of the next one. -/
structure LatchPoint (α : Type) where
  before : List (LatchRound α)
  settings : List (Nat × α)
  earlier : List (LatchRequest α)

namespace LatchPoint

open LatchTable

/-- The point after more requests of the round. -/
def extend (point : LatchPoint α) (more : List (LatchRequest α)) :
    LatchPoint α :=
  { point with earlier := point.earlier ++ more }

/-- No request before the point had to wait. -/
structure NeverWaited (point : LatchPoint α) (size : Nat) : Prop where
  before : ∀ round ∈ point.before, round.NeverWaits size
  earlier : NeverWait size [] point.earlier

/-- The rounds of a run that passes the point. -/
def rounds (point : LatchPoint α) (later : List (LatchRequest α))
    (after : List (LatchRound α)) : List (LatchRound α) :=
  point.before ++ ⟨point.settings, point.earlier ++ later⟩ :: after

/-- The table at the beginning of the round. -/
def base (point : LatchPoint α) (first : List α) : LatchTable α :=
  (performRounds { values := first } point.before).1

def table (point : LatchPoint α) (first : List α) : LatchTable α :=
  (((point.base first).setAll point.settings).performAll point.earlier).1

/-- The answer that a run gives to its next request after the point. -/
def answer? (point : LatchPoint α) (first : List α) (request : LatchRequest α)
    (later : List (LatchRequest α)) (after : List (LatchRound α)) :
    Option (Except LatchError (LatchReply α)) :=
  (performRounds { values := first }
    (point.rounds (request :: later) after)).2[point.before.length]?.bind
      fun answers => answers[point.earlier.length]?

/-- What has been written up to the point, in order. -/
def writes (point : LatchPoint α) : List (Nat × α) :=
  writesOfRounds point.before ++
    (point.settings ++ writesOf [] point.earlier)

/-- The last values written to the latches. -/
def values (point : LatchPoint α) (first : List α) : List α :=
  first.mapIdx (lastWritten point.writes)

/-- The latches do their work at the point. -/
structure Holds (point : LatchPoint α) (first : List α) : Prop where
  /-- The guards are those that the requests of the round have left. -/
  guards : ∀ id,
    (point.table first).guards.lookup id = heldAfter point.earlier id
  distinct : ((point.table first).guards.map (·.1)).Nodup
  /-- A latch is free, or held shared, or held by one exclusive guard. -/
  modes : ∀ latch, (point.table first).modes latch = [.exclusive] ∨
    ∀ mode ∈ (point.table first).modes latch, mode = .shared
  /-- Each latch has the last value written to it. -/
  values : (point.table first).values = point.values first
  /-- The next request gets the answer that is due to it. -/
  answers : ∀ request later after, ∃ answer,
    point.answer? first request later after = some answer ∧
      Due point.earlier (point.values first) request answer
  /-- A request that fails changes nothing. -/
  unchanged : ∀ request error,
    Fails first.length point.earlier request error →
      (point.extend [request]).table first = point.table first
  /-- From the time when a shared guard is taken to its release, it shows one
  value. -/
  stable : ∀ request id latch during,
    request.guardChange? = some (id, some ⟨latch, .shared⟩) →
    NeverWait first.length point.earlier (request :: during) →
    (∀ other ∈ during, ∀ change, other.guardChange? ≠ some (id, change)) →
      ∃ value,
        (∀ later after, ∃ reply,
          point.answer? first request later after = some (.ok reply) ∧
            shown? reply = some value) ∧
        ∀ part, part <+: during → ∀ later after,
          (point.extend (request :: part)).answer? first (.read id) later
            after = some (.ok (.value value))

section Holds

variable {point : LatchPoint α} {first : List α}

theorem base_eq (hfree : point.NeverWaited first.length) :
    point.base first =
      { values := first.mapIdx (lastWritten (writesOfRounds point.before)) } :=
  performRounds_eq { values := first } rfl hfree.before

theorem length_base (hfree : point.NeverWaited first.length) :
    ((point.base first).setAll point.settings).values.length =
      first.length := by
  rw [length_setAll, base_eq hfree, List.length_mapIdx]

theorem tracks_base (hfree : point.NeverWaited first.length) :
    ((point.base first).setAll point.settings).Tracks [] :=
  tracks_setAll _ (by rw [base_eq hfree]) point.settings

theorem tracks (hfree : point.NeverWaited first.length) :
    (point.table first).Tracks point.earlier := by
  apply (tracks_base hfree).performAll
  rw [length_base hfree]
  exact hfree.earlier

theorem values_table (hfree : point.NeverWaited first.length) :
    (point.table first).values = point.values first := by
  have hearlier : NeverWait
      ((point.base first).setAll point.settings).values.length []
        point.earlier := by
    rw [length_base hfree]
    exact hfree.earlier
  rw [table, (tracks_base hfree).values_performAll hearlier, values_setAll,
    base_eq hfree, mapIdx_lastWritten_append, mapIdx_lastWritten_append]
  rfl

theorem length_table (hfree : point.NeverWaited first.length) :
    (point.table first).values.length = first.length := by
  rw [values_table hfree, values, List.length_mapIdx]

theorem table_extend (more : List (LatchRequest α)) :
    (point.extend more).table first =
      ((point.table first).performAll more).1 := by
  rw [table, extend, performAll_append]
  rfl

theorem answer?_eq (request : LatchRequest α) (later : List (LatchRequest α))
    (after : List (LatchRound α)) :
    point.answer? first request later after =
      some (((point.table first).perform request).map (·.2)) := by
  rw [answer?, rounds, replies_performRounds_append,
    List.getElem?_append_right (Nat.le_of_eq (length_replies_performRounds _ _)),
    length_replies_performRounds, Nat.sub_self]
  change (performAll ((point.base first).setAll point.settings)
    (point.earlier ++ request :: later)).2[point.earlier.length]? = _
  rw [performAll_append,
    List.getElem?_append_right (Nat.le_of_eq (length_replies_performAll _ _)),
    length_replies_performAll, Nat.sub_self, performAll_cons]
  rfl

theorem stable (hfree : point.NeverWaited first.length)
    {request : LatchRequest α} {id : Int} {latch : Nat}
    {during : List (LatchRequest α)}
    (hasks : request.guardChange? = some (id, some ⟨latch, .shared⟩))
    (hduring : NeverWait first.length point.earlier (request :: during))
    (hkept : ∀ other ∈ during, ∀ change,
      other.guardChange? ≠ some (id, change)) :
    ∃ value,
      (∀ later after, ∃ reply,
        point.answer? first request later after = some (.ok reply) ∧
          shown? reply = some value) ∧
      ∀ part, part <+: during → ∀ later after,
        (point.extend (request :: part)).answer? first (.read id) later
          after = some (.ok (.value value)) := by
  have htracks := tracks hfree
  rw [← length_table hfree] at hduring
  obtain ⟨hsuits, hlater⟩ := hduring
  obtain ⟨reply, value, hgranted, hvalue, hshown⟩ := hsuits.exists_granted hasks
  have hmid := htracks.step hsuits
  have hheld : heldAfter (point.earlier ++ [request]) id =
      some ⟨latch, .shared⟩ := by
    rw [heldAfter_of_change hasks, if_pos rfl]
  refine ⟨value, fun later after => ⟨reply, ?_, hshown⟩, ?_⟩
  · rw [answer?_eq, htracks.perform_of_granted hgranted]
    rfl
  · rintro part ⟨rest, rfl⟩ later after
    rw [← htracks.length_after request] at hlater
    have hpart := hlater.of_append
    obtain ⟨hend, hsame⟩ := hmid.value_performAll hheld hpart
      fun other hother => hkept other (List.mem_append_left rest hother)
    rw [htracks.values_after_of_change hasks] at hsame
    have hread := (hmid.performAll hpart).perform_of_granted
      (.read hend (hsame.trans hvalue))
    rw [answer?_eq, table_extend, performAll_cons, hread]
    rfl

theorem holds (hfree : point.NeverWaited first.length) : point.Holds first := by
  have htracks := tracks hfree
  have hvalues := values_table hfree
  constructor
  · exact htracks.lookup
  · exact htracks.distinct
  · exact htracks.modes_eq
  · exact hvalues
  · intro request later after
    exact ⟨_, answer?_eq request later after,
      hvalues ▸ htracks.due_answer request⟩
  · intro request error hfails
    rw [← length_table hfree] at hfails
    rw [table_extend, performAll_cons]
    exact htracks.after_of_fails hfails
  · exact fun _ _ _ _ => stable hfree

end Holds

end LatchPoint

namespace LatchTable

/-- As long as no request has to wait, the latches do their work at every point
of any rounds, and in the end all latches are free and each has the last value
written to it. -/
theorem rounds_keep_latch_discipline (first : List α) :
    (∀ point : LatchPoint α, point.NeverWaited first.length →
        point.Holds first) ∧
      ∀ rounds : List (LatchRound α),
        (∀ round ∈ rounds, round.NeverWaits first.length) →
          (performRounds { values := first } rounds).1 =
            { values := first.mapIdx (lastWritten (writesOfRounds rounds)) } :=
  ⟨fun _ hfree => LatchPoint.holds hfree,
    fun _ hrounds => performRounds_eq { values := first } rfl hrounds⟩

/-- A latch is taken exclusively twice, one after the other.  A write through a
shared guard fails, and what was written in vain is not there in the end. -/
theorem rounds_keep_latch_discipline_past_refused_write :
    ∃ point : LatchPoint Nat, point.NeverWaited [10, 20].length ∧
      (point.table [10, 20]).modes 0 = [.shared] ∧
        (point.table [10, 20]).modes 1 = [.exclusive] ∧
        point.values [10, 20] = [5, 22] ∧
        (point.extend [.write 4 99]).table [10, 20] = point.table [10, 20] ∧
        performRounds { values := [10, 20] }
            (point.rounds [.write 4 99, .read 4, .latchOf 3] []) =
          ({ values := [5, 22] },
            [[.ok (.acquired true 11), .ok .done, .ok (.acquired true 11),
              .ok .done],
            [.ok (.value 21), .ok .done, .ok (.acquired false 5),
              .error .sharedWrite, .ok (.value 5), .ok (.latch 1)]]) := by
  let point : LatchPoint Nat := {
    before := [⟨[(0, 11)], [.acquire 1 0 .exclusive, .release 1,
      .acquire 2 0 .exclusive, .write 2 5]⟩]
    settings := [(1, 21)]
    earlier := [.lock 3 1 .exclusive, .write 3 22, .acquire 4 0 .shared] }
  obtain ⟨hpoints, hfinal⟩ := rounds_keep_latch_discipline [10, 20]
  have hfree : point.NeverWaited 2 := ⟨by decide, by decide⟩
  have hholds := hpoints point hfree
  have hfails : Fails 2 point.earlier (.write 4 99) .sharedWrite :=
    .sharedWrite rfl
  have hvalues : point.values [10, 20] = [5, 22] := by decide
  have hrun := hfinal (point.rounds [.write 4 99, .read 4, .latchOf 3] [])
    (by decide)
  exact ⟨point, hfree, rfl, rfl, hvalues, hholds.unchanged _ _ hfails,
    Prod.ext (hrun.trans rfl) rfl⟩

end LatchTable

end LatchTree

import LatchTree.Proofs.Latch.History

/-!
# Requests for latched values

The guards in a table are those that the requests before have left, and they go
together: a latch with an exclusive guard has no other guard.  A request gets the
answer that is due to it.  If it fails it changes nothing, and otherwise it
changes the guards or writes a value as its history says.  So what a guard shows
is the last value written to its latch, and what a shared guard shows does not
change while it is held.
-/

namespace LatchTree

open LatchRequest

variable {α : Type}

namespace LatchTable

/-! ## Values -/

def setAll (table : LatchTable α) (settings : List (Nat × α)) : LatchTable α :=
  settings.foldl (fun table (latch, value) => table.setValue latch value) table

theorem mapIdx_lastWritten_nil (values : List α) :
    values.mapIdx (lastWritten []) = values := by
  refine List.ext_getElem? fun latch => ?_
  rw [List.getElem?_mapIdx]
  cases values[latch]? <;> rfl

theorem mapIdx_lastWritten_append (values : List α)
    (writes later : List (Nat × α)) :
    (values.mapIdx (lastWritten writes)).mapIdx (lastWritten later) =
      values.mapIdx (lastWritten (writes ++ later)) := by
  rw [List.mapIdx_mapIdx]
  refine congrArg (List.mapIdx · values) ?_
  funext latch first
  exact (lastWritten_append writes later latch first).symm

section Values

variable (table : LatchTable α)

theorem values_setValue (latch : Nat) (value : α) :
    (table.setValue latch value).values =
      table.values.mapIdx (lastWritten [(latch, value)]) := by
  refine List.ext_getElem? fun other => ?_
  rw [setValue, List.getElem?_set, List.getElem?_mapIdx]
  by_cases hlatch : latch = other
  · subst hlatch
    by_cases hlt : latch < table.values.length
    · simp [hlt, lastWritten_singleton]
    · simp [hlt]
  · cases table.values[other]? <;> simp [hlatch, lastWritten_singleton]

theorem values_setAll (settings : List (Nat × α)) :
    (table.setAll settings).values =
      table.values.mapIdx (lastWritten settings) := by
  induction settings generalizing table with
  | nil => exact (mapIdx_lastWritten_nil table.values).symm
  | cons setting rest ih =>
      change ((table.setValue setting.1 setting.2).setAll rest).values = _
      rw [ih, values_setValue, mapIdx_lastWritten_append]
      rfl

theorem guards_setAll (settings : List (Nat × α)) :
    (table.setAll settings).guards = table.guards := by
  induction settings generalizing table with
  | nil => rfl
  | cons setting rest ih => exact ih (table.setValue setting.1 setting.2)

end Values

/-! ## Guards -/

def hold (table : LatchTable α) (id : Int) (g : LatchGuard) : LatchTable α :=
  { table with guards := (id, g) :: (table.release id).guards }

theorem lookup_release (table : LatchTable α) (id other : Int) :
    (table.release id).guards.lookup other =
      if id = other then none else table.guards.lookup other := by
  unfold release
  induction table.guards with
  | nil => simp
  | cons head rest ih =>
      obtain ⟨key, g⟩ := head
      by_cases hkey : key = id
      · subst hkey
        rw [List.filter_cons_of_neg (by simp), ih]
        by_cases hother : key = other
        · rw [if_pos hother, if_pos hother]
        · rw [if_neg hother, if_neg hother, List.lookup_cons,
            beq_eq_false_iff_ne.mpr (Ne.symm hother)]
      · rw [List.filter_cons_of_pos (by simpa using hkey), List.lookup_cons,
          List.lookup_cons, ih]
        by_cases hother : other = key
        · subst hother
          simp [Ne.symm hkey]
        · rw [beq_eq_false_iff_ne.mpr hother]

theorem lookup_hold (table : LatchTable α) (id : Int) (g : LatchGuard)
    (other : Int) :
    (table.hold id g).guards.lookup other =
      if id = other then some g else table.guards.lookup other := by
  rw [hold, List.lookup_cons, lookup_release]
  by_cases hother : id = other
  · rw [if_pos hother, if_pos hother, beq_iff_eq.mpr hother.symm]
  · rw [if_neg hother, if_neg hother,
      beq_eq_false_iff_ne.mpr (Ne.symm hother)]

/-- Two guards can be held at once: they belong to different latches, or both
are shared. -/
def Compatible (first second : Int × LatchGuard) : Prop :=
  first.2.latch = second.2.latch →
    first.2.mode = .shared ∧ second.2.mode = .shared

/-- The guards in the table are those that requests have left, each of them once.
They go together, and each belongs to a latch. -/
structure Tracks (table : LatchTable α) (earlier : List (LatchRequest α)) :
    Prop where
  lookup : ∀ id, table.guards.lookup id = heldAfter earlier id
  distinct : (table.guards.map (·.1)).Nodup
  compatible : table.guards.Pairwise Compatible
  known : ∀ g ∈ table.guards, g.2.latch < table.values.length

/-- The modes in which a latch is held. -/
def modes (table : LatchTable α) (latch : Nat) : List LatchMode :=
  (table.guards.filter (·.2.latch = latch)).map (·.2.mode)

theorem mem_modes {table : LatchTable α} {g : Int × LatchGuard}
    (hg : g ∈ table.guards) {latch : Nat} (hlatch : g.2.latch = latch) :
    g.2.mode ∈ table.modes latch :=
  List.mem_map_of_mem (List.mem_filter.mpr ⟨hg, decide_eq_true hlatch⟩)

theorem tracks_of_free {table : LatchTable α} (hfree : table.guards = []) :
    table.Tracks [] := by
  constructor <;> simp [hfree, heldAfter, lastWritten, withMark]

namespace Tracks

variable {table : LatchTable α} {earlier : List (LatchRequest α)}
  {request : LatchRequest α} {id : Int} {g : LatchGuard}

theorem mem_iff (htracks : table.Tracks earlier) :
    (id, g) ∈ table.guards ↔ heldAfter earlier id = some g := by
  rw [← htracks.lookup, List.lookup_eq_some_iff]
  constructor
  · intro hmem
    obtain ⟨before, after, hsplit⟩ := List.append_of_mem hmem
    refine ⟨before, after, hsplit, ?_⟩
    intro other hother
    have hdistinct := htracks.distinct
    rw [hsplit, List.map_append, List.nodup_append] at hdistinct
    have hne := hdistinct.2.2 other.1 (List.mem_map_of_mem hother) id (by simp)
    simpa using Ne.symm hne
  · rintro ⟨before, after, hsplit, _⟩
    rw [hsplit]
    exact List.mem_append_right _ List.mem_cons_self

theorem isAvailable_iff (htracks : table.Tracks earlier) {latch : Nat}
    {mode : LatchMode} :
    table.isAvailable latch mode = true ↔ Available earlier latch mode := by
  rw [available_iff]
  simp only [isAvailable, List.all_eq_true, Bool.or_eq_true, Bool.and_eq_true,
    beq_iff_eq, decide_eq_true_eq, ne_eq]
  constructor
  · intro hall id g hheld hlatch
    exact (hall (id, g) (htracks.mem_iff.mpr hheld)).resolve_left
      fun hne => hne hlatch
  · rintro hall ⟨id, g⟩ hmem
    by_cases hlatch : g.latch = latch
    · exact .inr (hall id g (htracks.mem_iff.mp hmem) hlatch)
    · exact .inl hlatch

theorem exists_value (htracks : table.Tracks earlier)
    (hheld : heldAfter earlier id = some g) :
    ∃ value, table.values[g.latch]? = some value :=
  ⟨_, List.getElem?_eq_getElem (htracks.known _ (htracks.mem_iff.mpr hheld))⟩

/-- A latch is free, or held by shared guards only, or by one exclusive guard. -/
theorem modes_eq (htracks : table.Tracks earlier) (latch : Nat) :
    table.modes latch = [.exclusive] ∨
      ∀ mode ∈ table.modes latch, mode = .shared := by
  have hpairwise : (table.modes latch).Pairwise
      (fun first second => first = .shared ∧ second = .shared) := by
    rw [modes, List.pairwise_map]
    refine (htracks.compatible.filter _).imp_of_mem fun {a b} ha hb hab => ?_
    have hfirst := of_decide_eq_true (List.mem_filter.mp ha).2
    have hsecond := of_decide_eq_true (List.mem_filter.mp hb).2
    exact hab (hfirst.trans hsecond.symm)
  cases hmodes : table.modes latch with
  | nil => exact .inr (by simp)
  | cons first rest =>
      rw [hmodes] at hpairwise
      cases rest with
      | nil => cases first <;> simp
      | cons second rest =>
          obtain ⟨hfirst, _⟩ := List.pairwise_cons.mp hpairwise
          refine .inr (List.forall_mem_cons.mpr ⟨?_, fun mode hmode => ?_⟩)
          · exact (hfirst second List.mem_cons_self).1
          · exact (hfirst mode hmode).2

/-! ## Steps that keep track -/

theorem release (htracks : table.Tracks earlier) (id : Int)
    (hchange : request.guardChange? = some (id, none)) :
    (table.release id).Tracks (earlier ++ [request]) where
  lookup := fun other => by
    rw [lookup_release, heldAfter_of_change hchange, htracks.lookup]
  distinct := htracks.distinct.sublist (List.filter_sublist.map _)
  compatible := htracks.compatible.filter _
  known := fun g hg => htracks.known g (List.mem_of_mem_filter hg)

theorem hold (htracks : table.Tracks earlier)
    (hchange : request.guardChange? = some (id, some g))
    (hlt : g.latch < table.values.length)
    (havailable : Available earlier g.latch g.mode) :
    (table.hold id g).Tracks (earlier ++ [request]) where
  lookup := fun other => by
    rw [lookup_hold, heldAfter_of_change hchange, htracks.lookup]
  distinct := by
    refine List.nodup_cons.mpr ⟨?_, ?_⟩
    · simp [LatchTable.release]
    · exact htracks.distinct.sublist (List.filter_sublist.map _)
  compatible := by
    refine List.pairwise_cons.mpr ⟨?_, htracks.compatible.filter _⟩
    rintro ⟨other, held⟩ hmem hlatch
    have hheld := htracks.mem_iff.mp (List.mem_of_mem_filter hmem)
    exact available_iff.mp havailable other held hheld hlatch.symm
  known := List.forall_mem_cons.mpr ⟨hlt, fun held hmem =>
    htracks.known held (List.mem_of_mem_filter hmem)⟩

/-- Whatever leaves the guards alone keeps track of requests that do. -/
theorem of_same_guards {next : LatchTable α} (htracks : table.Tracks earlier)
    (hguards : next.guards = table.guards)
    (hlength : next.values.length = table.values.length)
    (hheld : ∀ id,
      heldAfter (earlier ++ [request]) id = heldAfter earlier id) :
    next.Tracks (earlier ++ [request]) where
  lookup := fun id => by rw [hguards, htracks.lookup, hheld]
  distinct := hguards ▸ htracks.distinct
  compatible := hguards ▸ htracks.compatible
  known := by
    rw [hguards, hlength]
    exact htracks.known

end Tracks

/-! ## Single requests -/

/-- What a request that is granted does. -/
def grant (table : LatchTable α) : LatchRequest α → LatchTable α
  | .acquire id latch mode | .lock id latch mode => table.hold id ⟨latch, mode⟩
  | .release id => table.release id
  | .write id value =>
      match table.guards.lookup id with
      | some g => table.setValue g.latch value
      | none => table
  | .read _ | .latchOf _ => table

/-- The table after a request, which may have failed. -/
def after (table : LatchTable α) (request : LatchRequest α) : LatchTable α :=
  match table.perform request with
  | .ok (table, _) => table
  | .error _ => table

namespace Tracks

variable {table : LatchTable α} {earlier : List (LatchRequest α)}
  {request : LatchRequest α}

theorem guard_eq (htracks : table.Tracks earlier) {id : Int} {g : LatchGuard}
    (hheld : heldAfter earlier id = some g) : table.guard id = .ok g := by
  rw [LatchTable.guard, htracks.lookup, hheld]

theorem take_eq (htracks : table.Tracks earlier) (id : Int) {latch : Nat}
    {mode : LatchMode} {value : α} (hvalue : table.values[latch]? = some value)
    (havailable : Available earlier latch mode) :
    table.take id latch mode = .ok (table.hold id ⟨latch, mode⟩, value) := by
  have htaken := htracks.isAvailable_iff.mpr havailable
  simp only [take, LatchTable.value, hvalue, htaken, bind, Except.bind]
  rfl

/-- A request that is granted gets the reply that is due to it. -/
theorem perform_of_granted (htracks : table.Tracks earlier)
    {reply : LatchReply α}
    (hgranted : Granted earlier table.values request reply) :
    table.perform request = .ok (table.grant request, reply) := by
  cases hgranted with
  | @acquire _ _ mode _ hvalue havailable =>
      rw [perform, htracks.take_eq _ hvalue havailable]
      cases mode <;> rfl
  | lock hvalue havailable =>
      rw [perform, htracks.take_eq _ hvalue havailable]
      rfl
  | read hheld hvalue =>
      rw [perform, htracks.guard_eq hheld]
      simp only [bind, Except.bind, LatchTable.value, hvalue]
      rfl
  | write hheld =>
      rw [perform, htracks.guard_eq hheld, grant, htracks.lookup, hheld]
      rfl
  | latchOf hheld | release hheld =>
      rw [perform, htracks.guard_eq hheld]
      rfl

theorem take_of_unknown {latch : Nat} (hlatch : table.values.length ≤ latch)
    (id : Int) (mode : LatchMode) :
    table.take id latch mode = .error (.unknownLatch latch) := by
  rw [take, LatchTable.value, List.getElem?_eq_none hlatch]
  rfl

theorem take_of_unavailable (htracks : table.Tracks earlier) {latch : Nat}
    {mode : LatchMode} (hlt : latch < table.values.length)
    (hwaits : ¬ Available earlier latch mode) (id : Int) :
    table.take id latch mode = .error (.wouldWait latch) := by
  have hnot : table.isAvailable latch mode = false := by
    rw [← Bool.not_eq_true, htracks.isAvailable_iff]
    exact hwaits
  rw [take, LatchTable.value, List.getElem?_eq_getElem hlt]
  simp only [hnot, bind, Except.bind]
  rfl

theorem guard_of_none (htracks : table.Tracks earlier) {id : Int}
    (hnone : heldAfter earlier id = none) :
    table.guard id = .error (.unknownGuard id) := by
  rw [LatchTable.guard, htracks.lookup, hnone]

theorem perform_of_fails (htracks : table.Tracks earlier) {error : LatchError}
    (hfails : Fails table.values.length earlier request error) :
    table.perform request = .error error := by
  cases hfails with
  | unknownLatch hasks hlatch =>
      cases request <;> cases hasks <;> rw [perform, take_of_unknown hlatch] <;>
        rfl
  | wouldWait hasks hlt hwaits =>
      cases request <;> cases hasks <;>
        rw [perform, htracks.take_of_unavailable hlt hwaits] <;> rfl
  | unknownGuard hneeds hnone =>
      cases request <;> cases hneeds <;>
        rw [perform, htracks.guard_of_none hnone] <;> rfl
  | sharedWrite hheld =>
      rw [perform, htracks.guard_eq hheld]
      rfl

/-- Every request is granted or fails. -/
theorem exists_due (htracks : table.Tracks earlier)
    (request : LatchRequest α) :
    (∃ reply, Granted earlier table.values request reply) ∨
      ∃ error, Fails table.values.length earlier request error := by
  cases request with
  | acquire | lock => exact due_of_asks table.values rfl
  | read id =>
      cases hheld : heldAfter earlier id with
      | none => exact .inr ⟨_, .unknownGuard rfl hheld⟩
      | some g =>
          obtain ⟨value, hvalue⟩ := htracks.exists_value hheld
          exact .inl ⟨_, .read hheld hvalue⟩
  | write id value =>
      cases hheld : heldAfter earlier id with
      | none => exact .inr ⟨_, .unknownGuard rfl hheld⟩
      | some g =>
          obtain ⟨latch, mode⟩ := g
          cases mode with
          | shared => exact .inr ⟨_, .sharedWrite hheld⟩
          | exclusive => exact .inl ⟨_, .write hheld⟩
  | latchOf id =>
      cases hheld : heldAfter earlier id with
      | none => exact .inr ⟨_, .unknownGuard rfl hheld⟩
      | some g => exact .inl ⟨_, .latchOf hheld⟩
  | release id =>
      cases hheld : heldAfter earlier id with
      | none => exact .inr ⟨_, .unknownGuard rfl hheld⟩
      | some g => exact .inl ⟨_, .release hheld⟩

theorem due_answer (htracks : table.Tracks earlier)
    (request : LatchRequest α) :
    Due earlier table.values request ((table.perform request).map (·.2)) := by
  rcases htracks.exists_due request with ⟨reply, hgranted⟩ | ⟨error, hfails⟩
  · rw [htracks.perform_of_granted hgranted]
    exact hgranted
  · rw [htracks.perform_of_fails hfails]
    exact hfails

theorem after_of_granted (htracks : table.Tracks earlier)
    {reply : LatchReply α}
    (hgranted : Granted earlier table.values request reply) :
    table.after request = table.grant request := by
  rw [LatchTable.after, htracks.perform_of_granted hgranted]

theorem after_of_fails (htracks : table.Tracks earlier) {error : LatchError}
    (hfails : Fails table.values.length earlier request error) :
    table.after request = table := by
  rw [LatchTable.after, htracks.perform_of_fails hfails]

/-- What is in the latches after a request is what it has written there. -/
theorem values_after (htracks : table.Tracks earlier)
    (request : LatchRequest α) :
    (table.after request).values =
      table.values.mapIdx (lastWritten (write? earlier request).toList) := by
  rcases htracks.exists_due request with ⟨reply, hgranted⟩ | ⟨error, hfails⟩
  · rw [htracks.after_of_granted hgranted]
    cases hgranted with
    | write hheld =>
        rw [grant, htracks.lookup, write?, hheld]
        exact table.values_setValue _ _
    | acquire | lock | read | latchOf | release =>
        exact (mapIdx_lastWritten_nil table.values).symm
  · rw [htracks.after_of_fails hfails]
    have hnone : write? earlier request = none := by
      cases hfails with
      | unknownLatch hasks | wouldWait hasks => exact write?_of_change hasks
      | unknownGuard hneeds hnone =>
          cases request <;> cases hneeds <;> simp [write?, hnone]
      | sharedWrite hheld => rw [write?, hheld]
    rw [hnone]
    exact (mapIdx_lastWritten_nil table.values).symm

theorem values_after_of_change (htracks : table.Tracks earlier)
    {change : Int × Option LatchGuard}
    (hchange : request.guardChange? = some change) :
    (table.after request).values = table.values := by
  rw [htracks.values_after, write?_of_change hchange]
  exact mapIdx_lastWritten_nil table.values

theorem length_after (htracks : table.Tracks earlier)
    (request : LatchRequest α) :
    (table.after request).values.length = table.values.length := by
  rw [htracks.values_after, List.length_mapIdx]

/-- The guards are kept track of as long as no request has to wait. -/
theorem step (htracks : table.Tracks earlier)
    (hsuits : request.Suits table.values.length earlier) :
    (table.after request).Tracks (earlier ++ [request]) := by
  have hlength := htracks.length_after request
  rcases htracks.exists_due request with ⟨reply, hgranted⟩ | ⟨error, hfails⟩
  · rw [htracks.after_of_granted hgranted] at hlength ⊢
    cases hgranted with
    | acquire | lock => exact htracks.hold rfl hsuits.1 hsuits.2
    | release => exact htracks.release _ rfl
    | read | latchOf =>
        exact htracks.of_same_guards rfl hlength (heldAfter_of_none rfl)
    | write hheld =>
        refine htracks.of_same_guards ?_ hlength (heldAfter_of_none rfl)
        rw [grant, htracks.lookup, hheld]
        rfl
  · rw [htracks.after_of_fails hfails]
    cases hfails with
    | unknownLatch hasks hlatch =>
        have hlt := ((suits_iff_of_asks hasks).mp hsuits).1
        exact absurd hlt (Nat.not_lt.mpr hlatch)
    | wouldWait hasks _ hwaits =>
        exact absurd ((suits_iff_of_asks hasks).mp hsuits).2 hwaits
    | sharedWrite =>
        exact htracks.of_same_guards rfl rfl (heldAfter_of_none rfl)
    | @unknownGuard request id hneeds hnone =>
        refine htracks.of_same_guards rfl rfl fun other => ?_
        cases request with
        | acquire | lock => cases hneeds
        | read | write | latchOf => exact heldAfter_of_none rfl other
        | release =>
            cases hneeds
            rw [heldAfter_of_change rfl]
            by_cases hother : id = other
            · rw [if_pos hother, ← hother, hnone]
            · rw [if_neg hother]

end Tracks

/-! ## Sequences of requests -/

section PerformAll

variable (table : LatchTable α)

theorem performAll_cons (request : LatchRequest α)
    (rest : List (LatchRequest α)) :
    table.performAll (request :: rest) =
      (((table.after request).performAll rest).1,
        (table.perform request).map (·.2) ::
          ((table.after request).performAll rest).2) := by
  rw [performAll, after]
  cases table.perform request <;> rfl

theorem performAll_append (earlier later : List (LatchRequest α)) :
    table.performAll (earlier ++ later) =
      (((table.performAll earlier).1.performAll later).1,
        (table.performAll earlier).2 ++
          ((table.performAll earlier).1.performAll later).2) := by
  induction earlier generalizing table with
  | nil => rfl
  | cons request rest ih =>
      rw [List.cons_append, performAll_cons, performAll_cons, ih]
      rfl

theorem length_replies_performAll (requests : List (LatchRequest α)) :
    (table.performAll requests).2.length = requests.length := by
  induction requests generalizing table with
  | nil => rfl
  | cons request rest ih =>
      rw [performAll_cons]
      exact congrArg (· + 1) (ih (table.after request))

end PerformAll

namespace Tracks

variable {table : LatchTable α} {earlier requests : List (LatchRequest α)}

theorem performAll (htracks : table.Tracks earlier)
    (hfree : NeverWait table.values.length earlier requests) :
    (table.performAll requests).1.Tracks (earlier ++ requests) := by
  induction requests generalizing table earlier with
  | nil =>
      rw [List.append_nil]
      exact htracks
  | cons request rest ih =>
      rw [performAll_cons, List.append_cons]
      apply ih (htracks.step hfree.1)
      rw [htracks.length_after]
      exact hfree.2

theorem values_performAll (htracks : table.Tracks earlier)
    (hfree : NeverWait table.values.length earlier requests) :
    (table.performAll requests).1.values =
      table.values.mapIdx (lastWritten (writesOf earlier requests)) := by
  induction requests generalizing table earlier with
  | nil => exact (mapIdx_lastWritten_nil table.values).symm
  | cons request rest ih =>
      have hrest : NeverWait (table.after request).values.length
          (earlier ++ [request]) rest := by
        rw [htracks.length_after]
        exact hfree.2
      rw [performAll_cons, ih (htracks.step hfree.1) hrest,
        htracks.values_after, mapIdx_lastWritten_append, writesOf]

/-! ## Shared guards -/

/-- While a latch is held shared, no request writes to it. -/
theorem write?_elsewhere (htracks : table.Tracks earlier) {id : Int}
    {latch : Nat} (hheld : heldAfter earlier id = some ⟨latch, .shared⟩)
    {request : LatchRequest α} {written : Nat × α}
    (hwrite : write? earlier request = some written) : written.1 ≠ latch := by
  rintro rfl
  have hexclusive : .exclusive ∈ table.modes written.1 := by
    unfold write? at hwrite
    split at hwrite
    next writer value =>
      split at hwrite
      next latch hwriter =>
        cases hwrite
        exact mem_modes (htracks.mem_iff.mpr hwriter) rfl
      next => cases hwrite
    next => cases hwrite
  have hshared := mem_modes (htracks.mem_iff.mpr hheld) rfl
  rcases htracks.modes_eq written.1 with hone | hall
  · rw [hone, List.mem_singleton] at hshared
    cases hshared
  · cases hall _ hexclusive

theorem value_after (htracks : table.Tracks earlier) {id : Int} {latch : Nat}
    (hheld : heldAfter earlier id = some ⟨latch, .shared⟩)
    (request : LatchRequest α) :
    (table.after request).values[latch]? = table.values[latch]? := by
  rw [htracks.values_after, List.getElem?_mapIdx]
  have hkept : ∀ value,
      lastWritten (write? earlier request).toList latch value = value := by
    intro value
    cases hwrite : write? earlier request with
    | none => rfl
    | some written =>
        have hne := htracks.write?_elsewhere hheld hwrite
        rw [Option.toList_some, lastWritten_singleton, if_neg hne]
  cases table.values[latch]? with
  | none => rfl
  | some value => exact congrArg some (hkept value)

/-- What a shared guard shows does not change until the guard is released. -/
theorem value_performAll (htracks : table.Tracks earlier) {id : Int}
    {latch : Nat} (hheld : heldAfter earlier id = some ⟨latch, .shared⟩)
    (hfree : NeverWait table.values.length earlier requests)
    (hkept : ∀ other ∈ requests, ∀ change,
      other.guardChange? ≠ some (id, change)) :
    heldAfter (earlier ++ requests) id = some ⟨latch, .shared⟩ ∧
      (table.performAll requests).1.values[latch]? = table.values[latch]? := by
  induction requests generalizing table earlier with
  | nil =>
      rw [List.append_nil]
      exact ⟨hheld, rfl⟩
  | cons request rest ih =>
      obtain ⟨hfirst, hrest⟩ := List.forall_mem_cons.mp hkept
      have hstill : heldAfter (earlier ++ [request]) id =
          some ⟨latch, .shared⟩ :=
        (heldAfter_of_other hfirst).trans hheld
      have hlater : NeverWait (table.after request).values.length
          (earlier ++ [request]) rest := by
        rw [htracks.length_after]
        exact hfree.2
      obtain ⟨hend, hvalue⟩ := ih (htracks.step hfree.1) hstill hlater hrest
      rw [performAll_cons, List.append_cons]
      exact ⟨hend, hvalue.trans (htracks.value_after hheld request)⟩

end Tracks

end LatchTable

end LatchTree

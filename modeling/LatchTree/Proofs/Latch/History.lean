import LatchTree.Latch.Table
import LatchTree.Proofs.Marks

/-!
# What requests for latched values come to

A round begins without guards.  Which guards are held later on, what has been
written and which answer is due to a request is told here by the requests before
it alone, as long as none of them had to wait.  No table is looked at.
-/

namespace LatchTree

variable {κ α : Type}

/-! ## The last of several values -/

/-- The last value that is written under a key, or the first value if there is
none. -/
def lastWritten [DecidableEq κ] (writes : List (κ × α)) (key : κ) (first : α) :
    α :=
  (withMark writes key).getLast?.getD first

section LastWritten

variable [DecidableEq κ]

theorem lastWritten_append (writes later : List (κ × α)) (key : κ) (first : α) :
    lastWritten (writes ++ later) key first =
      lastWritten later key (lastWritten writes key first) := by
  have hmarks : withMark (writes ++ later) key =
      withMark writes key ++ withMark later key := by
    simp [withMark]
  rw [lastWritten, hmarks, List.getLast?_append, lastWritten]
  cases (withMark later key).getLast? <;> rfl

theorem lastWritten_singleton (written key : κ) (value first : α) :
    lastWritten [(written, value)] key first =
      if written = key then value else first := by
  rw [lastWritten, withMark_cons]
  split <;> rfl

theorem mem_of_lastWritten_ne {writes : List (κ × α)} {key : κ} {first : α}
    (hne : lastWritten writes key first ≠ first) :
    (key, lastWritten writes key first) ∈ writes := by
  unfold lastWritten at *
  cases hlast : (withMark writes key).getLast? with
  | none => exact absurd (by rw [hlast]; rfl) hne
  | some value => exact mem_withMark.mp (List.mem_of_getLast? hlast)

end LastWritten

namespace LatchRequest

/-! ## Guards -/

/-- The number under which a request takes or releases a guard, and what is held
under it from then on. -/
def guardChange? : LatchRequest α → Option (Int × Option LatchGuard)
  | .acquire id latch mode | .lock id latch mode => some (id, some ⟨latch, mode⟩)
  | .release id => some (id, none)
  | .read _ | .write _ _ | .latchOf _ => none

/-- The guard that is held under a number after requests.  It was taken by the
last of them that took or released a guard under this number. -/
def heldAfter (earlier : List (LatchRequest α)) (id : Int) :
    Option LatchGuard :=
  lastWritten (earlier.filterMap guardChange?) id none

/-- A latch can be taken exclusively if it has no guard, and shared if it has no
exclusive guard. -/
def Available (earlier : List (LatchRequest α)) (latch : Nat) :
    LatchMode → Prop
  | .exclusive => ∀ id g, heldAfter earlier id = some g → g.latch ≠ latch
  | .shared => ∀ id, heldAfter earlier id ≠ some ⟨latch, .exclusive⟩

/-- A request for one of the latches that need not wait. -/
def Suits (size : Nat) (earlier : List (LatchRequest α)) :
    LatchRequest α → Prop
  | .acquire _ latch mode | .lock _ latch mode =>
      latch < size ∧ Available earlier latch mode
  | .read _ | .write _ _ | .latchOf _ | .release _ => True

/-- None of the requests has to wait for guards that were taken before it. -/
def NeverWait (size : Nat) :
    List (LatchRequest α) → List (LatchRequest α) → Prop
  | _, [] => True
  | earlier, request :: rest =>
      request.Suits size earlier ∧ NeverWait size (earlier ++ [request]) rest

/-! ## Writes -/

/-- The latch and the value that a request writes.  Only an exclusive guard
permits it. -/
def write? (earlier : List (LatchRequest α)) :
    LatchRequest α → Option (Nat × α)
  | .write id value =>
      match heldAfter earlier id with
      | some ⟨latch, .exclusive⟩ => some (latch, value)
      | _ => none
  | _ => none

def writesOf :
    List (LatchRequest α) → List (LatchRequest α) → List (Nat × α)
  | _, [] => []
  | earlier, request :: rest =>
      (write? earlier request).toList ++ writesOf (earlier ++ [request]) rest

/-! ## Answers -/

/-- The guard that a request needs. -/
def needs? : LatchRequest α → Option Int
  | .read id | .write id _ | .latchOf id | .release id => some id
  | .acquire _ _ _ | .lock _ _ _ => none

/-- The reply to a request that is granted.  The latches have the values that
are listed. -/
inductive Granted (earlier : List (LatchRequest α)) (values : List α) :
    LatchRequest α → LatchReply α → Prop
  | acquire {id : Int} {latch : Nat} {mode : LatchMode} {value : α} :
      values[latch]? = some value → Available earlier latch mode →
      Granted earlier values (.acquire id latch mode)
        (.acquired (mode = .exclusive) value)
  | lock {id : Int} {latch : Nat} {mode : LatchMode} {value : α} :
      values[latch]? = some value → Available earlier latch mode →
      Granted earlier values (.lock id latch mode) (.value value)
  | read {id : Int} {g : LatchGuard} {value : α} :
      heldAfter earlier id = some g → values[g.latch]? = some value →
      Granted earlier values (.read id) (.value value)
  | write {id : Int} {latch : Nat} {value : α} :
      heldAfter earlier id = some ⟨latch, .exclusive⟩ →
      Granted earlier values (.write id value) .done
  | latchOf {id : Int} {g : LatchGuard} :
      heldAfter earlier id = some g →
      Granted earlier values (.latchOf id) (.latch g.latch)
  | release {id : Int} {g : LatchGuard} :
      heldAfter earlier id = some g → Granted earlier values (.release id) .done

/-- The error of a request that fails. -/
inductive Fails (size : Nat) (earlier : List (LatchRequest α)) :
    LatchRequest α → LatchError → Prop
  | unknownLatch {request : LatchRequest α} {id : Int} {g : LatchGuard} :
      request.guardChange? = some (id, some g) → size ≤ g.latch →
      Fails size earlier request (.unknownLatch g.latch)
  | wouldWait {request : LatchRequest α} {id : Int} {g : LatchGuard} :
      request.guardChange? = some (id, some g) → g.latch < size →
      ¬ Available earlier g.latch g.mode →
      Fails size earlier request (.wouldWait g.latch)
  | unknownGuard {request : LatchRequest α} {id : Int} :
      request.needs? = some id → heldAfter earlier id = none →
      Fails size earlier request (.unknownGuard id)
  | sharedWrite {id : Int} {latch : Nat} {value : α} :
      heldAfter earlier id = some ⟨latch, .shared⟩ →
      Fails size earlier (.write id value) .sharedWrite

/-- The value that a reply shows. -/
def shown? : LatchReply α → Option α
  | .acquired _ value | .value value => some value
  | .latch _ | .done => none

/-- The answer that is due to a request. -/
def Due (earlier : List (LatchRequest α)) (values : List α)
    (request : LatchRequest α) : Except LatchError (LatchReply α) → Prop
  | .ok reply => Granted earlier values request reply
  | .error error => Fails values.length earlier request error

/-! ## Later requests -/

variable {earlier : List (LatchRequest α)} {request : LatchRequest α}
  {id : Int} {latch : Nat}

theorem heldAfter_of_change {change : Option LatchGuard}
    (hchange : request.guardChange? = some (id, change)) (other : Int) :
    heldAfter (earlier ++ [request]) other =
      if id = other then change else heldAfter earlier other := by
  rw [heldAfter, List.filterMap_append, lastWritten_append,
    List.filterMap_cons_some hchange, List.filterMap_nil, lastWritten_singleton]
  rfl

theorem heldAfter_of_none (hnone : request.guardChange? = none) (other : Int) :
    heldAfter (earlier ++ [request]) other = heldAfter earlier other := by
  rw [heldAfter, List.filterMap_append, List.filterMap_cons_none hnone,
    List.filterMap_nil, List.append_nil]
  rfl

theorem heldAfter_of_other
    (hother : ∀ change, request.guardChange? ≠ some (id, change)) :
    heldAfter (earlier ++ [request]) id = heldAfter earlier id := by
  cases hchange : request.guardChange? with
  | none => exact heldAfter_of_none hchange id
  | some named =>
      obtain ⟨other, change⟩ := named
      rw [heldAfter_of_change hchange, if_neg]
      rintro rfl
      exact hother change hchange

theorem NeverWait.of_append {size : Nat} {part rest : List (LatchRequest α)}
    (hfree : NeverWait size earlier (part ++ rest)) :
    NeverWait size earlier part := by
  induction part generalizing earlier with
  | nil => trivial
  | cons request part ih => exact ⟨hfree.1, ih hfree.2⟩

theorem suits_iff_of_asks {size : Nat} {g : LatchGuard}
    (hasks : request.guardChange? = some (id, some g)) :
    request.Suits size earlier ↔
      g.latch < size ∧ Available earlier g.latch g.mode := by
  cases request <;> cases hasks <;> rfl

theorem write?_of_change {change : Int × Option LatchGuard}
    (hchange : request.guardChange? = some change) :
    write? earlier request = none := by
  cases request <;> cases hchange <;> rfl

/-- A guard that is granted shows the value of its latch. -/
theorem Suits.exists_granted {values : List α} {g : LatchGuard}
    (hsuits : request.Suits values.length earlier)
    (hasks : request.guardChange? = some (id, some g)) :
    ∃ reply value, Granted earlier values request reply ∧
      values[g.latch]? = some value ∧ shown? reply = some value := by
  cases request with
  | acquire other latch mode =>
      cases hasks
      have hvalue := List.getElem?_eq_getElem hsuits.1
      exact ⟨_, _, .acquire hvalue hsuits.2, hvalue, rfl⟩
  | lock other latch mode =>
      cases hasks
      have hvalue := List.getElem?_eq_getElem hsuits.1
      exact ⟨_, _, .lock hvalue hsuits.2, hvalue, rfl⟩
  | read | write | latchOf | release => cases hasks

/-- A request for a guard is granted, unless it has to wait or there is no such
latch. -/
theorem due_of_asks {g : LatchGuard} (values : List α)
    (hasks : request.guardChange? = some (id, some g)) :
    (∃ reply, Granted earlier values request reply) ∨
      ∃ error, Fails values.length earlier request error := by
  by_cases hsuits : request.Suits values.length earlier
  · obtain ⟨reply, _, hgranted, _⟩ := hsuits.exists_granted hasks
    exact .inl ⟨reply, hgranted⟩
  · rw [suits_iff_of_asks hasks, not_and] at hsuits
    rcases Nat.lt_or_ge g.latch values.length with hlt | hge
    · exact .inr ⟨_, .wouldWait hasks hlt (hsuits hlt)⟩
    · exact .inr ⟨_, .unknownLatch hasks hge⟩

/-- Guards of one latch go together only if both are shared. -/
theorem available_iff {mode : LatchMode} :
    Available earlier latch mode ↔
      ∀ id g, heldAfter earlier id = some g → g.latch = latch →
        mode = .shared ∧ g.mode = .shared := by
  cases mode with
  | exclusive =>
      constructor
      · intro hfree id g hheld hlatch
        exact absurd hlatch (hfree id g hheld)
      · intro hall id g hheld hlatch
        exact nomatch (hall id g hheld hlatch).1
  | shared =>
      constructor
      · rintro hfree id ⟨other, mode⟩ hheld rfl
        cases mode with
        | shared => exact ⟨rfl, rfl⟩
        | exclusive => exact absurd hheld (hfree id)
      · intro hall id hheld
        exact nomatch (hall id _ hheld rfl).2

instance (mode : LatchMode) : Decidable (Available earlier latch mode) :=
  decidable_of_iff
    (∀ change ∈ earlier.filterMap guardChange?,
      ∀ g ∈ heldAfter earlier change.1, g.latch = latch →
        mode = .shared ∧ g.mode = .shared) <| by
    rw [available_iff]
    constructor
    · intro hall id g hheld
      have hne : heldAfter earlier id ≠ none := by simp [hheld]
      exact hall _ (mem_of_lastWritten_ne hne) g hheld
    · intro hall change _ g hheld
      exact hall change.1 g hheld

instance (size : Nat) : Decidable (request.Suits size earlier) :=
  match request with
  | .acquire _ latch mode | .lock _ latch mode =>
      inferInstanceAs (Decidable (latch < size ∧ Available earlier latch mode))
  | .read _ | .write _ _ | .latchOf _ | .release _ =>
      inferInstanceAs (Decidable True)

instance decidableNeverWait (size : Nat) (earlier : List (LatchRequest α)) :
    (requests : List (LatchRequest α)) →
      Decidable (NeverWait size earlier requests)
  | [] => inferInstanceAs (Decidable True)
  | request :: rest =>
      have := decidableNeverWait size (earlier ++ [request]) rest
      inferInstanceAs (Decidable (request.Suits size earlier ∧
        NeverWait size (earlier ++ [request]) rest))

end LatchRequest

end LatchTree

import LatchTree.Proofs.Marks
import LatchTree.Proofs.Session.Reference

/-!
# Requests on single keys

Some requests concern the value of one key.  Their replies depend on that value
alone, and they change no other one, so each key of a map is a register of its
own.  An insertion succeeds only where the key is absent, a removal only where it
is present, and either one turns the presence of its key around.  Among many
insertions of one key only the first one can succeed, and so it is with removals.
-/

namespace LatchTree

open Std

variable {V : Type}

inductive KeyAction (V : Type) where
  | insert (value : V)
  | remove
  | lookup
  | get
  | contains

structure KeyRequest (V : Type) where
  key : Key
  action : KeyAction V

namespace KeyAction

def reply (key : Key) (found : Option V) : KeyAction V → Reply V
  | .insert _ => if found.isSome then .refused (.alreadyExists key) else .done
  | .remove | .lookup =>
      match found with
      | some value => .value value
      | none => .refused (.notFound key)
  | .get => .optional found
  | .contains => .flag found.isSome

/-- The value of the key after the request. -/
def next (found : Option V) : KeyAction V → Option V
  | .insert value => found.or (some value)
  | .remove => none
  | _ => found

def changes : KeyAction V → Bool
  | .insert _ | .remove => true
  | _ => false

theorem next_of_not_changes {action : KeyAction V}
    (hreads : action.changes = false) (found : Option V) :
    action.next found = found := by
  cases action with
  | insert value => cases hreads
  | remove => cases hreads
  | _ => rfl

/-- The action succeeds only on keys of this presence, and turns it around. -/
inductive Flips : KeyAction V → Bool → Prop
  | insert (value : V) : Flips (.insert value) false
  | remove : Flips .remove true

/-- The name of the refusal where the presence is the other one. -/
def refusal : Bool → String
  | false => "AlreadyExists"
  | true => "NotFound"

theorem Flips.resultName {action : KeyAction V} {present : Bool}
    (hflips : action.Flips present) (key : Key) (found : Option V) :
    (action.reply key found).resultName =
      if found.isSome = present then "ok" else refusal present := by
  cases hflips <;> cases found <;> rfl

theorem Flips.isSome_next {action : KeyAction V} {present : Bool}
    (hflips : action.Flips present) (found : Option V) :
    (action.next found).isSome = !present := by
  cases hflips with
  | insert value => cases found <;> rfl
  | remove => rfl

end KeyAction

def KeyRequest.toMapRequest : KeyRequest V → MapRequest V
  | ⟨key, .insert value⟩ => .insert key value
  | ⟨key, .remove⟩ => .remove key
  | ⟨key, .lookup⟩ => .lookup key
  | ⟨key, .get⟩ => .get key
  | ⟨key, .contains⟩ => .contains key

/-! ## Replies of a map -/

namespace Reference

theorem reply_toMapRequest (map : Reference V) (request : KeyRequest V) :
    map.reply request.toMapRequest =
      request.action.reply request.key map[request.key]? := by
  obtain ⟨key, action⟩ := request
  cases action with
  | insert value =>
      simp only [KeyRequest.toMapRequest, reply, KeyAction.reply,
        TreeMap.contains_eq_isSome_getElem?]
  | contains =>
      simp only [KeyRequest.toMapRequest, reply, KeyAction.reply,
        TreeMap.contains_eq_isSome_getElem?]
  | _ => rfl

theorem getElem?_next (map : Reference V) (request : KeyRequest V)
    (key : Key) :
    (map.next request.toMapRequest)[key]? =
      if request.key = key then request.action.next map[key]?
      else map[key]? := by
  obtain ⟨changed, action⟩ := request
  have hcompare : compare changed key = .eq ↔ changed = key :=
    LawfulEqCmp.compare_eq_iff_eq
  cases action with
  | insert value =>
      simp only [KeyRequest.toMapRequest, next, KeyAction.next,
        TreeMap.contains_eq_isSome_getElem?]
      by_cases hkey : changed = key
      · subst hkey
        cases hfound : map[changed]? with
        | none => simp
        | some found => simp [hfound]
      · rw [if_neg hkey]
        split
        · rfl
        · rw [TreeMap.getElem?_insert, if_neg fun heq => hkey (hcompare.mp heq)]
  | remove =>
      simp only [KeyRequest.toMapRequest, next, KeyAction.next,
        TreeMap.getElem?_erase, hcompare]
  | _ => simp [KeyRequest.toMapRequest, next, KeyAction.next]

end Reference

/-! ## Many attempts at one key -/

/-- How the request on each key went. -/
def outcomes (requests : List (KeyRequest V)) (replies : List (Reply V)) :
    List (Key × String) :=
  (requests.map (·.key)).zip (replies.map (·.resultName))

/-- What becomes of so many attempts to turn the presence of a key around. -/
def verdicts (present starts : Bool) : Nat → List String
  | 0 => []
  | n + 1 =>
      (if starts = present then "ok" else KeyAction.refusal present) ::
        List.replicate n (KeyAction.refusal present)

theorem verdicts_succ_not (present : Bool) (n : Nat) :
    verdicts present (!present) n =
      List.replicate n (KeyAction.refusal present) := by
  cases n with
  | zero => rfl
  | succ n => cases present <;> rfl

theorem count_ok_verdicts (present starts : Bool) {n : Nat} (hn : 0 < n) :
    (verdicts present starts n).count "ok" =
      if starts = present then 1 else 0 := by
  have hrefused : (List.replicate (n - 1) (KeyAction.refusal present)).count
      "ok" = 0 := by
    rw [List.count_replicate]
    cases present <;> rfl
  obtain ⟨m, rfl⟩ := Nat.exists_eq_add_of_lt hn
  rw [Nat.zero_add, Nat.add_sub_cancel] at hrefused
  rw [Nat.zero_add, verdicts, List.count_cons, hrefused]
  cases present <;> cases starts <;> rfl

namespace Reference

variable {requests : List (KeyRequest V)} {present : Bool}

theorem length_replies (map : Reference V) (requests : List (MapRequest V)) :
    (map.replies requests).length = requests.length := by
  induction requests generalizing map with
  | nil => rfl
  | cons request rest ih =>
      rw [replies, List.length_cons, ih, List.length_cons]

theorem isSome_next (map : Reference V) {request : KeyRequest V}
    (hflips : request.action.Flips present) (key : Key) :
    (map.next request.toMapRequest)[key]?.isSome =
      if request.key = key then !present else map[key]?.isSome := by
  rw [getElem?_next]
  split
  · exact hflips.isSome_next _
  · rfl

theorem isSome_after (map : Reference V)
    (hflips : ∀ request ∈ requests, request.action.Flips present) (key : Key) :
    (map.after (requests.map (·.toMapRequest)))[key]?.isSome =
      if key ∈ requests.map (·.key) then !present else map[key]?.isSome := by
  induction requests generalizing map with
  | nil => rfl
  | cons request rest ih =>
      obtain ⟨hrequest, hrest⟩ := List.forall_mem_cons.mp hflips
      rw [List.map_cons, after, ih _ hrest, map.isSome_next hrequest,
        List.map_cons]
      by_cases hkey : request.key = key
      · simp [hkey]
      · simp [hkey, Ne.symm hkey]

/-- Only the first request on a key can succeed. -/
theorem withMark_outcomes (map : Reference V)
    (hflips : ∀ request ∈ requests, request.action.Flips present) (key : Key) :
    withMark (outcomes requests
        (map.replies (requests.map (·.toMapRequest)))) key =
      verdicts present map[key]?.isSome ((requests.map (·.key)).count key) := by
  induction requests generalizing map with
  | nil => rfl
  | cons request rest ih =>
      obtain ⟨hrequest, hrest⟩ := List.forall_mem_cons.mp hflips
      have hlater := ih (map.next request.toMapRequest) hrest
      rw [map.isSome_next hrequest] at hlater
      rw [outcomes] at hlater
      rw [outcomes, List.map_cons, List.map_cons, replies, List.map_cons,
        List.zip_cons_cons, withMark_cons, hlater, reply_toMapRequest,
        hrequest.resultName]
      by_cases hkey : request.key = key
      · -- From now on the presence is the one at which all attempts fail.
        subst hkey
        rw [if_pos rfl, if_pos rfl, verdicts_succ_not, List.count_cons_self,
          verdicts]
      · rw [if_neg hkey, if_neg hkey, List.count_cons_of_ne hkey]

end Reference

end LatchTree

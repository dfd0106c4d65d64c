import LatchTree.Key
import Mathlib.Data.List.Perm.Subperm
import Mathlib.Data.List.Sort

/-!
# Ascending entries and bounds

Entries with ascending keys behave like a map: a look-up finds exactly what
stands in the list, and the entries from a key on are those that a filter
selects.  Bounds admit an interval of keys; they are proper if the interval is
not empty.
-/

namespace LatchTree

/-- The keys of the entries ascend. -/
def Ascending {V : Type} (entries : List (Key × V)) : Prop :=
  entries.Pairwise fun a b => a.1 < b.1

namespace Key

theorem ascending_of_pairwise {keys : List Key}
    (hkeys : keys.Pairwise (· < ·)) : ascending keys = true := by
  induction keys with
  | nil => rfl
  | cons a rest ih =>
      cases rest with
      | nil => rfl
      | cons b rest =>
          have htail := List.pairwise_cons.mp hkeys
          have hab : a < b := htail.1 b List.mem_cons_self
          simp [ascending, hab, ih htail.2]

end Key

theorem filter_zero_le {V : Type} (entries : List (Key × V)) :
    entries.filter (0 ≤ ·.1) = entries :=
  List.filter_eq_self.mpr fun _ _ => decide_eq_true UInt64.zero_le

namespace Ascending

variable {V : Type} {entries : List (Key × V)}

theorem key_injective
    (hentries : Ascending entries) {a b : Key × V}
    (ha : a ∈ entries) (hb : b ∈ entries) (hkey : a.1 = b.1) :
    a = b := by
  induction entries with
  | nil => simp at ha
  | cons e rest ih =>
      obtain ⟨hhead, htail⟩ := List.pairwise_cons.mp hentries
      rcases List.mem_cons.mp ha with hae | hrestA
      · rcases List.mem_cons.mp hb with hbe | hrestB
        · rw [hae, hbe]
        · have := hhead b hrestB
          grind
      · rcases List.mem_cons.mp hb with hbe | hrestB
        · have := hhead a hrestA
          grind
        · exact ih htail hrestA hrestB

theorem lookup_eq_some_iff
    (hentries : Ascending entries) {key : Key} {value : V} :
    entries.lookup key = some value ↔ (key, value) ∈ entries := by
  induction entries with
  | nil => simp
  | cons e rest ih =>
      obtain ⟨hhead, htail⟩ := List.pairwise_cons.mp hentries
      obtain ⟨k, v⟩ := e
      by_cases hkey : key = k
      · subst hkey
        have hrest : (key, value) ∉ rest := by
          intro hmem
          have := hhead _ hmem
          grind
        simp [hrest, eq_comm]
      · have hbeq : (key == k) = false := by simpa using hkey
        simp [List.lookup_cons, hbeq, hkey, ih htail]

theorem lookup_isSome_iff
    (hentries : Ascending entries) {key : Key} :
    (entries.lookup key).isSome ↔ ∃ value, (key, value) ∈ entries := by
  rw [Option.isSome_iff_exists]
  exact exists_congr fun value => hentries.lookup_eq_some_iff

theorem takeWhile_lt_eq_filter
    (hentries : Ascending entries) (key : Key) :
    entries.takeWhile (·.1 < key) = entries.filter (·.1 < key) := by
  induction entries with
  | nil => rfl
  | cons e rest ih =>
      obtain ⟨hhead, htail⟩ := List.pairwise_cons.mp hentries
      by_cases hlt : e.1 < key
      · simp [hlt, ih htail]
      · have hnone : rest.filter (·.1 < key) = [] := by
          rw [List.filter_eq_nil_iff]
          intro a ha
          have := hhead a ha
          grind
        simp [hlt, hnone]

theorem dropWhile_lt_eq_filter
    (hentries : Ascending entries) (key : Key) :
    entries.dropWhile (·.1 < key) = entries.filter (key ≤ ·.1) := by
  induction entries with
  | nil => rfl
  | cons e rest ih =>
      obtain ⟨hhead, htail⟩ := List.pairwise_cons.mp hentries
      by_cases hlt : e.1 < key
      · have hnot : ¬ key ≤ e.1 := by grind
        simp [hlt, hnot, ih htail]
      · have hle : key ≤ e.1 := by grind
        have hall : rest.filter (key ≤ ·.1) = rest := by
          rw [List.filter_eq_self]
          intro a ha
          have := hhead a ha
          grind
        simp [hlt, hle, hall]

theorem append_iff {left right : List (Key × V)} :
    Ascending (left ++ right) ↔
      Ascending left ∧ Ascending right ∧
        ∀ a ∈ left, ∀ b ∈ right, a.1 < b.1 :=
  List.pairwise_append

theorem sublist {sub : List (Key × V)}
    (hentries : Ascending entries) (hsub : sub.Sublist entries) :
    Ascending sub :=
  List.Pairwise.sublist hsub hentries

theorem ext {other : List (Key × V)}
    (hentries : Ascending entries) (hother : Ascending other)
    (hmem : ∀ e, e ∈ entries ↔ e ∈ other) :
    entries = other := by
  have : Std.Antisymm fun a b : Key × V => a.1 < b.1 :=
    ⟨fun a b hab hba => by grind⟩
  have : Std.Irrefl fun a b : Key × V => a.1 < b.1 :=
    ⟨fun a hlt => by grind⟩
  exact List.Pairwise.eq_of_mem_iff hentries hother hmem

theorem length_le (hentries : Ascending entries) :
    entries.length ≤ UInt64.size := by
  have hnodup : (entries.map (·.1.toNat)).Nodup := by
    rw [List.Nodup, List.pairwise_map]
    exact hentries.imp fun hlt => Nat.ne_of_lt (UInt64.lt_iff_toNat_lt.mp hlt)
  have hsub : entries.map (·.1.toNat) ⊆ List.range UInt64.size := by
    intro n hn
    obtain ⟨e, _, rfl⟩ := List.mem_map.mp hn
    exact List.mem_range.mpr e.1.toNat_lt
  have hlength := (hnodup.subperm hsub).length_le
  rwa [List.length_map, List.length_range] at hlength

end Ascending

namespace Bounds

structure Admits (bounds : Bounds) (key : Key) : Prop where
  lower : ∀ lower ∈ bounds.lower, lower ≤ key
  upper : ∀ upper ∈ bounds.upper, key < upper

/-- There is room for a key between the bounds. -/
def Proper (bounds : Bounds) : Prop :=
  ∀ lower ∈ bounds.lower, ∀ upper ∈ bounds.upper, lower < upper

theorem all_admits (key : Key) : all.Admits key := by
  constructor <;> simp [all]

theorem all_proper : all.Proper := by
  simp [Proper, all]

theorem Admits.proper {bounds : Bounds} {key : Key}
    (hkey : bounds.Admits key) : bounds.Proper := by
  intro lower hlower upper hupper
  have := hkey.lower lower hlower
  have := hkey.upper upper hupper
  grind

theorem Proper.join {lower upper : Option Key} {separator : Key}
    (hleft : Proper ⟨lower, some separator⟩)
    (hright : Proper ⟨some separator, upper⟩) :
    Proper ⟨lower, upper⟩ := by
  intro a ha b hb
  have := hleft a ha separator rfl
  have := hright separator rfl b hb
  grind

theorem Admits.of_left {lower upper : Option Key} {separator key : Key}
    (hkey : Admits ⟨lower, some separator⟩ key)
    (hright : Proper ⟨some separator, upper⟩) :
    Admits ⟨lower, upper⟩ key := by
  refine ⟨hkey.lower, fun b hb => ?_⟩
  have := hkey.upper separator rfl
  have := hright separator rfl b hb
  grind

theorem Admits.of_right {lower upper : Option Key} {separator key : Key}
    (hkey : Admits ⟨some separator, upper⟩ key)
    (hleft : Proper ⟨lower, some separator⟩) :
    Admits ⟨lower, upper⟩ key := by
  refine ⟨fun a ha => ?_, hkey.upper⟩
  have := hleft a ha separator rfl
  have := hkey.lower separator rfl
  grind

theorem Admits.admitsBelow {bounds : Bounds} {key : Key}
    (hkey : bounds.Admits key) : bounds.admitsBelow key = true := by
  unfold Bounds.admitsBelow
  cases hlower : bounds.lower with
  | none => rfl
  | some lower => simpa using hkey.lower lower hlower

theorem Admits.admitsAbove {bounds : Bounds} {key : Key}
    (hkey : bounds.Admits key) : bounds.admitsAbove key = true := by
  unfold Bounds.admitsAbove
  cases hupper : bounds.upper with
  | none => rfl
  | some upper => simpa using hkey.upper upper hupper

end Bounds

end LatchTree

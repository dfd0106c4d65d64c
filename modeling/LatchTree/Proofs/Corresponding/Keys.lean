import LatchTree.Key
import Mathlib.Data.List.Forall2
import Mathlib.Data.Set.Defs

/-!
# Key maps

A key map sends the keys of a set to other keys and keeps their order.  Two
entries correspond under it if the key of the second is the image of the key of
the first and nothing else differs.  A search through a list that only compares
keys comes to the same place in corresponding lists.
-/

namespace LatchTree

/-- What the map does outside the set is of no account. -/
structure KeyMap where
  keys : Set Key
  map : Key → Key
  increasing : ∀ a ∈ keys, ∀ b ∈ keys, a < b → map a < map b

namespace KeyMap

instance : CoeFun KeyMap fun _ => Key → Key := ⟨map⟩

def identity : KeyMap where
  keys := Set.univ
  map := id
  increasing := fun _ _ _ _ hlt => hlt

/-- The first key is in the set, and the second one is its image. -/
structure Maps (g : KeyMap) (a b : Key) : Prop where
  mem : a ∈ g.keys
  image : b = g a

/-- The same with the key 0 sent to itself, be it in the set or not.  A new tree
begins with it, whatever keys come. -/
inductive MapsLow (g : KeyMap) : Key → Key → Prop
  | zero : MapsLow g 0 0
  | maps {a b : Key} : g.Maps a b → MapsLow g a b

structure MapsEntry {α : Type} (g : KeyMap) (e f : Key × α) : Prop where
  key : g.Maps e.1 f.1
  content : e.2 = f.2

variable {g : KeyMap} {a b c d : Key}

theorem maps_of_mem (ha : a ∈ g.keys) : g.Maps a (g a) :=
  ⟨ha, rfl⟩

theorem maps_identity (a : Key) : identity.Maps a a :=
  ⟨trivial, rfl⟩

namespace Maps

theorem lt_iff (hab : g.Maps a b) (hcd : g.Maps c d) : a < c ↔ b < d := by
  obtain ⟨ha, rfl⟩ := hab
  obtain ⟨hc, rfl⟩ := hcd
  constructor
  · exact g.increasing a ha c hc
  · intro hlt
    by_contra hnot
    rcases UInt64.le_iff_lt_or_eq.mp (UInt64.not_lt.mp hnot) with hgt | rfl
    · exact UInt64.lt_asymm hlt (g.increasing c hc a ha hgt)
    · exact UInt64.lt_irrefl _ hlt

theorem le_iff (hab : g.Maps a b) (hcd : g.Maps c d) : a ≤ c ↔ b ≤ d := by
  rw [← UInt64.not_lt, ← UInt64.not_lt, hcd.lt_iff hab]

theorem eq_iff (hab : g.Maps a b) (hcd : g.Maps c d) : a = c ↔ b = d := by
  rw [UInt64.le_antisymm_iff, UInt64.le_antisymm_iff, hab.le_iff hcd,
    hcd.le_iff hab]

theorem beq_eq (hab : g.Maps a b) (hcd : g.Maps c d) :
    (a == c) = (b == d) := by
  rw [Bool.eq_iff_iff, beq_iff_eq, beq_iff_eq, hab.eq_iff hcd]

theorem max (hab : g.Maps a b) (hcd : g.Maps c d) :
    g.Maps (max a c) (max b d) := by
  change g.Maps (if a ≤ c then c else a) (if b ≤ d then d else b)
  by_cases hle : a ≤ c
  · rw [if_pos hle, if_pos ((hab.le_iff hcd).mp hle)]
    exact hcd
  · rw [if_neg hle, if_neg fun h => hle ((hab.le_iff hcd).mpr h)]
    exact hab

end Maps

theorem MapsLow.lt_iff (hab : g.Maps a b) (hcd : g.MapsLow c d) :
    a < c ↔ b < d := by
  cases hcd with
  | zero => exact iff_of_false UInt64.not_lt_zero UInt64.not_lt_zero
  | maps hcd => exact hab.lt_iff hcd

theorem maps_identity_iff : identity.Maps a b ↔ a = b := by
  constructor
  · exact fun hmaps => hmaps.image.symm
  · rintro rfl
    exact maps_identity a

theorem mapsLow_identity_iff : identity.MapsLow a b ↔ a = b := by
  constructor
  · intro hmaps
    cases hmaps with
    | zero => rfl
    | maps hmaps => exact maps_identity_iff.mp hmaps
  · rintro rfl
    exact .maps (maps_identity a)

end KeyMap

/-! ## Related options and lists -/

section Options

variable {α β γ : Type} {R : α → β → Prop} {first : Option α}
  {second : Option β}

theorem isSome_eq_of_rel (hrel : Option.Rel R first second) :
    first.isSome = second.isSome := by
  cases hrel <;> rfl

theorem bind_eq_of_rel (hrel : Option.Rel R first second) {f : α → Option γ}
    {h : β → Option γ} (hagree : ∀ a b, R a b → f a = h b) :
    first.bind f = second.bind h := by
  cases hrel with
  | none => rfl
  | some hab => exact hagree _ _ hab

theorem all_eq_of_rel (hrel : Option.Rel R first second) {p : α → Bool}
    {q : β → Bool} (hagree : ∀ a b, R a b → p a = q b) :
    first.all p = second.all q := by
  cases hrel with
  | none => rfl
  | some hab => exact hagree _ _ hab

theorem rel_imp (hrel : Option.Rel R first second) {S : α → β → Prop}
    (himp : ∀ a b, R a b → S a b) : Option.Rel S first second := by
  cases hrel with
  | none => exact .none
  | some hab => exact .some (himp _ _ hab)

end Options

section Lists

variable {α β : Type} {R : α → β → Prop} {as : List α} {bs : List β}

theorem isEmpty_eq_of_forall₂ (hall : List.Forall₂ R as bs) :
    as.isEmpty = bs.isEmpty := by
  cases hall <;> rfl

theorem forall₂_takeWhile (hall : List.Forall₂ R as bs) {p : α → Bool}
    {q : β → Bool} (hagree : ∀ a b, R a b → p a = q b) :
    List.Forall₂ R (as.takeWhile p) (bs.takeWhile q) := by
  induction hall with
  | nil => exact .nil
  | @cons a b _ _ hab _ ih =>
      rw [List.takeWhile_cons, List.takeWhile_cons, hagree a b hab]
      split
      · exact .cons hab ih
      · exact .nil

theorem forall₂_dropWhile (hall : List.Forall₂ R as bs) {p : α → Bool}
    {q : β → Bool} (hagree : ∀ a b, R a b → p a = q b) :
    List.Forall₂ R (as.dropWhile p) (bs.dropWhile q) := by
  induction hall with
  | nil => exact .nil
  | @cons a b _ _ hab hrest ih =>
      rw [List.dropWhile_cons, List.dropWhile_cons, hagree a b hab]
      split
      · exact ih
      · exact .cons hab hrest

theorem forall₂_eraseP (hall : List.Forall₂ R as bs) {p : α → Bool}
    {q : β → Bool} (hagree : ∀ a b, R a b → p a = q b) :
    List.Forall₂ R (as.eraseP p) (bs.eraseP q) := by
  induction hall with
  | nil => exact .nil
  | @cons a b _ _ hab hrest ih =>
      rw [List.eraseP_cons, List.eraseP_cons, hagree a b hab]
      cases q b
      · exact .cons hab ih
      · exact hrest

theorem forall₂_getElem? (hall : List.Forall₂ R as bs) (i : Nat) :
    Option.Rel R as[i]? bs[i]? := by
  induction hall generalizing i with
  | nil => exact .none
  | cons hab _ ih =>
      cases i with
      | zero => exact .some hab
      | succ i => exact ih i

theorem forall₂_insertIdx (hall : List.Forall₂ R as bs) (i : Nat) {a : α}
    {b : β} (hab : R a b) :
    List.Forall₂ R (as.insertIdx i a) (bs.insertIdx i b) := by
  induction i generalizing as bs with
  | zero => exact .cons hab hall
  | succ i ih =>
      cases hall with
      | nil => exact .nil
      | cons hfirst hrest => exact .cons hfirst (ih hrest)

theorem forall₂_eraseIdx (hall : List.Forall₂ R as bs) (i : Nat) :
    List.Forall₂ R (as.eraseIdx i) (bs.eraseIdx i) := by
  induction hall generalizing i with
  | nil => exact .nil
  | cons hab hrest ih =>
      cases i with
      | zero => exact hrest
      | succ i => exact .cons hab (ih i)

theorem forall₂_modify (hall : List.Forall₂ R as bs) (i : Nat) {f : α → α}
    {h : β → β} (hmodify : ∀ a b, R a b → R (f a) (h b)) :
    List.Forall₂ R (as.modify i f) (bs.modify i h) := by
  induction hall generalizing i with
  | nil => cases i <;> exact .nil
  | cons hab hrest ih =>
      cases i with
      | zero => exact .cons (hmodify _ _ hab) hrest
      | succ i => exact .cons hab (ih i)

end Lists

/-! ## Lists of entries -/

namespace KeyMap

variable {α : Type} {g : KeyMap} {entries others : List (Key × α)}

def mapEntries (g : KeyMap) (entries : List (Key × α)) : List (Key × α) :=
  entries.map fun e => (g e.1, e.2)

theorem mapEntries_eq (hall : List.Forall₂ g.MapsEntry entries others) :
    g.mapEntries entries = others := by
  induction hall with
  | nil => rfl
  | @cons e f rest more hentry _ ih =>
      have hfirst : (g e.1, e.2) = f :=
        Prod.ext hentry.key.image.symm hentry.content
      calc
        g.mapEntries (e :: rest) = (g e.1, e.2) :: g.mapEntries rest := rfl
        _ = f :: more := by rw [hfirst, ih]

theorem mapsEntry_mapEntries (hkeys : ∀ e ∈ entries, e.1 ∈ g.keys) :
    List.Forall₂ g.MapsEntry entries (g.mapEntries entries) := by
  rw [mapEntries, List.forall₂_map_right_iff, List.forall₂_same]
  exact fun e he => ⟨maps_of_mem (hkeys e he), rfl⟩

theorem maps_map {keys : List Key} (hkeys : ∀ key ∈ keys, key ∈ g.keys) :
    List.Forall₂ g.Maps keys (keys.map g) := by
  rw [List.forall₂_map_right_iff, List.forall₂_same]
  exact fun key hkey => maps_of_mem (hkeys key hkey)

theorem mapEntries_identity (entries : List (Key × α)) :
    identity.mapEntries entries = entries :=
  List.map_id entries

theorem mapsEntry_identity_iff :
    List.Forall₂ identity.MapsEntry entries others ↔ entries = others := by
  constructor
  · intro hall
    rw [← mapEntries_eq hall, mapEntries_identity]
  · rintro rfl
    exact List.forall₂_same.mpr fun e _ => ⟨maps_identity e.1, rfl⟩

theorem lookup_eq (hall : List.Forall₂ g.MapsEntry entries others)
    {key other : Key} (hkey : g.Maps key other) :
    entries.lookup key = others.lookup other := by
  induction hall with
  | nil => rfl
  | @cons e f _ _ hentry _ ih =>
      rw [List.lookup_cons, List.lookup_cons, hkey.beq_eq hentry.key, ih,
        hentry.content]

end KeyMap

end LatchTree

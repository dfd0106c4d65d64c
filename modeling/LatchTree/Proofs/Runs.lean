import Mathlib.Data.List.Forall2

/-!
# Runs that may meet a fault

A run that ends well consists of parts that end well.  Two runs are in lockstep
if they meet the same fault or end with related results.  A run follows another
one if it ends well, with a related result, whenever the other one does; what
becomes of it otherwise is left open.  Both hold of two runs if they hold of
their parts.
-/

namespace LatchTree

theorem exists_of_bind_eq_ok {ε α β : Type} {x : Except ε α}
    {f : α → Except ε β} {b : β} (hbind : x >>= f = .ok b) :
    ∃ a, x = .ok a ∧ f a = .ok b := by
  cases x with
  | error fault => cases hbind
  | ok a => exact ⟨a, rfl, hbind⟩

theorem mapM_eq_ok {ε α β : Type} {f : α → Except ε β} {g : α → β} {l : List α}
    (hok : ∀ a ∈ l, f a = .ok (g a)) : l.mapM f = .ok (l.map g) := by
  induction l with
  | nil => rfl
  | cons a rest ih =>
      rw [List.mapM_cons, hok a List.mem_cons_self,
        ih fun b hb => hok b (List.mem_cons_of_mem _ hb)]
      rfl

/-- Two runs meet the same fault, or both end, with related results. -/
inductive Lockstep {ε α β : Type} (R : α → β → Prop) :
    Except ε α → Except ε β → Prop
  | error (fault : ε) : Lockstep R (.error fault) (.error fault)
  | ok {first : α} {second : β} :
      R first second → Lockstep R (.ok first) (.ok second)

namespace Lockstep

variable {ε α β γ δ : Type} {R : α → β → Prop} {S : γ → δ → Prop}
  {first : Except ε α} {second : Except ε β}

theorem bind (hrun : Lockstep R first second) {f : α → Except ε γ}
    {g : β → Except ε δ} (hnext : ∀ a b, R a b → Lockstep S (f a) (g b)) :
    Lockstep S (first >>= f) (second >>= g) := by
  cases hrun with
  | error fault => exact .error fault
  | ok hab => exact hnext _ _ hab

theorem refl {R : α → α → Prop} (hrefl : ∀ a, R a a) (run : Except ε α) :
    Lockstep R run run := by
  cases run with
  | error fault => exact .error fault
  | ok a => exact .ok (hrefl a)

theorem eq {second : Except ε α} (hrun : Lockstep Eq first second) :
    first = second := by
  cases hrun with
  | error fault => rfl
  | ok hab => rw [hab]

end Lockstep

/-- If the first run ends well, so does the second, with a related result. -/
inductive Follows {ε α β : Type} (R : α → β → Prop) :
    Except ε α → Except ε β → Prop
  | error (fault : ε) (second : Except ε β) : Follows R (.error fault) second
  | ok {first : α} {second : β} :
      R first second → Follows R (.ok first) (.ok second)

namespace Follows

variable {ε α β γ δ : Type} {R : α → β → Prop} {S : γ → δ → Prop}
  {first : Except ε α} {second : Except ε β}

/-- The next parts need to be related only for results that the first run
yields. -/
theorem bind_of_ok (hrun : Follows R first second) {f : α → Except ε γ}
    {g : β → Except ε δ}
    (hnext : ∀ a b, first = .ok a → R a b → Follows S (f a) (g b)) :
    Follows S (first >>= f) (second >>= g) := by
  cases hrun with
  | error fault => exact .error fault _
  | ok hab => exact hnext _ _ rfl hab

theorem bind (hrun : Follows R first second) {f : α → Except ε γ}
    {g : β → Except ε δ} (hnext : ∀ a b, R a b → Follows S (f a) (g b)) :
    Follows S (first >>= f) (second >>= g) :=
  hrun.bind_of_ok fun a b _ hab => hnext a b hab

theorem imp (hrun : Follows R first second) {R' : α → β → Prop}
    (himp : ∀ a b, R a b → R' a b) : Follows R' first second := by
  cases hrun with
  | error fault => exact .error fault _
  | ok hab => exact .ok (himp _ _ hab)

/-- A first part that is the same in both runs. -/
theorem bind_same (run : Except ε α) {f : α → Except ε γ} {g : α → Except ε δ}
    (hnext : ∀ a, run = .ok a → Follows S (f a) (g a)) :
    Follows S (run >>= f) (run >>= g) := by
  cases run with
  | error fault => exact .error fault _
  | ok a => exact hnext a rfl

theorem exists_ok (hrun : Follows R first second) {a : α}
    (hfirst : first = .ok a) : ∃ b, second = .ok b ∧ R a b := by
  cases hrun with
  | error fault => cases hfirst
  | @ok _ b hab =>
      cases hfirst
      exact ⟨b, rfl, hab⟩

theorem mapM {f : α → Except ε γ} {g : β → Except ε δ} {as : List α}
    {bs : List β}
    (hall : List.Forall₂ (fun a b => Follows S (f a) (g b)) as bs) :
    Follows (List.Forall₂ S) (as.mapM f) (bs.mapM g) := by
  induction hall with
  | nil => exact .ok .nil
  | @cons a b as bs hfirst _ ih =>
      rw [List.mapM_cons, List.mapM_cons]
      exact hfirst.bind fun c d hcd => ih.bind fun cs ds hrest =>
        .ok (.cons hcd hrest)

end Follows

end LatchTree

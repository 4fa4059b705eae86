import Mathlib.Data.Multiset.Bind
import Mathlib.Algebra.BigOperators.Group.Finset.Basic
import Mathlib.Algebra.Order.Group.Multiset

namespace Ledger

variable {κ ι : Type}

section Entries

variable [DecidableEq ι] (I : Finset ι) (t : ι → Option κ)

def entries : Multiset κ := ∑ i ∈ I, ((t i).toList : Multiset κ)

variable {I t} {i : ι} {k : κ}

theorem entries_fill (hi : i ∈ I) (ht : t i = none) :
    entries I (Function.update t i (some k)) = k ::ₘ entries I t := by
  have hrest : ∑ j ∈ I.erase i, ((Function.update t i (some k) j).toList : Multiset κ) =
      ∑ j ∈ I.erase i, ((t j).toList : Multiset κ) :=
    Finset.sum_congr rfl fun j hj => by rw [Function.update_of_ne (Finset.ne_of_mem_erase hj)]
  rw [entries, entries, ← Finset.add_sum_erase I _ hi, ← Finset.add_sum_erase I _ hi, hrest,
    Function.update_self, ht]
  simp

theorem entries_clear (hi : i ∈ I) (ht : t i = some k) :
    k ::ₘ entries I (Function.update t i none) = entries I t := by
  have hfill := entries_fill (t := Function.update t i none) (k := k) hi (Function.update_self i none t)
  rw [Function.update_idem, ← ht, Function.update_eq_self] at hfill
  exact hfill.symm

theorem mem_entries (hi : i ∈ I) (ht : t i = some k) : k ∈ entries I t := by
  rw [← entries_clear hi ht]
  exact Multiset.mem_cons_self _ _

omit [DecidableEq ι] in
theorem entries_eq_zero (h : ∀ i ∈ I, t i = none) : entries I t = 0 :=
  Finset.sum_eq_zero fun i hi => by rw [h i hi]; rfl

end Entries

/-- What is held, and what was given back without being held. -/
structure Holdings (κ : Type) where
  held : Multiset κ
  bad : List κ

namespace Holdings

variable [DecidableEq κ]

def empty : Holdings κ := ⟨0, []⟩

def take (h : Holdings κ) (k : κ) : Holdings κ := { h with held := k ::ₘ h.held }

def give (h : Holdings κ) (k : κ) : Holdings κ :=
  if k ∈ h.held then { h with held := h.held.erase k } else { h with bad := k :: h.bad }

def giveAll (h : Holdings κ) (l : List κ) : Holdings κ := l.foldl give h

variable (s : Multiset κ) (b : List κ) (k : κ) (l l' : List κ) (h : Holdings κ)

@[simp] theorem give_cons : give ⟨k ::ₘ s, b⟩ k = ⟨s, b⟩ := by
  simp [give]

theorem giveAll_append : h.giveAll (l ++ l') = (h.giveAll l).giveAll l' := List.foldl_append

theorem giveAll_add : giveAll ⟨(l : Multiset κ) + s, b⟩ l = ⟨s, b⟩ := by
  induction l with
  | nil => exact congrArg (Holdings.mk · b) (zero_add s)
  | cons k l ih =>
    have hcons (h : Holdings κ) : h.giveAll (k :: l) = (h.give k).giveAll l := rfl
    rw [hcons, ← Multiset.cons_coe, Multiset.cons_add, give_cons, ih]

end Holdings

end Ledger

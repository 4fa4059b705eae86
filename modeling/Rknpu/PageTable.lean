import Mathlib.Logic.Function.Basic

namespace PageTable

abbrev Table := Nat → Option Nat

/-- `n` pages from `q` on are mapped to the frames from `f` on. -/
def mapRun (q f n : Nat) (t : Table) : Table :=
  fun r => if q ≤ r ∧ r < q + n then some (f + (r - q)) else t r

/-- At most `n` pages from `q` on are unmapped, up to the first that is not mapped. -/
def unmapRun : Nat → Nat → Table → Table
  | 0, _, t => t
  | n + 1, q, t =>
    if t q = none then t else unmapRun n (q + 1) (Function.update t q none)

def clear (q n : Nat) (t : Table) : Table := fun r => if q ≤ r ∧ r < q + n then none else t r

def Free (t : Table) (q n : Nat) : Prop := ∀ r, q ≤ r → r < q + n → t r = none

/-- The second table has the `n` pages from `q` on, and is otherwise the first. -/
structure Extends (t t' : Table) (q n : Nat) : Prop where
  mapped : ∀ r, q ≤ r → r < q + n → t' r ≠ none
  other : ∀ r, ¬(q ≤ r ∧ r < q + n) → t' r = t r

variable {t t' t'' : Table} {q f n m k : Nat}

theorem Free.mono (h : Free t q n) (hq : q ≤ f) (hn : f + m ≤ q + n) : Free t f m :=
  fun r hr hr' => h r (by omega) (by omega)

theorem Extends.refl : Extends t t q 0 := ⟨fun _ _ _ => by omega, fun _ _ => rfl⟩

theorem Extends.eq (h : Extends t t' q 0) : t' = t := funext fun r => h.other r (by omega)

theorem extends_mapRun : Extends t (mapRun q f n t) q n where
  mapped r hr hr' := by simp [mapRun, hr, hr']
  other r hr := if_neg hr

theorem Extends.trans (h : Extends t t' q n) (h' : Extends t' t'' (q + n) m) :
    Extends t t'' q (n + m) where
  mapped r hr hr' := by
    by_cases hr'' : r < q + n
    · rw [h'.other r (by omega)]
      exact h.mapped r hr hr''
    · exact h'.mapped r (by omega) (by omega)
  other r hr := (h'.other r (by omega)).trans (h.other r (by omega))

theorem Extends.free (h : Extends t t' q n) (hf : Free t f m) (hapart : q + n ≤ f) :
    Free t' f m := fun r hr hr' => (h.other r (by omega)).trans (hf r hr hr')

theorem Extends.clear (h : Extends t t' q n) (hf : Free t q n) : PageTable.clear q n t' = t := by
  funext r
  by_cases hr : q ≤ r ∧ r < q + n
  · rw [PageTable.clear, if_pos hr, hf r hr.1 hr.2]
  · rw [PageTable.clear, if_neg hr, h.other r hr]

theorem unmapRun_eq (hmapped : ∀ r, q ≤ r → r < q + n → t r ≠ none) (hle : n ≤ k)
    (hstop : n < k → t (q + n) = none) : unmapRun k q t = clear q n t := by
  induction k generalizing q n t with
  | zero =>
    obtain rfl : n = 0 := by omega
    funext r
    exact (if_neg (by omega)).symm
  | succ k ih =>
    by_cases hn : n = 0
    · subst hn
      have hnone : t q = none := hstop (by omega)
      rw [unmapRun, if_pos hnone]
      funext r
      exact (if_neg (by omega)).symm
    · have hsome : t q ≠ none := hmapped q (Nat.le_refl q) (by omega)
      rw [unmapRun, if_neg hsome, ih (n := n - 1)]
      · funext r
        by_cases hr : r = q
        · subst hr
          simp [clear]
          omega
        · simp only [clear, Function.update_of_ne hr]
          congr 1
          exact propext ⟨fun h => ⟨by omega, by omega⟩, fun h => ⟨by omega, by omega⟩⟩
      · intro r hr hr'
        rw [Function.update_of_ne (by omega)]
        exact hmapped r (by omega) (by omega)
      · omega
      · intro hlt
        rw [Function.update_of_ne (by omega)]
        have := hstop (by omega)
        rwa [show q + 1 + (n - 1) = q + n by omega]

end PageTable

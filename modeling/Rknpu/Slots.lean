import Rknpu.CountsStep
import Rknpu.Moves

namespace Rknpu

open Interleaving

variable {P : Platform} {s s' : Dev} {B R : Multiset Stmt} {a : Stmt} {x : Int} {p : List Stmt}
  {j : JobId} {c : Nat}

/-- A core that has picked a job up keeps it in its slot until it releases it. -/
def Slotted (s : Dev) : Prop :=
  ∀ c j, s.log.count (.pickup c j) ≤
    (if s.slot c = some j then 1 else 0) + s.log.count (.release c j)

def Active (s : Dev) (B : Multiset Stmt) (j : JobId) (c : Nat) : Prop :=
  0 < load (commitW j c) B + onEngine s j c + reported s B j c + load (releaseW j c) B

namespace Active

theorem enqueued (hC : Counts s B) (h : Active s B j c) :
    0 < s.log.count (.enqueue j) ∧ (s.jobs j).runCount = 0 ∧ inMask (s.mask j) c := by
  have hlive := hC.live (j := j) (c := c) (by simp only [Active] at h; simp only [tokens]; omega)
  refine ⟨hlive.1, hlive.2, ?_⟩
  by_cases hr : 0 < load (commitW j c) B + onEngine s j c + load (jobDoneW j c) B +
      load (releaseW j c) B
  · exact hC.onCore j c hr
  · simp only [Active, reported] at h
    split at h
    · exact (hC.complete c j _ ‹_›).2.2
    · omega

theorem slot (hQ : Queued P s B) (hC : Counts s B) (hS : Slotted s) (h : Active s B j c) :
    s.slot c = some j := by
  obtain ⟨henq, hrun, hin⟩ := h.enqueued hC
  have hpick := hQ.all_picked henq hrun hin
  have hslot := hS c j
  have hone := hC.tokens_le_one j c
  simp only [Active] at h
  simp only [tokens] at hone
  by_contra hn
  rw [if_neg hn] at hslot
  omega

end Active

def Stmt.evicts : Stmt → Bool
  | .abortCores _ | .cancel _ _ => true
  | _ => false

namespace Slotted

theorem exec (hQ : Queued P s (a ::ₘ R)) (hC : Counts s (a ::ₘ R)) (hI : Slotted s)
    (ha : a.evicts = false) (h : Rknpu.exec P a x s = some (s', p)) : Slotted s' := by
  intro d i
  have hi := hI d i
  by_cases hp : ∃ c, a = .pickUp c
  · obtain ⟨c, rfl⟩ := hp
    obtain ⟨rfl, -⟩ | ⟨j, rest, hnone, -, -, -, hs, hl, -⟩ := pickUp_effect h
    · exact hi
    rw [hs, hl, List.count_append, List.count_append]
    by_cases hd : d = c
    · subst hd
      rw [hnone] at hi
      by_cases hij : j = i
      · simp [hij] at hi ⊢
        omega
      · simp [hij] at hi ⊢
        omega
    · rw [Function.update_of_ne hd]
      simp [Ne.symm hd]
      omega
  by_cases hr : ∃ j r c, a = .releaseCore j r c
  · obtain ⟨j, r, c, rfl⟩ := hr
    have hslot : s.slot c = some j := Active.slot hQ hC hI (by
      simp only [Active, load_cons, releaseW, and_self, if_true]
      omega)
    obtain ⟨-, -, -, hs, hl⟩ := releaseCore_effect h
    rw [hs, hl, List.count_append, List.count_append]
    by_cases hd : d = c
    · subst hd
      rw [hslot] at hi
      by_cases hij : j = i
      · simp [hij] at hi ⊢
        omega
      · simp [hij] at hi ⊢
        omega
    · rw [Function.update_of_ne hd]
      simp [Ne.symm hd]
      omega
  push Not at hp hr
  have hk : a.keepsSlot := by cases a <;> simp_all [Stmt.keepsSlot, Stmt.evicts]
  rw [exec_slot hk h, count_pickup (hp _) h, count_release (fun r => hr _ r _) h]
  exact hi

theorem occur {e : Occurrence} (hI : Slotted s) (h : Rknpu.occur P e s = some (s', p)) :
    Slotted s' := by
  intro d i
  rw [occur_slot h, occur_count h (by simp), occur_count h (by simp)]
  exact hI d i

theorem init : Slotted Dev.init := by
  simp [Slotted, Dev.init]

end Slotted

end Rknpu

import Rknpu.Done
import Rknpu.Gang
import Rknpu.Moves

namespace Rknpu

open Interleaving

variable {P : Platform} {s s' : Dev} {B R : Multiset Stmt} {a : Stmt} {x : Int} {p : List Stmt}
  {j : JobId}

/-- Stage `n` of the last `rknpu_job_done` leaves something behind for this job. -/
def Job.leaves (b : Job) : Nat → Bool
  | 1 | 2 => true
  | 4 => b.fence.isSome
  | 5 => b.async
  | _ => false

/-- The event that stage `n` leaves behind for job `j`. -/
def leftBy (n : Nat) (j : JobId) : Event → Bool
  | .domainPut i => n == 1 && i == j
  | .done i => n == 2 && i == j
  | .fenceSignal i => n == 4 && i == j
  | .scheduleWork i _ => n == 5 && i == j
  | _ => false

/-- Every stage leaves its event behind once, for a finished job that asks for it. -/
def Signals (s : Dev) (B : Multiset Stmt) : Prop :=
  ∀ n < 6, ∀ j, if (s.jobs j).leaves n then
    load (untilW n j) B + s.log.countP (leftBy n j) = finished s j
    else s.log.countP (leftBy n j) = 0

theorem leaves_congr {b b' : Job} (hf : b'.fence = b.fence) (ha : b'.async = b.async) (n : Nat) :
    b'.leaves n = b.leaves n := by
  unfold Job.leaves
  split <;> simp_all

theorem exec_leaves (ha : a.gang) (h : exec P a x s = some (s', p)) (n : Nat) (j : JobId) :
    (s'.jobs j).leaves n = (s.jobs j).leaves n := by
  refine leaves_congr (exec_get (f := .fence) ?_ h) (exec_get (f := .async) ?_ h) n
  · cases a <;> simp_all [Stmt.gang, Stmt.writes]
  · cases a <;> simp_all [Stmt.gang, Stmt.writes]

theorem stage_of_leftBy {n : Nat} {e : Event} (ha : a.gang) (hl : a.logs e) (he : leftBy n j e) :
    stage a = some (j, n) := by
  cases e <;> simp only [leftBy, Bool.and_eq_true, beq_iff_eq, Bool.false_eq_true] at he <;>
    obtain ⟨rfl, rfl⟩ := he <;>
    cases a <;> first | (cases ha; done) | (simp [Stmt.logs] at hl; done) | skip
  all_goals
    simp only [Stmt.logs, beq_iff_eq] at hl
    rw [stage, hl]

theorem exec_leftBy (ha : a.gang) (h : exec P a x s = some (s', p)) (n : Nat) (j : JobId) :
    s'.log.countP (leftBy n j) = s.log.countP (leftBy n j) +
      if stage a = some (j, n) ∧ (s.jobs j).leaves n then 1 else 0 := by
  by_cases hs : stage a = some (j, n)
  · cases a <;> simp only [stage, Option.some.injEq, Prod.mk.injEq, reduceCtorEq] at hs <;>
      obtain ⟨rfl, rfl⟩ := hs <;> cases h <;>
      simp only [Dev.record, Dev.setJob, Dev.scheduleWork, Job.leaves, stage] <;>
      (try split) <;> simp_all [leftBy]
  · obtain ⟨es, hl, hes⟩ := exec_logs h
    have hz : es.countP (leftBy n j) = 0 := List.countP_eq_zero.mpr fun e he hj =>
      hs (stage_of_leftBy ha (hes e he) hj)
    rw [hl, List.countP_append, hz, if_neg fun hn => hs hn.1]

namespace Signals

theorem exec (hQ : Queued P s (a ::ₘ R)) (hC : Counts s (a ::ₘ R)) (hE : Ends s (a ::ₘ R))
    (hI : Signals s (a ::ₘ R)) (ha : a.gang) (h : Rknpu.exec P a x s = some (s', p)) :
    Signals s' ((p : Multiset Stmt) + R) := by
  intro n hn j
  have hj := hI n hn j
  rw [exec_leaves ha h, exec_leftBy ha h]
  by_cases hl : (s.jobs j).leaves n
  · rw [if_pos hl] at hj ⊢
    have := leaves_exec hn hQ hC hE.spent h hj
    simpa only [hl, and_true] using this
  · rw [if_neg hl] at hj ⊢
    simp [hj, hl]

theorem occur {e : Occurrence} (hQ : Queued P s R) (hE : Ends s R) (hI : Signals s R)
    (h : Rknpu.occur P e s = some (s', p)) : Signals s' ((p : Multiset Stmt) + R) := by
  intro n hn j
  have hj := hI n hn j
  have hcnt : s'.log.countP (leftBy n j) = s.log.countP (leftBy n j) := by
    obtain ⟨es, hl, hes⟩ := occur_logs h
    have hz : es.countP (leftBy n j) = 0 := List.countP_eq_zero.mpr fun e he hj => by
      obtain ⟨_, _, _, rfl⟩ := hes e he
      cases hj
    rw [hl, List.countP_append, hz, Nat.add_zero]
  rw [occur_untilW n h, finished_occur hQ h, hcnt]
  by_cases hnew : e.spawns ∧ j = s.jobNum
  · -- a new job has not finished, whatever it asks for
    obtain ⟨-, rfl⟩ := hnew
    have hfresh := hQ.fresh s.jobNum le_rfl
    have hz := finished_of_not_enqueued (s := s) (j := s.jobNum) (by omega)
    have hu := hE.upto n hn s.jobNum
    have hleft : s.log.countP (leftBy n s.jobNum) = 0 := by
      split at hj <;> omega
    split <;> omega
  · have hsame : (s'.jobs j).leaves n = (s.jobs j).leaves n :=
      leaves_congr (occur_get (f := .fence) (fun he hn => hnew ⟨he, hn⟩) (by simp) h)
        (occur_get (f := .async) (fun he hn => hnew ⟨he, hn⟩) (by simp) h) n
    rwa [hsame]

theorem init : Signals Dev.init 0 := by
  intro n hn j
  simp [Dev.init, finished]

theorem reach {C : Conf Dev Stmt} (hC : Reach (driver P) (gangWorld P) Dev.init C) :
    Signals C.shared C.pending :=
  hC.invariant_with (fun s B => Queued P s B ∧ Counts s B ∧ Ends s B ∧ ∀ a ∈ B, a.gang) Signals
    (fun _ hC => ⟨Queued.reach hC, gangWorld_honest.counts hC, Ends.reach gangWorld_honest hC,
      gangWorld_gang hC⟩) init
    (fun _ _ a _ _ _ hJ hI _ h => hI.exec hJ.1 hJ.2.1 hJ.2.2.1
      (hJ.2.2.2 a (Multiset.mem_cons_self _ _)) h)
    (fun _ _ _ _ _ hJ hI _ h => hI.occur hJ.1 hJ.2.2.1 h)

end Signals

def Scheduled (s : Dev) (B : Multiset Stmt) : Prop :=
  ∀ j < s.jobNum, 0 < load (preW j) B + s.log.count (.enqueue j)

namespace Scheduled

theorem exec (hI : Scheduled s (a ::ₘ R)) (hd : ∀ j, a = .domainGet j → x = 0) (ha : a.gang)
    (h : Rknpu.exec P a x s = some (s', p)) : Scheduled s' ((p : Multiset Stmt) + R) := by
  intro j hj
  have hpre := hI j (exec_jobNum h ▸ hj)
  have hlog : s.log.count (.enqueue j) ≤ s'.log.count (.enqueue j) := (exec_log h).sublist.count_le _
  rw [load_cons] at hpre
  rw [load_add]
  by_cases hz : preW j a = 0
  · omega
  have hstep : 0 < load (preW j) (p : Multiset Stmt) + s'.log.count (.enqueue j) := by
    cases a <;> simp only [preW, ite_eq_right_iff, Nat.one_ne_zero, imp_false, not_not,
      not_true_eq_false, Stmt.gang, Bool.false_eq_true] at hz ha <;> subst hz
    case jobSchedule i =>
      simp only [Rknpu.exec, jobSchedule, Option.some.injEq] at h
      split at h <;> cases h <;> simp [preW]
    case selectCore i n t c =>
      obtain ⟨-, t', c', rfl, -⟩ | ⟨-, rfl⟩ := selectCore_effect h <;> simp [preW]
    case domainGet i =>
      obtain rfl := hd i rfl
      cases h
      simp [preW]
    case enqueue i =>
      obtain ⟨-, -, -, hl, -⟩ := enqueue_effect h
      simp [hl]
  omega

theorem occur {e : Occurrence} (hI : Scheduled s R) (he : (gangWorld P).env s R e)
    (h : Rknpu.occur P e s = some (s', p)) : Scheduled s' ((p : Multiset Stmt) + R) := by
  intro j hj
  have hcnt : s'.log.count (.enqueue j) = s.log.count (.enqueue j) := occur_count h (by simp)
  rw [load_add, hcnt]
  by_cases hs : e.spawns
  · cases e <;> simp only [Occurrence.spawns, Bool.false_eq_true] at hs
    case submit => exact absurd he id
    case schedule args fence =>
      cases h
      rcases Nat.lt_succ_iff_lt_or_eq.mp hj with hj | rfl
      · have := hI j hj
        omega
      · simp [preW]
  · have hn : s'.jobNum = s.jobNum := (occur_quiet (by simpa using hs) h).1.jobNum
    have := hI j (hn ▸ hj)
    omega

theorem reach {C : Conf Dev Stmt} (hC : Reach (driver P) (gangWorld P) Dev.init C) :
    Scheduled C.shared C.pending :=
  hC.invariant_with (fun _ B => ∀ a ∈ B, a.gang) Scheduled (fun _ hC => gangWorld_gang hC)
    (fun _ hj => absurd hj (Nat.not_lt_zero _))
    (fun _ _ _ _ _ _ hJ hI hG h => hI.exec hG (hJ _ (Multiset.mem_cons_self _ _)) h)
    (fun _ _ _ _ _ _ hI hG h => hI.occur hG h)

end Scheduled

end Rknpu

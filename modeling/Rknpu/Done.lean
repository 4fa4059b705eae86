import Rknpu.CountsStep
import Rknpu.Flow

namespace Rknpu

open Interleaving

variable {P : Platform} {s s' : Dev} {B B' R : Multiset Stmt} {a : Stmt} {x : Int} {p : List Stmt}
  {j : JobId} {c : Nat} {r : Int}

theorem exec_finishing (ha : stage a = none) (hi : ∀ j r c, a ≠ .interruptDec j r c)
    (h : exec P a x s = some (s', p)) : ∀ b ∈ p, stage b = none := by
  cases exec_flow h
  case interruptDecLast j r c => exact absurd rfl (hi j r c)
  case jobCommit j l =>
    intro b hb
    obtain ⟨c, -, rfl⟩ := List.mem_map.mp hb
    rfl
  all_goals
    intro b hb
    rcases hb with _ | ⟨_, _ | ⟨_, _ | ⟨_, ⟨⟩⟩⟩⟩ <;> first | rfl | cases ha

/-- The last `rknpu_job_done` goes from stage to stage. -/
theorem exec_stage {n : Nat} (ha : stage a = some (j, n)) (h : exec P a x s = some (s', p)) :
    ∃ b, p = [b] ∧ stage b = if n < 5 then some (j, n + 1) else none := by
  cases a <;> simp only [stage, Option.some.injEq, Prod.mk.injEq, reduceCtorEq] at ha <;>
    obtain ⟨rfl, rfl⟩ := ha <;> cases h <;> exact ⟨_, rfl, rfl⟩

theorem stage_le {n : Nat} (ha : stage a = some (j, n)) : n ≤ 5 := by
  cases a <;> simp only [stage, Option.some.injEq, Prod.mk.injEq, reduceCtorEq] at ha <;> omega

def fires (s : Dev) (j : JobId) : Stmt → Nat
  | .interruptDec i _ _ => if i = j ∧ (s.jobs i).interruptCount = 1 then 1 else 0
  | _ => 0

/-- Whoever has not passed a stage goes on to it, and only a last count-down joins them. -/
theorem exec_untilW (h : exec P a x s = some (s', p)) (n : Nat) (hn : n < 6) (j : JobId) :
    load (untilW n j) (p : Multiset Stmt) + (if stage a = some (j, n) then 1 else 0) =
      untilW n j a + fires s j a := by
  cases ha : stage a with
  | none =>
    by_cases hi : ∀ i r c, a ≠ .interruptDec i r c
    · have hz : load (untilW n j) (p : Multiset Stmt) = 0 := load_eq_zero _ fun b hb => by
        simp [untilW, exec_finishing ha hi h b (by simpa using hb)]
      have hf : fires s j a = 0 := by
        cases a with
        | interruptDec i r c => exact absurd rfl (hi i r c)
        | _ => rfl
      simp [hz, hf, untilW, ha]
    · push Not at hi
      obtain ⟨i, r, c, rfl⟩ := hi
      obtain ⟨rfl, rfl⟩ := interruptDec_effect h
      by_cases hone : (s.jobs i).interruptCount = 1 <;> simp [hone, untilW, stage, fires]
  | some q =>
    obtain ⟨i, m⟩ := q
    obtain ⟨b, rfl, hb⟩ := exec_stage ha h
    have hm := stage_le ha
    have hf : fires s j a = 0 := by
      cases a with
      | interruptDec i r c => cases ha
      | _ => rfl
    simp only [load_coe_cons, load_coe_nil, untilW, hb, ha, hf, Option.some.injEq, Prod.mk.injEq]
    by_cases hij : i = j
    · by_cases hlt : m < 5 <;> simp only [hij, hlt, true_and, if_true, if_false] <;>
        (repeat' split) <;> omega
    · by_cases hlt : m < 5 <;> simp [hij, hlt]

def finished (s : Dev) (j : JobId) : Nat :=
  if 0 < s.log.count (.enqueue j) ∧ 0 < (s.jobs j).useCoreNum ∧ (s.jobs j).interruptCount = 0
    then 1 else 0

theorem finished_of_not_enqueued (hj : s.log.count (.enqueue j) = 0) : finished s j = 0 := by
  rw [finished, if_neg (by omega)]

theorem interruptDec_pending (hC : Counts s (.interruptDec j r c ::ₘ R)) :
    0 < s.log.count (.enqueue j) := by
  by_contra hj
  have := hC.idle j (by omega)
  simp [interruptDecW] at this

theorem needs_of_released (hQ : Queued P s B) (hC : Counts s B)
    (h : 0 < s.log.count (.release c j)) : s.needs P c j := by
  have := hC.held j c
  exact hQ.needs_of_picked (by omega)

theorem nodup_releaseCores (hC : Counts s B) (j : JobId) : (releaseCores s.log j).Nodup := by
  rw [List.nodup_iff_count_le_one]
  intro c
  have := hC.tokens_le_one j c
  rw [count_releaseCores]
  simp only [tokens] at this
  omega

theorem inMask_of_mem_releaseCores (hQ : Queued P s B) (hC : Counts s B)
    (hc : c ∈ releaseCores s.log j) : inMask (s.mask j) c := by
  rw [← List.count_pos_iff, count_releaseCores] at hc
  exact (Bool.and_eq_true_iff.mp (needs_of_released hQ hC hc)).2

theorem interruptDec_le (hQ : Queued P s B) (hC : Counts s B) (hj : 0 < s.log.count (.enqueue j)) :
    (load (interruptDecW j) B : Int) ≤ (s.jobs j).interruptCount := by
  have h₁ := hC.ints j hj
  have h₂ := length_le_maskBits (nodup_releaseCores hC j) fun c hc =>
    inMask_of_mem_releaseCores hQ hC hc
  rw [hQ.width] at h₁
  omega

theorem exec_interruptDecs (ha : ∀ r c, a ≠ .releaseCore j r c) (h : exec P a x s = some (s', p)) :
    ∀ r c, .interruptDec j r c ∉ p := by
  intro r c hm
  by_cases hp : a.plain
  · exact absurd ((exec_calm hp h).2 _ hm) (by simp [Stmt.light])
  by_cases hs : ∃ i, a.submits i
  · obtain ⟨i, hi⟩ := hs
    obtain rfl | ⟨m, rfl⟩ | ⟨b, rfl, hb⟩ | ⟨r, rfl⟩ := (exec_submits hi h).2 <;> simp at hm
    subst hm
    cases hb
  cases a <;> simp_all [Stmt.plain, Stmt.light, Stmt.submits] <;>
    simp only [exec, jobSchedule, selectCore, domainGet, enqueue, pickUp, runDec, jobCommit,
      subcoreCommit, commitPc, jobDone, releaseCore, interruptDec, irqClear, Option.some.injEq] at h
  case pc g i d n => cases g <;> cases h <;> simp at hm
  all_goals
    repeat' split at h
    all_goals
      cases h
      try (repeat' split at hm)
      all_goals simp_all

/-- Every pending count-down belongs to a release. -/
def Spent (s : Dev) (B : Multiset Stmt) : Prop :=
  ∀ j, load (interruptDecW j) B ≤ (releaseCores s.log j).length

theorem releaseCores_length_le (h : s.log <+: s'.log) (j : JobId) :
    (releaseCores s.log j).length ≤ (releaseCores s'.log j).length := by
  obtain ⟨es, h⟩ := h
  rw [← h, releaseCores_append, List.length_append]
  exact Nat.le_add_right _ _

theorem Spent.exec (hI : Spent s (a ::ₘ R)) (h : exec P a x s = some (s', p)) :
    Spent s' ((p : Multiset Stmt) + R) := by
  intro j
  have hj := hI j
  have hlog := releaseCores_length_le (exec_log h) j
  rw [load_cons] at hj
  rw [load_add]
  by_cases ha : ∃ r c, a = .releaseCore j r c
  · obtain ⟨r, c, rfl⟩ := ha
    obtain ⟨-, rfl, -, -, hl⟩ := releaseCore_effect h
    have hrel : releaseCores s'.log j = releaseCores s.log j ++ [c] := by
      rw [hl, releaseCores_append]
      simp [releaseCores]
    rw [hrel, List.length_append]
    simp [interruptDecW]
    omega
  push Not at ha
  have hz : load (interruptDecW j) (p : Multiset Stmt) = 0 := load_eq_zero _ fun b hb => by
    have := exec_interruptDecs ha h
    cases b with
    | interruptDec i r c =>
      refine if_neg ?_
      rintro rfl
      exact this r c (by simpa using hb)
    | _ => rfl
  omega

theorem Spent.occur {e : Occurrence} (hI : Spent s R) (h : occur P e s = some (s', p)) :
    Spent s' ((p : Multiset Stmt) + R) := by
  intro j
  have hlog := releaseCores_length_le (occur_log h) j
  rw [load_add, (occur_weights h j 0).1, Nat.zero_add]
  exact (hI j).trans hlog

theorem exec_interruptCount (hQ : Queued P s (a ::ₘ R)) (hj : 0 < s.log.count (.enqueue j))
    (ha : ∀ r c, a ≠ .interruptDec j r c) (h : exec P a x s = some (s', p)) :
    (s'.jobs j).useCoreNum = (s.jobs j).useCoreNum ∧
      (s'.jobs j).interruptCount = (s.jobs j).interruptCount := by
  by_cases hc : a.counts = false
  · have hf := counters_fields (exec_counters hc h j)
    exact ⟨hf.2.1, hf.2.2.2.1⟩
  cases a with
  | selectCore i n t ci =>
    obtain ⟨rfl, -⟩ | ⟨rfl, -⟩ := selectCore_effect h
    · exact ⟨rfl, rfl⟩
    · have hi := hQ.not_enqueued (j := i) (by simp [preW])
      rw [setJob_jobs, if_neg (by rintro rfl; omega)]
      exact ⟨rfl, rfl⟩
  | runDec | jobDone =>
    cases h
    exact ⟨field_setJob Job.useCoreNum rfl j, field_setJob Job.interruptCount rfl j⟩
  | interruptDec i r c =>
    have hij : j ≠ i := by rintro rfl; exact ha r c rfl
    obtain ⟨rfl, -⟩ := interruptDec_effect h
    rw [setJob_jobs, if_neg hij]
    exact ⟨rfl, rfl⟩
  | _ => exact absurd rfl hc

theorem fires_of_ne (ha : ∀ r c, a ≠ .interruptDec j r c) : fires s j a = 0 := by
  cases a with
  | interruptDec i r c =>
    refine if_neg ?_
    rintro ⟨rfl, -⟩
    exact ha r c rfl
  | _ => rfl

/-- A job finishes where its last core is counted down. -/
theorem finished_exec (hQ : Queued P s (a ::ₘ R)) (hC : Counts s (a ::ₘ R))
    (hS : Spent s (a ::ₘ R)) (h : exec P a x s = some (s', p)) :
    finished s' j = finished s j + fires s j a := by
  by_cases ha : ∃ r c, a = .interruptDec j r c
  · obtain ⟨r, c, rfl⟩ := ha
    have hj := interruptDec_pending hC
    have hle := interruptDec_le hQ hC hj
    have hint := hC.ints j hj
    have hrel := hS j
    rw [load_cons, interruptDecW, if_pos rfl] at hle hint hrel
    obtain ⟨d, hd⟩ := List.exists_mem_of_length_pos (by omega : 0 < (releaseCores s.log j).length)
    rw [← List.count_pos_iff, count_releaseCores] at hd
    have hpos := hQ.useCoreNum_pos (needs_of_released hQ hC hd)
    obtain ⟨hs', -⟩ := interruptDec_effect h
    have hlog : s'.log = s.log := by rw [hs']; rfl
    have hu : (s'.jobs j).useCoreNum = (s.jobs j).useCoreNum := by rw [hs', setJob_jobs, if_pos rfl]
    have hi : (s'.jobs j).interruptCount = (s.jobs j).interruptCount - 1 := by
      rw [hs', setJob_jobs, if_pos rfl]
    simp only [finished, fires, hlog, hu, hi, hj, true_and]
    (repeat' split) <;> omega
  push Not at ha
  rw [fires_of_ne ha, Nat.add_zero]
  by_cases hj : 0 < s.log.count (.enqueue j)
  · obtain ⟨hu, hi⟩ := exec_interruptCount hQ hj ha h
    have hj' : 0 < s'.log.count (.enqueue j) := hj.trans_le ((exec_log h).sublist.count_le _)
    rw [finished, finished, hu, hi]
    exact if_congr (and_congr_left' (iff_of_true hj' hj)) rfl rfl
  rw [finished_of_not_enqueued (s := s) (by omega)]
  by_cases he : a = .enqueue j
  · subst he
    have hm := hQ.resolved j (by rw [load_cons, resolvedW, if_pos rfl]; omega)
    have hint := hC.initial j (by omega) hm
    have hf := (enqueue_effect h).1.fields j
    rw [finished, hf.2.1, hf.2.2.2.1, hint, if_neg (by omega)]
  · refine finished_of_not_enqueued ?_
    rw [count_enqueue ‹_› h]
    omega

theorem finished_occur {e : Occurrence} (hQ : Queued P s R) (h : occur P e s = some (s', p)) :
    finished s' j = finished s j := by
  have hcnt : s'.log.count (.enqueue j) = s.log.count (.enqueue j) := occur_count h (by simp)
  have hjob : 0 < s.log.count (.enqueue j) → (s'.jobs j).counters = (s.jobs j).counters := fun hj => by
    by_cases he : e.spawns
    · obtain ⟨rfl, -⟩ | ⟨b, args, -, -, -, hb, -⟩ := spawn_effect he h
      · rfl
      · have hne : j ≠ s.jobNum := by
          rintro rfl
          have := hQ.fresh s.jobNum le_rfl
          omega
        rw [hb, Function.update_of_ne hne]
    · exact occur_counters (by simpa using he) h j
  by_cases hj : 0 < s.log.count (.enqueue j)
  · have hf := counters_fields (hjob hj)
    simp only [finished, hcnt, hf.2.1, hf.2.2.2.1]
  · rw [finished_of_not_enqueued (by omega), finished_of_not_enqueued (by omega)]

theorem finished_le_one (s : Dev) (j : JobId) : finished s j ≤ 1 := by
  unfold finished
  split <;> omega

/-- A job that is counted down on all of its cores was released on each of them. -/
theorem released_of_finished (hQ : Queued P s B) (hC : Counts s B) (hf : 0 < finished s j)
    (hc : inMask (s.mask j) c) : 0 < s.log.count (.release c j) := by
  simp only [finished] at hf
  split at hf
  · rename_i hfin
    have hints := hC.ints j hfin.1
    have hmem := mem_of_maskBits_le (nodup_releaseCores hC j)
      (fun c hc => inMask_of_mem_releaseCores hQ hC hc) (by rw [hQ.width] at hints; omega) hc
    rwa [← List.count_pos_iff, count_releaseCores] at hmem
  · omega

/-- Of stage `n` of the last `rknpu_job_done` and of what it leaves behind, a finished job has
one, and every other job none. -/
theorem leaves_exec {n m : Nat} (hn : n < 6) (hQ : Queued P s (a ::ₘ R)) (hC : Counts s (a ::ₘ R))
    (hS : Spent s (a ::ₘ R)) (h : exec P a x s = some (s', p))
    (hm : load (untilW n j) (a ::ₘ R) + m = finished s j) :
    load (untilW n j) ((p : Multiset Stmt) + R) +
      (m + if stage a = some (j, n) then 1 else 0) = finished s' j := by
  have hu := exec_untilW h n hn j
  rw [finished_exec hQ hC hS h, ← hm, load_add, load_cons]
  omega

theorem upto_exec {n : Nat} (hn : n < 6) (hQ : Queued P s (a ::ₘ R)) (hC : Counts s (a ::ₘ R))
    (hS : Spent s (a ::ₘ R)) (h : exec P a x s = some (s', p))
    (hm : load (untilW n j) (a ::ₘ R) ≤ finished s j) :
    load (untilW n j) ((p : Multiset Stmt) + R) ≤ finished s' j := by
  have hl := leaves_exec hn hQ hC hS h (Nat.add_sub_cancel' hm)
  omega

theorem occur_stage {e : Occurrence} (h : occur P e s = some (s', p)) : ∀ b ∈ p, stage b = none := by
  cases e with
  | completion c =>
    obtain ⟨j, k, -, -, rfl, -⟩ := completion_effect h
    simp [stage]
  | _ =>
    simp only [occur, spawn] at h
    repeat' split at h
    all_goals
      cases h
      try simp [stage]

theorem occur_untilW {e : Occurrence} (n : Nat) (h : occur P e s = some (s', p)) :
    load (untilW n j) ((p : Multiset Stmt) + R) = load (untilW n j) R := by
  have hz : load (untilW n j) (p : Multiset Stmt) = 0 := load_eq_zero _ fun b hb => by
    simp [untilW, occur_stage h b (by simpa using hb)]
  rw [load_add, hz, Nat.zero_add]

/-- Job `j` is `RKNPU_JOB_DONE` once it is finished everywhere and this was noted. -/
structure Ends (s : Dev) (B : Multiset Stmt) : Prop where
  spent : Spent s B
  upto : ∀ n < 6, ∀ j, load (untilW n j) B ≤ finished s j
  done : ∀ j, load (untilW 2 j) B + s.log.count (.done j) = finished s j
  flag : ∀ j, (s.jobs j).done = true ↔ 0 < s.log.count (.done j)

theorem exec_done (h : exec P a x s = some (s', p)) (j : JobId) :
    s'.log.count (.done j) = s.log.count (.done j) + (if stage a = some (j, 2) then 1 else 0) ∧
      (s'.jobs j).done = ((s.jobs j).done || decide (stage a = some (j, 2))) := by
  by_cases ha : ∃ i r q, a = .doneFlag i r q
  · obtain ⟨i, r, q, rfl⟩ := ha
    cases h
    by_cases hij : i = j
    · subst hij
      simp [Dev.record, Dev.setJob, stage]
    · simp [Dev.record, Dev.setJob, stage, hij, Ne.symm hij]
  push Not at ha
  have hst : stage a ≠ some (j, 2) := by
    cases a <;> simp_all [stage]
  have hl : a.logs (.done j) = false := by
    cases a <;> simp_all [Stmt.logs]
  have hw : a.writes j .done = false := by
    cases a <;> simp_all [Stmt.writes]
  rw [exec_count h hl, if_neg hst, decide_eq_false hst, Bool.or_false]
  exact ⟨rfl, exec_get hw h⟩

namespace Ends

theorem exec (hQ : Queued P s (a ::ₘ R)) (hC : Counts s (a ::ₘ R)) (hI : Ends s (a ::ₘ R))
    (h : Rknpu.exec P a x s = some (s', p)) : Ends s' ((p : Multiset Stmt) + R) := by
  refine ⟨hI.spent.exec h, fun n hn j => upto_exec hn hQ hC hI.spent h (hI.upto n hn j),
    fun j => ?_, fun j => ?_⟩
  · rw [(exec_done h j).1]
    exact leaves_exec (by omega) hQ hC hI.spent h (hI.done j)
  · have hf := hI.flag j
    rw [(exec_done h j).1, (exec_done h j).2]
    by_cases hst : stage a = some (j, 2)
    · simp [hst]
    · simpa [hst] using hf

theorem occur {e : Occurrence} (hQ : Queued P s R) (hI : Ends s R)
    (h : Rknpu.occur P e s = some (s', p)) : Ends s' ((p : Multiset Stmt) + R) := by
  have hcnt : ∀ j, s'.log.count (.done j) = s.log.count (.done j) := fun j =>
    occur_count h (by simp)
  refine ⟨hI.spent.occur h, fun n hn j => ?_, fun j => ?_, fun j => ?_⟩
  · rw [occur_untilW n h, finished_occur hQ h]
    exact hI.upto n hn j
  · rw [occur_untilW 2 h, finished_occur hQ h, hcnt]
    exact hI.done j
  · have hf := hI.flag j
    rw [hcnt]
    by_cases hj : e.spawns ∧ j = s.jobNum
    · obtain ⟨he, rfl⟩ := hj
      have hd := hI.done s.jobNum
      have hnew := hQ.fresh s.jobNum le_rfl
      rw [finished_of_not_enqueued (by omega)] at hd
      obtain rfl | ⟨args, hb⟩ := spawn_get he h
      · exact hf
      · have hdone : (s'.jobs s.jobNum).done = false := hb .done (by simp) (by simp)
        rw [hdone]
        exact iff_of_false (by simp) (by omega)
    · have hd : (s'.jobs j).done = (s.jobs j).done :=
        occur_get (f := .done) (fun he hn => hj ⟨he, hn⟩) (by simp) h
      rwa [hd]

theorem init : Ends Dev.init 0 := by
  constructor <;> simp [Dev.init, Spent, finished, jobAlloc]

theorem reach {G : Guard Dev Stmt Int Occurrence} (hG : Honest P G) {C : Conf Dev Stmt}
    (hC : Reach (driver P) G Dev.init C) : Ends C.shared C.pending :=
  hC.invariant_with (fun s B => Queued P s B ∧ Counts s B) Ends
    (fun _ hC => ⟨Queued.reach hC, hG.counts hC⟩) init
    (fun _ _ _ _ _ _ hJ hI _ h => hI.exec hJ.1 hJ.2 h)
    (fun _ _ _ _ _ hJ hI _ h => hI.occur hJ.1 h)

end Ends

end Rknpu

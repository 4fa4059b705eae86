import Rknpu.Queued

namespace Rknpu

open Interleaving

variable {P : Platform} {s s' : Dev} {B B' R : Multiset Stmt} {a : Stmt} {x : Int} {p : List Stmt}
  {j : JobId}

def Stmt.moves : Stmt → Bool
  | .runDec _ | .jobCommit _ | .pc .pcOpEn _ _ _ | .jobDone _ _ _ | .irqClear _ (.done _) => true
  | _ => false

structure Wayward (A B : Multiset Stmt) : Prop where
  jobCommit : ∀ j, load (jobCommitW j) B ≤ load (jobCommitW j) A
  commit : ∀ j c, load (commitW j c) B ≤ load (commitW j c) A
  jobDone : ∀ j c, load (jobDoneW j c) B ≤ load (jobDoneW j c) A
  release : ∀ j c, load (releaseW j c) B ≤ load (releaseW j c) A

theorem Lighter.wayward {A B : Multiset Stmt} (h : Lighter A B) : Wayward A B :=
  ⟨h.jobCommit, h.commit, h.jobDone, h.release⟩

theorem Wayward.add {A B : Multiset Stmt} (h : Wayward A B) (R : Multiset Stmt) :
    Wayward (A + R) (B + R) := by
  constructor <;> intros <;> simp only [load_add]
  · exact Nat.add_le_add_right (h.jobCommit _) _
  · exact Nat.add_le_add_right (h.commit _ _) _
  · exact Nat.add_le_add_right (h.jobDone _ _) _
  · exact Nat.add_le_add_right (h.release _ _) _

theorem Wayward.of_light {A B : Multiset Stmt} (hB : ∀ b ∈ B, b.light) : Wayward A B := by
  constructor <;> intros
  · exact (load_light (fun _ h => (light_weights h _ 0).2.1) hB).trans_le (Nat.zero_le _)
  · exact (load_light (fun _ h => (light_weights h _ _).2.2.1) hB).trans_le (Nat.zero_le _)
  · exact (load_light (fun _ h => (light_weights h _ _).2.2.2.1) hB).trans_le (Nat.zero_le _)
  · exact (load_light (fun _ h => (light_weights h _ _).2.2.2.2) hB).trans_le (Nat.zero_le _)

theorem exec_wayward (ha : a.moves = false) (h : exec P a x s = some (s', p)) :
    Wayward {a} p := by
  by_cases hp : a.plain
  · exact .of_light fun b hb => (exec_calm hp h).2 b (by simpa using hb)
  by_cases hs : ∃ i, a.submits i
  · obtain ⟨i, hi⟩ := hs
    exact (Lighter.of_submits hi (exec_submits hi h).2).wayward
  cases a with
  | fenceIn i | fenceWait i | fenceOut i | fenceFd i | dispatch i =>
    exact absurd ⟨i, by simp [Stmt.submits]⟩ hs
  | jobSchedule i =>
    simp only [exec, jobSchedule, Option.some.injEq] at h
    split at h <;> cases h <;> constructor <;> intros <;>
      simp [jobCommitW, commitW, jobDoneW, releaseW]
  | domainGet i =>
    simp only [exec, domainGet, Option.some.injEq] at h
    split at h <;> cases h <;> constructor <;> intros <;>
      simp [jobCommitW, commitW, jobDoneW, releaseW]
  | selectCore i n t ci =>
    obtain ⟨-, t', c', rfl, -⟩ | ⟨-, rfl⟩ := selectCore_effect h <;> constructor <;> intros <;>
      simp [jobCommitW, commitW, jobDoneW, releaseW]
  | enqueue i =>
    obtain ⟨-, rfl, -⟩ := enqueue_effect h
    constructor <;> intros <;> simp [jobCommitW, commitW, jobDoneW, releaseW]
  | pickUp d =>
    obtain ⟨-, rfl, -⟩ | ⟨i, rest, -, -, -, rfl, -⟩ := pickUp_effect h <;> constructor <;> intros <;>
      simp [jobCommitW, commitW, jobDoneW, releaseW]
  | releaseCore i r d =>
    obtain ⟨-, rfl, -⟩ := releaseCore_effect h
    constructor <;> intros <;> simp [jobCommitW, commitW, jobDoneW, releaseW]
  | interruptDec i r d =>
    obtain ⟨-, rfl⟩ := interruptDec_effect h
    constructor <;> intros <;> split <;> simp [jobCommitW, commitW, jobDoneW, releaseW]
  | subcoreCommit i d =>
    obtain ⟨-, rfl | rfl | rfl | ⟨g, k, g', ha, rfl⟩⟩ := commit_effect (.inl (.inl rfl)) h <;>
      constructor <;> intros <;> simp [jobCommitW, commitW, jobDoneW, releaseW]
  | commitPc i d =>
    obtain ⟨-, rfl | rfl | rfl | ⟨g, k, g', ha, rfl⟩⟩ := commit_effect (.inl (.inr rfl)) h <;>
      constructor <;> intros <;> simp [jobCommitW, commitW, jobDoneW, releaseW]
  | pc g i d n =>
    have hg : g ≠ .pcOpEn := by
      rintro rfl
      cases ha
    obtain ⟨-, rfl | rfl | rfl | ⟨g, k, g', ha, rfl⟩⟩ := commit_effect (.inr ⟨g, n, hg, rfl⟩) h <;>
      constructor <;> intros <;> simp [jobCommitW, commitW, jobDoneW, releaseW]
  | irqClear d e => cases e <;> first | exact absurd rfl hp | cases ha
  | _ => first | exact absurd rfl hp | cases ha

theorem exec_jobDoneW (ha : ∀ c j, a ≠ .irqClear c (.done j)) (h : exec P a x s = some (s', p))
    (k : JobId) (d : Nat) : load (jobDoneW k d) (p : Multiset Stmt) ≤ jobDoneW k d a := by
  by_cases hm : a.moves = false
  · simpa using (exec_wayward hm h).jobDone k d
  cases a with
  | runDec i =>
    obtain ⟨-, rfl⟩ := runDec_effect h
    split <;> simp [jobDoneW]
  | jobCommit i =>
    cases h
    rw [load_commits_eq_zero fun _ => rfl]
    exact Nat.zero_le _
  | jobDone i r c =>
    obtain ⟨-, rfl⟩ := jobDone_effect h
    split <;> simp [jobDoneW]
  | pc g i c n => cases g <;> first | exact absurd rfl hm | (cases h; simp)
  | irqClear c e => cases e <;> first | exact absurd rfl hm | exact absurd rfl (ha _ _)
  | _ => exact absurd rfl hm

theorem exec_releaseW (ha : ∀ j r c, a ≠ .jobDone j r c) (h : exec P a x s = some (s', p))
    (k : JobId) (d : Nat) : load (releaseW k d) (p : Multiset Stmt) ≤ releaseW k d a := by
  by_cases hm : a.moves = false
  · simpa using (exec_wayward hm h).release k d
  cases a with
  | runDec i =>
    obtain ⟨-, rfl⟩ := runDec_effect h
    split <;> simp [releaseW]
  | jobCommit i =>
    cases h
    rw [load_commits_eq_zero fun _ => rfl]
    exact Nat.zero_le _
  | jobDone i r c => exact absurd rfl (ha _ _ _)
  | pc g i c n => cases g <;> first | exact absurd rfl hm | (cases h; simp)
  | irqClear c e =>
    cases h
    cases e <;> simp [releaseW]
  | _ => exact absurd rfl hm

theorem exec_engine (ha : ∀ j c k, a ≠ .pc .pcOpEn j c k) (h : exec P a x s = some (s', p)) (d : Nat) :
    s'.engine d = s.engine d ∨ s'.engine d = .idle := by
  by_cases hp : a.plain
  · exact (exec_calm hp h).1.engine d
  by_cases hs : ∃ i, a.submits i
  · obtain ⟨i, hi⟩ := hs
    exact (exec_submits hi h).1.engine d
  cases a with
  | fenceIn i | fenceWait i | fenceOut i | fenceFd i | dispatch i =>
    exact absurd ⟨i, by simp [Stmt.submits]⟩ hs
  | jobSchedule i | selectCore i n t ci | domainGet i =>
    simp only [exec, jobSchedule, selectCore, domainGet, Option.some.injEq] at h
    repeat' split at h
    all_goals
      cases h
      exact .inl rfl
  | enqueue i => exact .inl (congrFun (enqueue_effect h).1.engine d)
  | pickUp d =>
    obtain ⟨rfl, -⟩ | ⟨i, rest, -, -, hs, -⟩ := pickUp_effect h
    · exact .inl rfl
    · exact .inl (congrFun hs.engine _)
  | releaseCore i r d => exact .inl (congrFun (releaseCore_effect h).1.engine _)
  | subcoreCommit i d => exact (commit_effect (.inl (.inl rfl)) h).1.engine _
  | commitPc i d => exact (commit_effect (.inl (.inr rfl)) h).1.engine _
  | pc g i d n => exact (commit_effect (.inr ⟨g, n, fun hg => ha i d n (hg ▸ rfl), rfl⟩) h).1.engine _
  | interruptDec | runDec | jobCommit | jobDone | irqClear => cases h; exact .inl rfl
  | _ => exact absurd rfl hp

theorem exec_jobNum (h : exec P a x s = some (s', p)) : s'.jobNum = s.jobNum := by
  cases a <;>
    simp only [exec, fenceIn, fenceWait, fenceOut, fenceFd, dispatch, submitAsync, submitWait,
      submitResult, submitReturn, jobSchedule, selectCore, domainGet, enqueue, nextLoop, jobNext,
      pickUp, runDec, jobCommit, subcoreCommit, commitPc, jobDone, releaseCore, interruptDec,
      doneWidth, donePut, doneFlag, doneRet, doneFence, doneAsync, irqEnter, irqStatus, irqCheck,
      irqClear, irqReturn, waitEvent, waitElapsed, waitLastTask, waitUnlink, waitStatus, waitFlags,
      waitReturn, jobAbort, abortCores, abortReset, jobFree, timeoutClean, cancel, cancelWork,
      drain, drainWork, softReset, resetMark, resetHw, resetEnd,
      stateInit, resetUnlock, Option.some.injEq] at h
  case pc g j c k => cases g <;> cases h <;> rfl
  all_goals
    repeat' split at h
    all_goals
      cases h
      try rfl

theorem occur_jobNum (h : occur P e s = some (s', p)) : s.jobNum ≤ s'.jobNum := by
  cases e with
  | completion c =>
    obtain ⟨j, k, -, -, -, hn, -⟩ := completion_effect h
    exact hn.ge
  | _ =>
    simp only [occur, spawn] at h
    repeat' split at h
    all_goals
      cases h
      try first | exact le_rfl | exact Nat.le_succ _

theorem exec_runCount (hQ : Queued P s (a ::ₘ R)) (ha : a ≠ .runDec j)
    (hj : 0 < s.log.count (.enqueue j)) (h : exec P a x s = some (s', p)) :
    (s'.jobs j).runCount = (s.jobs j).runCount := by
  by_cases hc : a.counts = false
  · exact (counters_fields (exec_counters hc h j)).2.2.1
  cases a with
  | selectCore i n t ci =>
    obtain ⟨rfl, -⟩ | ⟨rfl, -⟩ := selectCore_effect h
    · rfl
    · have hi := hQ.not_enqueued (j := i) (by simp [preW])
      rw [setJob_jobs, if_neg (by rintro rfl; omega)]
  | runDec i =>
    obtain ⟨rfl, -⟩ := runDec_effect h
    rw [setJob_jobs, if_neg (by rintro rfl; exact ha rfl)]
  | jobDone | interruptDec =>
    cases h
    exact field_setJob Job.runCount rfl j
  | _ => exact absurd rfl hc

theorem exec_submitCount (ha : ∀ j r c, a ≠ .jobDone j r c) (h : exec P a x s = some (s', p))
    (k : JobId) :
    (s'.jobs k).submitCount = (s.jobs k).submitCount := by
  by_cases hc : a.counts = false
  · exact (counters_fields (exec_counters hc h k)).2.2.2.2
  cases a with
  | selectCore i n t ci =>
    obtain ⟨rfl, -⟩ | ⟨rfl, -⟩ := selectCore_effect h
    · rfl
    · exact field_setJob Job.submitCount rfl k
  | jobDone i r c => exact absurd rfl (ha i r c)
  | runDec | interruptDec =>
    cases h
    exact field_setJob Job.submitCount rfl k
  | _ => exact absurd rfl hc

theorem occur_report {e : Occurrence} (h : occur P e s = some (s', p)) :
    (∃ d i n, s.engine d = .running i n ∧ s'.engine = Function.update s.engine d (.complete i n) ∧
      .complete d i n ∈ s'.log ∧ ∀ c j, load (jobDoneW j c) (p : Multiset Stmt) ≤
        if i = j ∧ d = c then 1 else 0) ∨
    s'.engine = s.engine ∧ ∀ c j, load (jobDoneW j c) (p : Multiset Stmt) = 0 := by
  by_cases hc : ∃ c, e = .completion c
  · obtain ⟨d, rfl⟩ := hc
    obtain ⟨i, n, hr, -, rfl, -, -, -, -, he, hl⟩ := completion_effect h
    exact .inl ⟨d, i, n, hr, he, by simp [hl], fun c j => by simp [jobDoneW]⟩
  by_cases hw : ∃ c bits, e = .hwComplete c bits
  · obtain ⟨d, bits, rfl⟩ := hw
    obtain ⟨i, n, hr, rfl, -, -, -, -, he, hl⟩ := hwComplete_effect h
    exact .inl ⟨d, i, n, hr, he, by simp [hl], fun c j => by simp⟩
  push Not at hc hw
  right
  by_cases hs : e.spawns
  · obtain ⟨rfl, rfl⟩ | ⟨b, args, -, hp, -, -, -, -, he, -⟩ := spawn_effect hs h
    · exact ⟨rfl, by simp⟩
    · exact ⟨he, fun c j => by rcases hp with rfl | rfl <;> simp [jobDoneW]⟩
  · refine ⟨?_, fun c j => load_light (fun _ h => (light_weights h j c).2.2.2.1) ?_⟩
    · cases e with
      | completion c => exact absurd rfl (hc c)
      | hwComplete c bits => exact absurd rfl (hw c bits)
      | _ =>
        simp only [occur] at h
        repeat' split at h
        all_goals
          cases h
          try rfl
    · simpa using (occur_calm (by simpa using hs) hc hw h).2

end Rknpu

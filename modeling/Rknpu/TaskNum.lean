import Rknpu.Completions
import Rknpu.Ranges

namespace Rknpu

open Interleaving

def Dev.tasks (P : Platform) (s : Dev) (c : Nat) (j : JobId) : Int :=
  (s.jobs j).getTaskNumber P.config c

/-- The tasks of the jobs that are on the list of core `c` or in its slot. -/
def Dev.outstanding (P : Platform) (s : Dev) (c : Nat) : Int :=
  ((s.todoList c).map (s.tasks P c)).sum + ((s.slot c).toList.map (s.tasks P c)).sum

def Dev.drops (P : Platform) (s : Dev) (c : Nat) (j : JobId) : Stmt → Prop
  | .waitUnlink i _ => i = j ∧ c < (s.jobs j).useCoreNum ∧ j ∈ s.todoList c
  | .cancel i _ => i = j ∧ c < P.config.numIrqs ∧ (j ∈ s.todoList c ∨ s.slot c = some j)
  | .drain i => (s.todoList i).head? = some j ∧ c < P.config.numIrqs ∧ j ∈ s.todoList c
  | _ => False

/-- What is taken off a core so has no tasks there. -/
def dropGuard (P : Platform) : Guard Dev Stmt Int Occurrence where
  run s _ a _ := ∀ c j, s.drops P c j a → s.tasks P c j = 0
  env _ _ _ := True

def loadGuard (P : Platform) : Guard Dev Stmt Int Occurrence :=
  (completionWorld.and (cancelGuard P)).and (dropGuard P)

def Exact (P : Platform) (s : Dev) : Prop := ∀ c, s.taskNum c = s.outstanding P c

variable {P : Platform} {C : Conf Dev Stmt} {s s' : Dev} {B R : Multiset Stmt} {a : Stmt} {x : Int}
  {p : List Stmt} {j : JobId} {c : Nat}

def Stmt.loads : Stmt → Bool
  | .enqueue _ | .pickUp _ | .releaseCore _ _ _ | .abortCores _ | .waitUnlink _ _ | .cancel _ _
  | .drain _ => true
  | _ => false

theorem exec_loads (ha : a.loads = false) (h : exec P a x s = some (s', p)) :
    s'.taskNum = s.taskNum ∧ s'.todoList = s.todoList ∧ s'.slot = s.slot := by
  cases a <;> simp only [Stmt.loads, reduceCtorEq] at ha <;>
    simp only [exec, fenceIn, fenceWait, fenceOut, fenceFd, dispatch, submitAsync, submitWait,
      submitResult, submitReturn, jobSchedule, selectCore, domainGet, nextLoop, jobNext,
      runDec, jobCommit, subcoreCommit, commitPc, jobDone, interruptDec, doneWidth, donePut,
      doneFlag, doneRet, doneFence, doneAsync, irqEnter, irqStatus, irqCheck, irqClear, irqReturn,
      waitEvent, waitElapsed, waitLastTask, waitStatus, waitFlags, waitReturn,
      jobAbort, abortReset, jobFree, timeoutClean, cancelWork, drainWork, softReset,
      resetMark, resetHw, resetEnd,
      stateInit, resetUnlock, Option.some.injEq] at h
  case pc g j c k => cases g <;> cases h <;> exact ⟨rfl, rfl, rfl⟩
  all_goals
    repeat' split at h
    all_goals
      cases h
      try exact ⟨rfl, rfl, rfl⟩

theorem getTaskNumber_congr {b b' : Job} (cfg : Config) (ha : Field.args.get b' = Field.args.get b)
    (hu : b'.useCoreNum = b.useCoreNum) (c : Nat) :
    b'.getTaskNumber cfg c = b.getTaskNumber cfg c := by
  simp only [Field.get, Prod.mk.injEq] at ha
  simp only [Job.getTaskNumber, hu, ha]

theorem exec_tasks (hQ : Queued P s (a ::ₘ R)) (h : exec P a x s = some (s', p))
    (hj : a.counts = false ∨ 0 < s.log.count (.enqueue j)) : s'.tasks P c j = s.tasks P c j := by
  refine getTaskNumber_congr _ (exec_args h j) ?_ c
  rcases hj with ha | hj
  · exact (counters_fields (exec_counters ha h j)).2.1
  · exact hQ.useCoreNum_exec h hj

theorem outstanding_congr (ht : s'.todoList c = s.todoList c) (hs : s'.slot c = s.slot c)
    (hj : ∀ j, j ∈ s.todoList c ∨ s.slot c = some j → s'.tasks P c j = s.tasks P c j) :
    s'.outstanding P c = s.outstanding P c := by
  have htodo : (s.todoList c).map (s'.tasks P c) = (s.todoList c).map (s.tasks P c) :=
    List.map_congr_left fun j hm => hj j (.inl hm)
  have hslot : (s.slot c).toList.map (s'.tasks P c) = (s.slot c).toList.map (s.tasks P c) :=
    List.map_congr_left fun j hm => hj j (.inr (Option.mem_toList.mp hm))
  rw [Dev.outstanding, ht, hs, htodo, hslot, Dev.outstanding]

theorem sum_erase {f : JobId → Int} (l : List JobId) (h : j ∈ l → f j = 0) :
    ((l.erase j).map f).sum = (l.map f).sum := by
  by_cases hm : j ∈ l
  · rw [← List.sum_map_erase f hm, h hm, zero_add]
  · rw [List.erase_of_not_mem hm]

/-- Statements that take a job off a core without `rknpu_job_done`. -/
def Stmt.unlinks : Stmt → Bool
  | .waitUnlink _ _ | .cancel _ _ | .drain _ => true
  | _ => false

theorem unlinks_of_drops (h : s.drops P c j a) : a.unlinks := by
  cases a <;> first | rfl | exact absurd h id

theorem exec_unlinks (ha : a.unlinks) (h : exec P a x s = some (s', p)) (c : Nat) :
    s'.taskNum c = s.taskNum c ∧
      (s'.todoList c = s.todoList c ∨ ∃ j, (j ∈ s.todoList c → s.drops P c j a) ∧
        s'.todoList c = (s.todoList c).erase j) ∧
      (s'.slot c = s.slot c ∨ ∃ j, s.slot c = some j ∧ s.drops P c j a ∧ s'.slot c = none) := by
  have hall : ∀ j, (unlinkAll P s j).todoList c = s.todoList c ∨
      c < P.config.numIrqs ∧ (unlinkAll P s j).todoList c = (s.todoList c).erase j := fun j => by
    simp only [unlinkAll]
    split
    · rename_i hon
      exact .inr ⟨of_decide_eq_true (Bool.and_eq_true_iff.mp hon).1, rfl⟩
    · exact .inl rfl
  cases a with
  | waitUnlink j r =>
    cases h
    refine ⟨rfl, ?_, .inl rfl⟩
    dsimp only
    split
    · rename_i hon
      simp only [Bool.and_eq_true, decide_eq_true_eq] at hon
      exact .inr ⟨j, fun hm => ⟨rfl, hon.1, hm⟩, rfl⟩
    · exact .inl rfl
  | cancel j i =>
    have hslot := cancel_slot h c
    cases h
    refine ⟨rfl, ?_, ?_⟩
    · rcases hall j with ht | ⟨hlt, ht⟩
      · exact .inl ht
      · exact .inr ⟨j, fun hm => ⟨rfl, hlt, .inl hm⟩, ht⟩
    · split at hslot
      · rename_i hon
        exact .inr ⟨j, hon.2, ⟨rfl, hon.1, .inr hon.2⟩, hslot⟩
      · exact .inl hslot
  | drain i =>
    simp only [exec, drain, Option.some.injEq] at h
    split at h
    · cases h
      exact ⟨rfl, .inl rfl, .inl rfl⟩
    · rename_i j rest hl
      cases h
      refine ⟨rfl, ?_, .inl rfl⟩
      rcases hall j with ht | ⟨hlt, ht⟩
      · exact .inl ht
      · exact .inr ⟨j, fun hm => ⟨by rw [hl]; rfl, hlt, hm⟩, ht⟩
  | _ => cases ha

namespace Exact

/-- Each statement gives a core as many tasks as it gives its counter. -/
theorem exec (hQ : Queued P s (a ::ₘ R)) (hS : Serving s (a ::ₘ R)) (hI : Exact P s)
    (hG : (dropGuard P).run s (a ::ₘ R) a x) (h : Rknpu.exec P a x s = some (s', p)) :
    Exact P s' := by
  intro c
  have hc := hI c
  by_cases ha : a.loads = false
  · obtain ⟨hn, ht, hs⟩ := exec_loads ha h
    rw [hn, hc, outstanding_congr (congrFun ht c) (congrFun hs c) fun j hj =>
      exec_tasks hQ h (.inr (hj.elim hQ.enqueued_of_todo hQ.enqueued_of_slot))]
  have htasks : s'.tasks P c = s.tasks P c := funext fun j =>
    exec_tasks hQ h (.inl (by cases a <;> first | rfl | exact absurd rfl ha))
  rw [Dev.outstanding, htasks]
  rw [Dev.outstanding] at hc
  by_cases hu : a.unlinks
  · obtain ⟨hn, ht, hs⟩ := exec_unlinks hu h c
    have htodo : ((s'.todoList c).map (s.tasks P c)).sum = ((s.todoList c).map (s.tasks P c)).sum := by
      rcases ht with ht | ⟨j, hj, ht⟩
      · rw [ht]
      · rw [ht, sum_erase _ fun hm => hG c j (hj hm)]
    have hslot : ((s'.slot c).toList.map (s.tasks P c)).sum =
        ((s.slot c).toList.map (s.tasks P c)).sum := by
      rcases hs with hs | ⟨j, hj, hd, hs⟩
      · rw [hs]
      · simp [hs, hj, hG c j hd]
    rw [hn, hc, htodo, hslot]
  cases a with
  | enqueue j =>
    obtain ⟨-, -, hs, -, ht⟩ := enqueue_effect h
    have hn : s'.taskNum c = if s.needs P c j then s.taskNum c + s.tasks P c j else s.taskNum c := by
      cases h
      rfl
    rw [hn, ht, hs, hc]
    split
    · simp only [List.map_append, List.sum_append, List.map_cons, List.map_nil, List.sum_cons,
        List.sum_nil]
      ring
    · rfl
  | pickUp d =>
    have hn : s'.taskNum = s.taskNum := by
      simp only [Rknpu.exec, Rknpu.pickUp, Option.some.injEq] at h
      split at h <;> cases h <;> rfl
    obtain ⟨rfl, -⟩ | ⟨j, rest, hnone, htodo, -, -, hs, -, ht⟩ := pickUp_effect h
    · exact hc
    rw [hn, hc, hs, ht]
    by_cases hd : c = d
    · subst hd
      rw [Function.update_self, Function.update_self, htodo, hnone]
      simp only [List.map_cons, List.sum_cons, Option.toList_some, Option.toList_none, List.map_nil,
        List.sum_nil]
      ring
    · rw [Function.update_of_ne hd, Function.update_of_ne hd]
  | releaseCore j r d =>
    have hslot := (hS j d (by simp only [load_cons, releaseW, and_self, if_true]; omega)).1
    have hn : s'.taskNum = Function.update s.taskNum d (s.taskNum d - s.tasks P d j) := by
      cases h
      rfl
    have ht : s'.todoList = s.todoList := by
      cases h
      rfl
    obtain ⟨-, -, -, hs, -⟩ := releaseCore_effect h
    rw [hn, ht, hs]
    by_cases hd : c = d
    · subst hd
      simp [hc, hslot]
    · rw [Function.update_of_ne hd, Function.update_of_ne hd, hc]
  | abortCores j =>
    have hn : s'.taskNum c = if s.aborts P j c then s.taskNum c - s.tasks P c j else s.taskNum c := by
      cases h
      rfl
    have ht : s'.todoList = s.todoList := by
      cases h
      rfl
    rw [hn, ht, abortCores_slot h]
    split
    · rename_i hon
      simp only [Dev.aborts, Bool.and_eq_true, beq_iff_eq] at hon
      simp [hc, hon.1.2]
    · exact hc
  | waitUnlink | cancel | drain => exact absurd rfl hu
  | _ => exact absurd rfl ha

theorem occur {e : Occurrence} (hQ : Queued P s R) (hI : Exact P s)
    (h : Rknpu.occur P e s = some (s', p)) : Exact P s' := by
  intro c
  have hn : s'.taskNum = s.taskNum := by
    cases e <;> simp only [Rknpu.occur, spawn] at h
    case completion =>
      obtain ⟨r, -, hr⟩ := Option.map_eq_some_iff.mp h
      cases hr
      rfl
    all_goals
      repeat' split at h
      all_goals
        cases h
        try rfl
  have hlisted : ∀ j, j ∈ s.todoList c ∨ s.slot c = some j → s'.tasks P c j = s.tasks P c j := by
    intro j hj
    have henq := hj.elim hQ.enqueued_of_todo hQ.enqueued_of_slot
    refine getTaskNumber_congr _ (occur_get (f := .args) (fun _ => (hQ.lt_jobNum henq).ne)
      (by simp) h) ?_ c
    rw [(hQ.occur h).width, hQ.width, hQ.mask_occur h henq]
  rw [hn, hI c, outstanding_congr (congrFun (occur_todo h) c) (congrFun (occur_slot h) c) hlisted]

theorem reach (hC : Reach (driver P) (loadGuard P) Dev.init C) : Exact P C.shared :=
  hC.invariant_with (G := loadGuard P) (fun s B => Queued P s B ∧ Serving s B)
    (fun s _ => Exact P s)
    (fun _ hC => ⟨Queued.reach hC,
      Serving.reach (G := loadGuard P) (fun _ _ _ h => h.1.1) (fun _ _ _ _ h => h.1.2) hC⟩)
    (fun _ => rfl) (fun _ _ _ _ _ _ hJ hI hG h => hI.exec hJ.1 hJ.2 hG.2 h)
    (fun _ _ _ _ _ hJ hI _ h => hI.occur hJ.1 h)

end Exact

/-- One thread runs, with no other between its statements. -/
def Alone (P : Platform) (q q' : Dev × List Stmt) : Prop :=
  ∃ a k x p, q.2 = a :: k ∧ exec P a x q.1 = some (q'.1, p) ∧ q'.2 = p ++ k

/-- The search of `rknpu_schedule_core_index` ends at a core with the least load. -/
theorem selectCore_least {k : List Stmt} {i m : Nat}
    (hfit : ∀ d < P.config.numIrqs, toInt (s.taskNum d) = s.taskNum d) (hi : i ≤ P.config.numIrqs)
    (hm : m < P.config.numIrqs) (hleast : ∀ d < i, s.taskNum m ≤ s.taskNum d) :
    ∃ c < P.config.numIrqs, (∀ d < P.config.numIrqs, s.taskNum c ≤ s.taskNum d) ∧
      Relation.ReflTransGen (Alone P) (s, .selectCore j i (s.taskNum m) m :: k)
        (s.setJob j (resolveCore · c), .domainGet j :: k) := by
  induction h : P.config.numIrqs - i generalizing i m with
  | zero =>
    have hend : ¬i < P.config.numIrqs := by omega
    refine ⟨m, hm, fun d hd => hleast d (by omega), .single ⟨_, k, 0, [.domainGet j], rfl, ?_, rfl⟩⟩
    simp only [exec, selectCore, if_neg hend]
  | succ n ih =>
    have hlt : i < P.config.numIrqs := by omega
    by_cases hless : s.taskNum i < s.taskNum m
    · obtain ⟨c, hc, hl, hrun⟩ := ih (i := i + 1) (m := i) (by omega) hlt (fun d hd => by
        rcases Nat.lt_succ_iff_lt_or_eq.mp hd with hd | rfl
        · exact hless.le.trans (hleast d hd)
        · exact le_rfl) (by omega)
      refine ⟨c, hc, hl, .head ⟨_, k, 0, [.selectCore j (i + 1) (s.taskNum i) i], rfl, ?_, rfl⟩ hrun⟩
      simp only [exec, selectCore, if_pos hlt, if_pos hless, hfit i hlt]
    · obtain ⟨c, hc, hl, hrun⟩ := ih (i := i + 1) (m := m) (by omega) hm (fun d hd => by
        rcases Nat.lt_succ_iff_lt_or_eq.mp hd with hd | rfl
        · exact hleast d hd
        · exact not_lt.mp hless) (by omega)
      refine ⟨c, hc, hl, .head ⟨_, k, 0, [.selectCore j (i + 1) (s.taskNum m) m], rfl, ?_, rfl⟩ hrun⟩
      simp only [exec, selectCore, if_pos hlt, if_neg hless]

/-- In every state the load counters are exact, and while they fit into an `int` a job that
may run on any core is given one with the least outstanding. -/
theorem taskNum_exact (hC : Reach (driver P) (loadGuard P) Dev.init C) :
    (∀ c, C.shared.taskNum c = C.shared.outstanding P c) ∧
      ((∀ c < P.config.numIrqs, -2 ^ 31 ≤ C.shared.outstanding P c ∧
          C.shared.outstanding P c < 2 ^ 31) →
        ∀ j k, (C.shared.jobs j).args.coreMask = 0 → ∃ c < P.config.numIrqs,
          (∀ d < P.config.numIrqs, C.shared.outstanding P c ≤ C.shared.outstanding P d) ∧
            Relation.ReflTransGen (Alone P) (C.shared, .jobSchedule j :: k)
              (C.shared.setJob j (resolveCore · c), .domainGet j :: k)) := by
  have hI := Exact.reach hC
  refine ⟨hI, fun hfit j k hmask => ?_⟩
  have hint : ∀ d < P.config.numIrqs, toInt (C.shared.taskNum d) = C.shared.taskNum d := by
    intro d hd
    rw [hI d]
    exact toInt_eq (hfit d hd).1 (hfit d hd).2
  obtain ⟨c, hc, hl, hrun⟩ := selectCore_least (j := j) (k := k) (i := 1) (m := 0) hint
    P.config.numIrqs_pos P.config.numIrqs_pos (fun d hd => by
      obtain rfl : d = 0 := Nat.lt_one_iff.mp hd
      exact le_rfl)
  refine ⟨c, hc, fun d hd => by rw [← hI c, ← hI d]; exact hl d hd,
    .head ⟨_, k, 0, [.selectCore j 1 (C.shared.taskNum 0) 0], rfl, ?_, rfl⟩ hrun⟩
  simp only [exec, jobSchedule, hmask, if_true, hint 0 P.config.numIrqs_pos]

def loadRun : List (Label Int Occurrence) :=
  Label.env (Occurrence.submit (oneTask 3 1)) :: List.replicate 28 (Label.run 0 0)

theorem taskNum_exact_loadRun : ∃ C : Conf Dev Stmt, C.pending = 0 ∧ C.shared.slot 0 = some 0 ∧
    C.shared.outstanding (board rk356xConfig) 0 = 1 := by
  obtain ⟨C, hC, ht⟩ := Reach.exists_of_steps (driver (board rk356xConfig))
    (loadGuard (board rk356xConfig)) Dev.init loadRun (fun _ a _ => !a.unlinks)
    (fun C => C.threads.flatten == [] && C.shared.slot 0 == some 0 && C.shared.taskNum 0 == 1)
    (fun C a x h => by
      refine ⟨⟨trivial, ?_⟩, ?_⟩
      · rintro j i rfl
        simp [Stmt.unlinks] at h
      · exact fun c j hd => absurd (unlinks_of_drops hd) (by simpa using h))
    (fun e he _ _ => by
      simp [loadRun] at he
      subst he
      exact ⟨⟨trivial, trivial⟩, trivial⟩) (by decide +kernel)
  simp only [Bool.and_eq_true, beq_iff_eq] at ht
  have hidle : C.pending = 0 := by rw [Conf.pending, ht.1.1]; rfl
  exact ⟨C, hidle, ht.1.2, ((taskNum_exact hC).1 0).symm.trans ht.2⟩

/-- A blocking job waits behind it in vain. -/
def unlinkRun : List (Label Int Occurrence) :=
  loadRun ++ Label.env (Occurrence.submit (oneTask 1 1)) :: List.replicate 25 (Label.run 1 0)

theorem waiter_keeps_load : ¬∀ (P : Platform) (C : Conf Dev Stmt),
    Reach (driver P) completionWorld Dev.init C → C.pending = 0 →
      ∀ c, C.shared.taskNum c = C.shared.outstanding P c := by
  intro hall
  obtain ⟨C, hC, ht⟩ := Reach.exists_of_steps (driver (board rk356xConfig)) completionWorld
    Dev.init unlinkRun (fun _ _ _ => true)
    (fun C => C.threads.flatten == [] && C.shared.taskNum 0 == 2 &&
      C.shared.outstanding (board rk356xConfig) 0 == 1)
    (fun _ _ _ _ => trivial)
    (fun e he _ _ => by
      simp [unlinkRun, loadRun] at he
      rcases he with rfl | rfl <;> trivial) (by decide +kernel)
  simp only [Bool.and_eq_true, beq_iff_eq] at ht
  have hidle : C.pending = 0 := by rw [Conf.pending, ht.1.1]; rfl
  have h := hall _ C hC hidle 0
  rw [ht.1.2, ht.2] at h
  exact absurd h (by decide)

end Rknpu

import Rknpu.Fields

namespace Rknpu

open Interleaving

def Dev.needs (P : Platform) (s : Dev) (c : Nat) (j : JobId) : Bool :=
  decide (c < P.config.numIrqs) && inMask (s.mask j) c

/-- What a step that changes the lists leaves alone. -/
structure Kept (s s' : Dev) : Prop where
  jobNum : s'.jobNum = s.jobNum
  job : ∀ k, (s'.jobs k).counters = (s.jobs k).counters
  args : ∀ k, (s'.jobs k).args = (s.jobs k).args
  engine : s'.engine = s.engine
  softReseting : s'.softReseting = s.softReseting

variable {P : Platform} {s s' : Dev} {x : Int} {p : List Stmt} {j : JobId} {c : Nat} {r : Int}

theorem Kept.fields (hs : Kept s s') (k : JobId) : s'.mask k = s.mask k ∧
    (s'.jobs k).useCoreNum = (s.jobs k).useCoreNum ∧ (s'.jobs k).runCount = (s.jobs k).runCount ∧
    (s'.jobs k).interruptCount = (s.jobs k).interruptCount ∧
    (s'.jobs k).submitCount = (s.jobs k).submitCount := counters_fields (hs.job k)

theorem selectCore_effect {i : Nat} {t : Int} {ci : Nat}
    (h : exec P (.selectCore j i t ci) x s = some (s', p)) :
    (s' = s ∧ ∃ t' c', p = [.selectCore j (i + 1) t' c'] ∧ i < P.config.numIrqs ∧
      (c' = i ∨ c' = ci)) ∨
    (s' = s.setJob j (resolveCore · ci) ∧ p = [.domainGet j]) := by
  simp only [exec, selectCore, Option.some.injEq] at h
  repeat' split at h
  · cases h; exact .inl ⟨rfl, _, _, rfl, ‹_›, .inl rfl⟩
  · cases h; exact .inl ⟨rfl, _, _, rfl, ‹_›, .inr rfl⟩
  · cases h; exact .inr ⟨rfl, rfl⟩

theorem enqueue_effect (h : exec P (.enqueue j) x s = some (s', p)) :
    Kept s s' ∧ p = [.nextLoop j 0] ∧ s'.slot = s.slot ∧ s'.log = s.log ++ [.enqueue j] ∧
      ∀ c, s'.todoList c = if s.needs P c j then s.todoList c ++ [j] else s.todoList c := by
  cases h
  exact ⟨⟨rfl, counters_update rfl, field_update Job.args rfl, rfl, rfl⟩, rfl, rfl, rfl, fun _ => rfl⟩

theorem pickUp_effect (h : exec P (.pickUp c) x s = some (s', p)) :
    (s' = s ∧ p = [] ∧ (s.slot c ≠ none ∨ s.todoList c = [])) ∨
    ∃ j rest, s.slot c = none ∧ s.todoList c = j :: rest ∧ Kept s s' ∧ p = [.runDec j] ∧
      s'.slot = Function.update s.slot c (some j) ∧ s'.log = s.log ++ [.pickup c j] ∧
      s'.todoList = Function.update s.todoList c rest := by
  simp only [exec, pickUp, Option.some.injEq] at h
  split at h
  · rename_i j rest hs ht
    cases h
    exact .inr ⟨j, rest, hs, ht,
      ⟨rfl, counters_update rfl, field_update Job.args rfl, rfl, rfl⟩, rfl, rfl, rfl, rfl⟩
  · rename_i hn
    cases h
    refine .inl ⟨rfl, rfl, ?_⟩
    by_contra hc
    push Not at hc
    obtain ⟨j, rest, ht⟩ := List.exists_cons_of_ne_nil hc.2
    exact hn j rest hc.1 ht

theorem runDec_effect (h : exec P (.runDec j) x s = some (s', p)) :
    s' = s.setJob j (fun b => { b with runCount := b.runCount - 1 }) ∧
      p = if (s.jobs j).runCount = 1 then [.jobCommit j] else [] := by
  cases h
  exact ⟨rfl, rfl⟩

/-- A commit writes registers of its core and fields that do not count, until `PC_OP_EN`. -/
theorem commit_effect {a : Stmt} (ha : (a = .subcoreCommit j c ∨ a = .commitPc j c) ∨
      ∃ g k, g ≠ .pcOpEn ∧ a = .pc g j c k)
    (h : exec P a x s = some (s', p)) :
    Calm s s' ∧ (p = [] ∨ p = [.commitPc j c] ∨ p = [.pc .pcDataAddr j c ((s.jobs j).submitCount c)] ∨
      ∃ g k g', a = .pc g j c k ∧ p = [.pc g' j c k]) := by
  rcases ha with (rfl | rfl) | ⟨g, k, hg, rfl⟩
  · simp only [exec, subcoreCommit, Option.some.injEq] at h
    split at h
    · cases h; exact ⟨calm_write _ _ _ _, by simp⟩
    · cases h; exact ⟨(calm_write _ _ _ _).trans (calm_setJob _ _ _ rfl), by simp⟩
  · simp only [exec, commitPc, Option.some.injEq] at h
    split at h
    · cases h; exact ⟨calm_setJob _ _ _ rfl, by simp⟩
    · cases h
      refine ⟨?_, by simp⟩
      split
      · exact (calm_write _ _ _ _).trans (calm_write _ _ _ _)
      · exact .refl s
  · cases g with
    | pcOpEn => exact absurd rfl hg
    | firstTask | lastTask | jobIntMask => cases h; exact ⟨calm_setJob _ _ _ rfl, by simp⟩
    | _ => cases h; exact ⟨calm_write _ _ _ _, by simp⟩

theorem pcOpEn_effect {k : Nat} (h : exec P (.pc .pcOpEn j c k) x s = some (s', p)) :
    s'.jobNum = s.jobNum ∧ s'.jobs = s.jobs ∧ s'.todoList = s.todoList ∧ s'.slot = s.slot ∧
      s'.engine = Function.update s.engine c (.running j k) ∧
      s'.log = s.log ++ [.start c j k] ∧ p = [] := by
  cases h
  exact ⟨rfl, rfl, rfl, rfl, rfl, rfl, rfl⟩

theorem jobDone_effect (h : exec P (.jobDone j r c) x s = some (s', p)) :
    s' = s.setJob j (fun b =>
        { b with submitCount := Function.update b.submitCount c (b.submitCount c + 1) }) ∧
      p = if (((s.jobs j).submitCount c + 1 : Nat) : Int) < (s.jobs j).chunkCount P.config c
        then [.subcoreCommit j c] else [.releaseCore j r c] := by
  cases h
  exact ⟨rfl, rfl⟩

theorem releaseCore_effect (h : exec P (.releaseCore j r c) x s = some (s', p)) :
    Kept s s' ∧ p = [.interruptDec j r c, .jobNext c] ∧ s'.todoList = s.todoList ∧
      s'.slot = Function.update s.slot c none ∧ s'.log = s.log ++ [.release c j] := by
  cases h
  exact ⟨⟨rfl, counters_update rfl, field_update Job.args rfl, rfl, rfl⟩, rfl, rfl, rfl, rfl⟩

theorem interruptDec_effect (h : exec P (.interruptDec j r c) x s = some (s', p)) :
    s' = s.setJob j (fun b => { b with interruptCount := b.interruptCount - 1 }) ∧
      p = if (s.jobs j).interruptCount = 1 then [.doneWidth j r c] else [] := by
  cases h
  exact ⟨rfl, rfl⟩

def Stmt.counts : Stmt → Bool
  | .selectCore _ _ _ _ | .runDec _ | .jobDone _ _ _ | .interruptDec _ _ _ => true
  | _ => false

theorem exec_counters {a : Stmt} (ha : a.counts = false) (h : exec P a x s = some (s', p))
    (k : JobId) : (s'.jobs k).counters = (s.jobs k).counters := by
  by_cases hp : a.plain
  · exact (exec_calm hp h).1.job k
  by_cases hs : ∃ j, a.submits j
  · obtain ⟨j, hj⟩ := hs
    exact (exec_submits hj h).1.job k
  cases a with
  | selectCore | runDec | jobDone | interruptDec => cases ha
  | fenceIn i | fenceWait i | fenceOut i | fenceFd i | dispatch i =>
    exact absurd ⟨i, by simp [Stmt.submits]⟩ hs
  | enqueue i => exact (enqueue_effect h).1.job k
  | pickUp d =>
    obtain ⟨rfl, -⟩ | ⟨i, rest, -, -, hk, -⟩ := pickUp_effect h
    · rfl
    · exact hk.job k
  | releaseCore i r d => exact (releaseCore_effect h).1.job k
  | jobSchedule i =>
    simp only [exec, jobSchedule, Option.some.injEq] at h
    split at h <;> cases h <;> rfl
  | domainGet i =>
    simp only [exec, domainGet, Option.some.injEq] at h
    split at h <;> cases h
    · rfl
    · exact (calm_setJob _ _ _ rfl).job k
  | jobCommit | irqClear => cases h; rfl
  | subcoreCommit i d => exact (commit_effect (.inl (.inl rfl)) h).1.job k
  | commitPc i d => exact (commit_effect (.inl (.inr rfl)) h).1.job k
  | pc g i d n =>
    by_cases hg : g = .pcOpEn
    · subst hg
      rw [(pcOpEn_effect h).2.1]
    · exact (commit_effect (.inr ⟨g, n, hg, rfl⟩) h).1.job k
  | _ => exact absurd rfl hp

theorem exec_quiet {a : Stmt} (ha : a.settled) (hn : ∀ c, a ≠ .pickUp c)
    (h : exec P a x s = some (s', p)) : Quiet s s' ∧ ∀ b ∈ p, b.settled := by
  by_cases hp : a.plain
  · obtain ⟨hs, hl⟩ := exec_calm hp h
    exact ⟨hs.quiet, fun b hb => settled_of_light (hl b hb)⟩
  cases a <;> simp_all [Stmt.plain, Stmt.settled, Stmt.light]
  case jobCommit j =>
    cases h
    exact ⟨(Calm.refl s).quiet, by simp⟩
  case subcoreCommit j c =>
    obtain ⟨hs, hp⟩ := commit_effect (.inl (.inl rfl)) h
    exact ⟨hs.quiet, by rcases hp with rfl | rfl | rfl | ⟨g, k, g', ha, rfl⟩ <;> simp⟩
  case commitPc j c =>
    obtain ⟨hs, hp⟩ := commit_effect (.inl (.inr rfl)) h
    exact ⟨hs.quiet, by rcases hp with rfl | rfl | rfl | ⟨g, k, g', ha, rfl⟩ <;> simp⟩
  case pc g j c k =>
    by_cases hg : g = .pcOpEn
    · subst hg
      cases h
      exact ⟨⟨rfl, fun _ => rfl, fun _ => rfl, fun _ => rfl, fun _ => .refl _, fun _ _ h => h, _,
        rfl, by simp [Event.queues]⟩, by simp⟩
    · obtain ⟨hs, hp⟩ := commit_effect (.inr ⟨g, k, hg, rfl⟩) h
      exact ⟨hs.quiet, by rcases hp with rfl | rfl | rfl | ⟨g, k, g', ha, rfl⟩ <;> simp⟩
  case jobDone j r c =>
    obtain ⟨rfl, rfl⟩ := jobDone_effect h
    refine ⟨quiet_setJob _ _ _ rfl rfl rfl, ?_⟩
    split <;> simp
  case releaseCore j r c =>
    obtain ⟨hk, rfl, ht, hs, hl⟩ := releaseCore_effect h
    refine ⟨⟨hk.jobNum, fun k => (hk.fields k).1, fun k => (hk.fields k).2.1,
      fun k => (hk.fields k).2.2.1, fun d => by rw [ht], fun i d hd => ?_, _, hl,
      by simp [Event.queues]⟩, by simp⟩
    by_cases hdc : d = c
    · subst hdc; simp [hs] at hd
    · simpa [hs, hdc] using hd
  case interruptDec j r c =>
    obtain ⟨rfl, rfl⟩ := interruptDec_effect h
    refine ⟨quiet_setJob _ _ _ rfl rfl rfl, ?_⟩
    split <;> simp
  case irqClear c e =>
    cases h
    refine ⟨(calm_write _ _ _ _).quiet, ?_⟩
    split <;> simp

theorem exec_todo {a : Stmt} (ha : ∀ j, a ≠ .enqueue j) (h : exec P a x s = some (s', p))
    (c : Nat) :
    (s'.todoList c).Sublist (s.todoList c) := by
  by_cases hs : a.settled
  · by_cases hp : ∃ c, a = .pickUp c
    · obtain ⟨d, rfl⟩ := hp
      obtain ⟨rfl, -, -⟩ | ⟨j, rest, -, hj, -, -, -, -, ht⟩ := pickUp_effect h
      · exact .refl _
      · rw [ht]
        by_cases hd : c = d
        · subst hd
          rw [Function.update_self, hj]
          exact List.sublist_cons_self _ _
        · rw [Function.update_of_ne hd]
    · exact (exec_quiet hs (by simpa using hp) h).1.todo c
  cases a with
  | fenceIn i | fenceWait i _ | fenceOut i | fenceFd i | dispatch i =>
    exact (exec_submits (j := i) (by simp [Stmt.submits]) h).1.todo c
  | jobSchedule i =>
    simp only [exec, jobSchedule, Option.some.injEq] at h
    split at h <;> cases h <;> exact .refl _
  | selectCore i n t ci =>
    obtain ⟨rfl, -⟩ | ⟨rfl, -⟩ := selectCore_effect h <;> exact .refl _
  | domainGet i =>
    simp only [exec, domainGet, Option.some.injEq] at h
    split at h <;> cases h <;> exact .refl _
  | enqueue i => exact absurd rfl (ha i)
  | runDec i =>
    obtain ⟨rfl, -⟩ := runDec_effect h
    exact .refl _
  | _ => exact absurd rfl hs

theorem exec_loops {a : Stmt} {i : Nat} (h : exec P a x s = some (s', p))
    (hm : .nextLoop j i ∈ p) : a = .enqueue j ∨ ∃ n, a = .nextLoop j n := by
  cases a <;>
    simp only [exec, fenceIn, fenceWait, fenceOut, fenceFd, dispatch, submitAsync, submitWait,
      submitResult, submitReturn, jobSchedule, selectCore, domainGet, enqueue, nextLoop, jobNext,
      pickUp, runDec, jobCommit, subcoreCommit, commitPc, jobDone, releaseCore, interruptDec,
      doneWidth, donePut, doneFlag, doneRet, doneFence, doneAsync, irqEnter, irqStatus, irqCheck,
      irqClear, irqReturn, waitEvent, waitElapsed, waitLastTask, waitUnlink, waitStatus, waitFlags,
      waitReturn, jobAbort, abortCores, abortReset, jobFree, timeoutClean, cancel, cancelWork,
      drain, drainWork, softReset, resetMark, resetHw, resetEnd,
      stateInit, resetUnlock, Option.some.injEq] at h
  case pc g j c k => cases g <;> cases h <;> simp at hm
  all_goals
    repeat' split at h
    all_goals
      cases h
      try (repeat' split at hm)
      all_goals simp_all

/-- Statements after which every slot holds what it held before. -/
def Stmt.keepsSlot : Stmt → Bool
  | .pickUp _ | .releaseCore _ _ _ | .abortCores _ | .cancel _ _ => false
  | _ => true

theorem exec_slot {a : Stmt} (ha : a.keepsSlot) (h : exec P a x s = some (s', p)) :
    s'.slot = s.slot := by
  cases a <;> simp only [Stmt.keepsSlot, Bool.false_eq_true] at ha <;>
    simp only [exec, fenceIn, fenceWait, fenceOut, fenceFd, dispatch, submitAsync, submitWait,
      submitResult, submitReturn, jobSchedule, selectCore, domainGet, enqueue, nextLoop, jobNext,
      runDec, jobCommit, subcoreCommit, commitPc, jobDone, interruptDec, doneWidth, donePut,
      doneFlag, doneRet, doneFence, doneAsync, irqEnter, irqStatus, irqCheck, irqClear, irqReturn,
      waitEvent, waitElapsed, waitLastTask, waitUnlink, waitStatus, waitFlags, waitReturn,
      jobAbort, abortReset, jobFree, timeoutClean, cancelWork, drain, drainWork, softReset,
      resetMark, resetHw, resetEnd,
      stateInit, resetUnlock, Option.some.injEq] at h
  case pc g j c k => cases g <;> cases h <;> rfl
  all_goals
    repeat' split at h
    all_goals
      cases h
      try rfl

theorem cancel_slot {i : Nat} (h : exec P (.cancel j i) x s = some (s', p)) (c : Nat) :
    s'.slot c = if c < P.config.numIrqs ∧ s.slot c = some j then none else s.slot c := by
  cases h
  rfl

/-- The cores that `rknpu_job_abort` takes from job `j`. -/
def Dev.aborts (P : Platform) (s : Dev) (j : JobId) (c : Nat) : Bool :=
  c < P.config.numIrqs && inMask (s.mask j) c && s.slot c == some j && !(s.jobs j).irqEntry c

theorem abortCores_slot (h : exec P (.abortCores j) x s = some (s', p)) (c : Nat) :
    s'.slot c = if s.aborts P j c then none else s.slot c := by
  cases h
  rfl

theorem slot_exec {a : Stmt} (ha : a ≠ .pickUp c) (h : exec P a x s = some (s', p))
    (hj : s'.slot c = some j) : s.slot c = some j := by
  by_cases hk : a.keepsSlot
  · rwa [exec_slot hk h] at hj
  cases a with
  | pickUp d =>
    obtain ⟨rfl, -⟩ | ⟨i, rest, -, -, -, -, hs, -⟩ := pickUp_effect h
    · exact hj
    · rwa [hs, Function.update_of_ne (by rintro rfl; exact ha rfl)] at hj
  | releaseCore i r d =>
    obtain ⟨-, -, -, hs, -⟩ := releaseCore_effect h
    rw [hs] at hj
    by_cases hd : c = d
    · rw [hd, Function.update_self] at hj
      cases hj
    · rwa [Function.update_of_ne hd] at hj
  | abortCores i =>
    rw [abortCores_slot h] at hj
    split at hj
    · cases hj
    · exact hj
  | cancel i n =>
    rw [cancel_slot h] at hj
    split at hj
    · cases hj
    · exact hj
  | _ => exact absurd rfl hk

def Stmt.logs : Stmt → Event → Bool
  | .domainGet j, .domainGet i | .enqueue j, .enqueue i | .donePut j _ _, .domainPut i
  | .jobAbort j, .domainPut i | .doneFlag j _ _, .done i | .doneFence j _, .fenceSignal i
  | .doneAsync j _, .scheduleWork i _ | .cancelWork j _, .scheduleWork i _
  | .drainWork j _, .scheduleWork i _ | .jobFree j, .free i
  | .submitReturn j _, .submitReturn i _ => j == i
  | .pickUp c, .pickup d _ => c == d
  | .pc .pcOpEn j c k, .start d i n => j == i && c == d && k == n
  | .releaseCore j _ c, .release d i => j == i && c == d
  | .cancel _ _, .listEmpty _ _ _ | .cancel _ _, .listDel _ _ _ | .drain _, .listEmpty _ _ _
  | .drain _, .listDel _ _ _ => true
  | _, _ => false

theorem logs_unlinkEvents {b : Job} {i : JobId} {e : Event} {a : Stmt}
    (ha : (∃ k n, a = .cancel k n) ∨ ∃ n, a = .drain n)
    (he : e ∈ (List.range P.config.numIrqs).flatMap (unlinkEvents b i)) : a.logs e := by
  obtain ⟨c, -, he⟩ := List.mem_flatMap.mp he
  unfold unlinkEvents at he
  rcases ha with ⟨k, n, rfl⟩ | ⟨n, rfl⟩ <;> split at he <;> simp at he <;>
    rcases he with rfl | rfl <;> rfl

theorem exec_logs {a : Stmt} (h : exec P a x s = some (s', p)) :
    ∃ es, s'.log = s.log ++ es ∧ ∀ e ∈ es, a.logs e := by
  cases a <;>
    simp only [exec, fenceIn, fenceWait, fenceOut, fenceFd, dispatch, submitAsync, submitWait,
      submitResult, submitReturn, jobSchedule, selectCore, domainGet, enqueue, nextLoop, jobNext,
      pickUp, runDec, jobCommit, subcoreCommit, commitPc, jobDone, releaseCore, interruptDec,
      doneWidth, donePut, doneFlag, doneRet, doneFence, doneAsync, irqEnter, irqStatus, irqCheck,
      irqClear, irqReturn, waitEvent, waitElapsed, waitLastTask, waitUnlink, waitStatus, waitFlags,
      waitReturn, jobAbort, abortCores, abortReset, jobFree, timeoutClean, cancel, cancelWork,
      drain, drainWork, softReset, resetMark, resetHw, resetEnd,
      stateInit, resetUnlock, Option.some.injEq] at h
  case pc g j c k =>
    cases g <;> cases h <;>
      first
        | exact ⟨[], (List.append_nil _).symm, by simp⟩
        | exact ⟨_, rfl, by simp [Stmt.logs]⟩
  case cancel j i =>
    cases h
    exact ⟨_, rfl, fun e he => logs_unlinkEvents (.inl ⟨_, _, rfl⟩) he⟩
  case drain i =>
    split at h <;> cases h
    · exact ⟨[], (List.append_nil _).symm, by simp⟩
    · exact ⟨_, rfl, fun e he => logs_unlinkEvents (.inr ⟨_, rfl⟩) he⟩
  all_goals
    repeat' split at h
    all_goals
      cases h
      first
        | done
        | exact ⟨[], (List.append_nil _).symm, by simp⟩
        | exact ⟨_, rfl, by simp [Stmt.logs]⟩

theorem exec_count {a : Stmt} (h : exec P a x s = some (s', p)) {e : Event} (he : a.logs e = false) :
    s'.log.count e = s.log.count e := by
  obtain ⟨es, hl, hes⟩ := exec_logs h
  have hz : es.count e = 0 := List.count_eq_zero.mpr fun hm => by
    rw [hes e hm] at he
    cases he
  rw [hl, List.count_append, hz, Nat.add_zero]

section Logs

variable {a : Stmt}

theorem logs_enqueue (h : a.logs (.enqueue j)) : a = .enqueue j := by
  cases a <;> simp_all [Stmt.logs]

theorem logs_pickup (h : a.logs (.pickup c j)) : a = .pickUp c := by
  cases a <;> simp_all [Stmt.logs]

theorem logs_release (h : a.logs (.release c j)) : ∃ r, a = .releaseCore j r c := by
  cases a <;> simp_all [Stmt.logs]

theorem logs_fenceSignal (h : a.logs (.fenceSignal j)) : ∃ q, a = .doneFence j q := by
  cases a <;> simp_all [Stmt.logs]

theorem count_enqueue (ha : a ≠ .enqueue j) (h : exec P a x s = some (s', p)) :
    s'.log.count (.enqueue j) = s.log.count (.enqueue j) :=
  exec_count h (Bool.eq_false_iff.mpr fun hl => ha (logs_enqueue hl))

theorem count_pickup (ha : a ≠ .pickUp c) (h : exec P a x s = some (s', p)) :
    s'.log.count (.pickup c j) = s.log.count (.pickup c j) :=
  exec_count h (Bool.eq_false_iff.mpr fun hl => ha (logs_pickup hl))

theorem count_release (ha : ∀ r, a ≠ .releaseCore j r c) (h : exec P a x s = some (s', p)) :
    s'.log.count (.release c j) = s.log.count (.release c j) :=
  exec_count h (Bool.eq_false_iff.mpr fun hl => (logs_release hl).elim ha)

end Logs

/-- The history only grows. -/
theorem exec_log {a : Stmt} (h : exec P a x s = some (s', p)) : s.log <+: s'.log := by
  obtain ⟨es, hl, -⟩ := exec_logs h
  exact hl ▸ List.prefix_append _ _

/-- A new job is as `rknpu_job_alloc` leaves it, and one statement is pending for it. -/
theorem spawn_effect {e : Occurrence} (he : e.spawns) (h : occur P e s = some (s', p)) :
    (s' = s ∧ p = []) ∨
    ∃ b args, b.counters = (jobAlloc s.clock args).counters ∧
      (p = [.fenceIn s.jobNum] ∨ p = [.jobSchedule s.jobNum]) ∧ s'.jobNum = s.jobNum + 1 ∧
      s'.jobs = Function.update s.jobs s.jobNum b ∧ s'.todoList = s.todoList ∧
      s'.slot = s.slot ∧ s'.engine = s.engine ∧ s'.log = s.log := by
  cases e <;> simp only [Occurrence.spawns, Bool.false_eq_true] at he
  case submit args =>
    simp only [occur] at h
    split at h <;> cases h
    · exact .inr ⟨_, args, rfl, .inl rfl, rfl, rfl, rfl, rfl, rfl, rfl⟩
    · exact .inl ⟨rfl, rfl⟩
  case schedule args fence =>
    cases h
    refine .inr ⟨_, args, ?_, .inr rfl, rfl, rfl, rfl, rfl, rfl, rfl⟩
    rfl

theorem completion_effect (h : occur P (.completion c) s = some (s', p)) :
    ∃ j k, s.engine c = .running j k ∧ s.slot c = some j ∧ p = [.jobDone j 0 c] ∧ s'.jobNum = s.jobNum ∧
      (∀ k, (s'.jobs k).counters = (s.jobs k).counters) ∧ s'.todoList = s.todoList ∧
      s'.slot = s.slot ∧ s'.engine = Function.update s.engine c (.complete j k) ∧
      s'.log = s.log ++ [.complete c j k] := by
  simp only [occur, Option.map_eq_some_iff] at h
  obtain ⟨⟨j, k⟩, hr, he⟩ := h
  simp only [Dev.serves] at hr
  split at hr
  · rename_i j' k' i he' hs
    split at hr
    · rename_i hj
      subst hj
      cases hr
      cases he
      exact ⟨_, _, he', hs, rfl, rfl, counters_update rfl, rfl, rfl, rfl, rfl⟩
    · cases hr
  · cases hr

theorem hwComplete_effect {bits : Word} (h : occur P (.hwComplete c bits) s = some (s', p)) :
    ∃ j k, s.engine c = .running j k ∧ p = [] ∧ s'.jobNum = s.jobNum ∧ s'.jobs = s.jobs ∧
      s'.todoList = s.todoList ∧ s'.slot = s.slot ∧
      s'.engine = Function.update s.engine c (.complete j k) ∧
      s'.log = s.log ++ [.complete c j k] := by
  simp only [occur] at h
  split at h
  · rename_i j k he
    split at h <;> cases h
    exact ⟨j, k, he, rfl, rfl, rfl, rfl, rfl, rfl, rfl⟩
  · cases h

theorem occur_calm {e : Occurrence} (he : e.spawns = false) (hc : ∀ c, e ≠ .completion c)
    (hw : ∀ c bits, e ≠ .hwComplete c bits) (h : occur P e s = some (s', p)) :
    Calm s s' ∧ ∀ b ∈ p, b.light := by
  cases e with
  | submit | schedule => cases he
  | completion c => exact absurd rfl (hc c)
  | hwComplete c bits => exact absurd rfl (hw c bits)
  | next c =>
    simp only [occur] at h
    split at h <;> cases h
    exact ⟨.refl s, by simp [Stmt.light]⟩
  | irq c | cleanupWork c =>
    simp only [occur] at h
    split at h <;> cases h
    exact ⟨.of_eq rfl (fun _ => rfl) rfl rfl rfl rfl, by simp [Stmt.light]⟩
  | mergeFence fd fd₁ fd₂ =>
    simp only [occur] at h
    split at h <;> cases h
    exact ⟨.of_eq rfl (fun _ => rfl) rfl rfl rfl rfl, by simp⟩
  | _ =>
    cases h
    exact ⟨.of_eq rfl (fun _ => rfl) rfl rfl rfl rfl, by simp [Stmt.light]⟩

theorem occur_quiet {e : Occurrence} (he : e.spawns = false) (h : occur P e s = some (s', p)) :
    Quiet s s' ∧ ∀ b ∈ p, b.settled := by
  by_cases hc : ∃ c, e = .completion c
  · obtain ⟨c, rfl⟩ := hc
    obtain ⟨j, k, -, -, rfl, hn, hj, ht, hs, -, hl⟩ := completion_effect h
    simp only [Job.counters, Prod.mk.injEq] at hj
    exact ⟨⟨hn, fun i => (hj i).1, fun i => (hj i).2.1, fun i => (hj i).2.2.1, fun d => by rw [ht],
      fun i d hd => hs ▸ hd, _, hl, by simp [Event.queues]⟩, by simp [Stmt.settled]⟩
  by_cases hw : ∃ c bits, e = .hwComplete c bits
  · obtain ⟨c, bits, rfl⟩ := hw
    obtain ⟨j, k, -, rfl, hn, hj, ht, hs, -, hl⟩ := hwComplete_effect h
    exact ⟨⟨hn, fun i => by rw [Dev.mask, hj]; rfl, fun i => by rw [hj], fun i => by rw [hj],
      fun d => by rw [ht], fun i d hd => hs ▸ hd, _, hl, by simp [Event.queues]⟩, by simp⟩
  push Not at hc hw
  obtain ⟨hs, hp⟩ := occur_calm he hc hw h
  exact ⟨hs.quiet, fun b hb => settled_of_light (hp b hb)⟩

theorem occur_counters {e : Occurrence} (he : e.spawns = false) (h : occur P e s = some (s', p))
    (k : JobId) : (s'.jobs k).counters = (s.jobs k).counters := by
  cases e with
  | completion c =>
    obtain ⟨j, n, -, -, -, -, hj, -⟩ := completion_effect h
    exact hj k
  | hwComplete c bits =>
    obtain ⟨j, n, -, -, -, hj, -⟩ := hwComplete_effect h
    rw [hj]
  | _ => exact (occur_calm he (by simp) (by simp) h).1.job k

theorem occur_slot {e : Occurrence} (h : occur P e s = some (s', p)) : s'.slot = s.slot := by
  cases e with
  | completion c =>
    obtain ⟨j, k, -, -, -, -, -, -, hs, -, -⟩ := completion_effect h
    exact hs
  | _ =>
    simp only [occur] at h
    repeat' split at h
    all_goals
      cases h
      try rfl

theorem occur_todo {e : Occurrence} (h : occur P e s = some (s', p)) :
    s'.todoList = s.todoList := by
  cases e with
  | completion c =>
    obtain ⟨j, k, -, -, -, -, -, ht, -, -, -⟩ := completion_effect h
    exact ht
  | _ =>
    simp only [occur] at h
    repeat' split at h
    all_goals
      cases h
      try rfl

theorem occur_loops {e : Occurrence} {i : Nat} (h : occur P e s = some (s', p)) :
    .nextLoop j i ∉ p := by
  intro hm
  by_cases he : e.spawns
  · obtain ⟨-, rfl⟩ | ⟨b, args, -, hp, -⟩ := spawn_effect he h
    · simp at hm
    · rcases hp with rfl | rfl <;> simp at hm
  · cases e with
    | completion c =>
      obtain ⟨j, k, -, -, rfl, -⟩ := completion_effect h
      simp at hm
    | submit | schedule => exact absurd rfl he
    | _ =>
      simp only [occur] at h
      repeat' split at h
      all_goals
        cases h
        try simp at hm

theorem occur_logs {e : Occurrence} (h : occur P e s = some (s', p)) :
    ∃ es, s'.log = s.log ++ es ∧ ∀ e ∈ es, ∃ c j k, e = .complete c j k := by
  cases e with
  | completion c =>
    obtain ⟨j, k, -, -, -, -, -, -, -, -, hl⟩ := completion_effect h
    exact ⟨_, hl, by simp⟩
  | _ =>
    simp only [occur] at h
    repeat' split at h
    all_goals
      cases h
      first
        | done
        | exact ⟨[], (List.append_nil _).symm, by simp⟩
        | exact ⟨_, rfl, by simp⟩

theorem occur_count {ev : Event} {e : Occurrence} (h : occur P e s = some (s', p))
    (hev : ∀ c j k, ev ≠ .complete c j k) : s'.log.count ev = s.log.count ev := by
  obtain ⟨es, hl, hes⟩ := occur_logs h
  have hz : es.count ev = 0 := List.count_eq_zero.mpr fun hm => by
    obtain ⟨c, j, k, rfl⟩ := hes ev hm
    exact hev c j k rfl
  rw [hl, List.count_append, hz, Nat.add_zero]

theorem occur_log {e : Occurrence} (h : occur P e s = some (s', p)) : s.log <+: s'.log := by
  obtain ⟨es, hl, -⟩ := occur_logs h
  exact hl ▸ List.prefix_append _ _

/-- The environment starts no work on a job but `rknpu_job_done`. -/
theorem occur_weights {e : Occurrence} (h : occur P e s = some (s', p)) (k : JobId) (d : Nat) :
    load (interruptDecW k) (p : Multiset Stmt) = 0 ∧ load (jobCommitW k) (p : Multiset Stmt) = 0 ∧
      load (commitW k d) (p : Multiset Stmt) = 0 ∧ load (releaseW k d) (p : Multiset Stmt) = 0 := by
  cases e with
  | completion c =>
    obtain ⟨j, n, -, -, rfl, -⟩ := completion_effect h
    exact ⟨rfl, rfl, rfl, rfl⟩
  | _ =>
    simp only [occur, spawn] at h
    repeat' split at h
    all_goals
      cases h
      try exact ⟨rfl, rfl, rfl, rfl⟩

end Rknpu

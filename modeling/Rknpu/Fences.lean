import Rknpu.Flow
import Rknpu.Done
import Rknpu.Moves
import Rknpu.Dispatch

namespace Rknpu

open Interleaving

variable {P : Platform} {s s' : Dev} {B R : Multiset Stmt} {a : Stmt} {x : Int} {p : List Stmt}
  {j : JobId} {e : Occurrence}

/-- The statements of `rknpu_submit` before the fences of the job are settled. -/
def earlyW (j : JobId) : Stmt → Nat
  | .fenceIn i | .fenceWait i _ | .fenceOut i | .fenceFd i => if i = j then 1 else 0
  | _ => 0

def Stmt.about : Stmt → Option JobId
  | .dispatch j | .submitAsync j | .submitWait j | .submitResult j | .jobSchedule j
  | .selectCore j _ _ _ | .domainGet j | .enqueue j | .nextLoop j _ | .runDec j | .jobCommit j
  | .subcoreCommit j _ | .commitPc j _ | .pc _ j _ _ | .jobDone j _ _ | .releaseCore j _ _
  | .interruptDec j _ _ | .doneWidth j _ _ | .donePut j _ _ | .doneFlag j _ _ | .doneRet j _ _
  | .doneFence j _ | .doneAsync j _ | .irqStatus j _ | .irqCheck j _ _ | .irqClear _ (.done j)
  | .waitEvent j _ | .waitElapsed j _ | .waitLastTask j _ | .waitUnlink j _ | .waitStatus j _
  | .waitFlags j | .waitReturn j _ | .jobAbort j | .abortCores j | .abortReset j | .jobFree j
  | .cancel j _ | .cancelWork j _ | .drainWork j _ => some j
  | _ => none

/-- The fence of job `j` is in the hands of user space. -/
def Published (s : Dev) (j : JobId) : Prop :=
  (s.jobs j).fence.isSome ∧ 0 ≤ (s.jobs j).args.fenceFd

def Fixed (s : Dev) (B : Multiset Stmt) (j : JobId) : Prop :=
  j < s.jobNum ∧ load (earlyW j) B = 0

theorem exec_earlyW (h : exec P a x s = some (s', p)) (j : JobId) :
    load (earlyW j) (p : Multiset Stmt) ≤ earlyW j a := by
  cases exec_flow h
  case jobCommit =>
    rw [load_commits_eq_zero fun _ => rfl]
    exact Nat.zero_le _
  all_goals simp [earlyW]

theorem exec_about (h : exec P a x s = some (s', p)) (j : JobId) :
    ∀ b ∈ p, b.about = some j →
      a.about = some j ∨ earlyW j a = 1 ∨ (∃ c, s.slot c = some j) ∨ ∃ c, j ∈ s.todoList c := by
  cases exec_flow h
  case pickUp c i =>
    obtain ⟨-, hp, -⟩ | ⟨k, rest, -, ht, -, hp, -⟩ := pickUp_effect h <;> cases hp
    simp only [List.forall_mem_singleton, Stmt.about, Option.some.injEq]
    rintro rfl
    exact .inr (.inr (.inr ⟨c, by simp [ht]⟩))
  case irqEnter c i =>
    simp only [exec, irqEnter, Option.some.injEq] at h
    split at h <;> cases h
    simp only [List.forall_mem_singleton, Stmt.about, Option.some.injEq]
    rintro rfl
    exact .inr (.inr (.inl ⟨c, ‹_›⟩))
  case timeoutCleanJob m i k =>
    simp only [exec, timeoutClean, Option.some.injEq] at h
    repeat' split at h
    all_goals cases h
    simp only [List.forall_mem_cons, Stmt.about, reduceCtorEq, false_implies, true_and,
      Option.some.injEq, List.not_mem_nil, implies_true, and_true]
    rintro rfl
    exact .inr (.inr (.inl ⟨i, ‹_›⟩))
  case drain i k =>
    simp only [exec, drain, Option.some.injEq] at h
    split at h <;> cases h
    simp only [List.forall_mem_singleton, Stmt.about, Option.some.injEq]
    rintro rfl
    exact .inr (.inr (.inr ⟨i, by simp [*]⟩))
  case jobCommit i l =>
    intro b hb hab
    obtain ⟨c, -, rfl⟩ := List.mem_map.mp hb
    exact .inl hab
  all_goals
    intro b hb hab
    rcases hb with _ | ⟨_, _ | ⟨_, _ | ⟨_, ⟨⟩⟩⟩⟩ <;>
      first
        | exact .inl hab
        | cases hab <;> exact .inr (.inl (if_pos rfl))

theorem exec_published (ha : earlyW j a = 0) (h : exec P a x s = some (s', p)) :
    Published s' j ↔ Published s j := by
  have hfence : (s'.jobs j).fence = (s.jobs j).fence :=
    exec_get (f := .fence) (by cases a <;> simp_all [Stmt.writes, earlyW]) h
  have hfd : (s'.jobs j).args.fenceFd = (s.jobs j).args.fenceFd :=
    exec_get (f := .fenceFd) (by cases a <;> simp_all [Stmt.writes, earlyW]) h
  rw [Published, Published, hfence, hfd]

theorem occur_published {e : Occurrence} (hj : j < s.jobNum) (h : occur P e s = some (s', p)) :
    Published s' j ↔ Published s j := by
  have hne : e.spawns → j ≠ s.jobNum := fun _ => Nat.ne_of_lt hj
  have hfence : (s'.jobs j).fence = (s.jobs j).fence :=
    occur_get (f := .fence) hne (by simp) h
  have hfd : (s'.jobs j).args.fenceFd = (s.jobs j).args.fenceFd :=
    occur_get (f := .fenceFd) hne (by simp) h
  rw [Published, Published, hfence, hfd]

/-- The job whose fence a statement of `rknpu_submit` has not got to. -/
def Stmt.unfenced : Stmt → Option JobId
  | .fenceIn j | .fenceWait j _ | .fenceOut j => some j
  | _ => none

/-- Between setting `RKNPU_JOB_DONE` and `dma_fence_signal`. -/
def signallingW (j : JobId) : Stmt → Nat
  | .doneRet i _ _ | .doneFence i _ => if i = j then 1 else 0
  | _ => 0

/-- The recovery paths and the blocking `rknpu_submit` release a job with a published
fence only when `rknpu_job_done` is past its signal. -/
def Settled (s : Dev) (B : Multiset Stmt) (j : JobId) : Prop :=
  Published s j → (s.jobs j).done ∧ load (signallingW j) B = 0

def fenceGuard : Guard Dev Stmt Int Occurrence where
  run s B a _ := ∀ j, (a = .submitResult j ∧ (s.jobs j).ret = 0 ∨ a = .abortReset j ∨
    ∃ i, a = .cancelWork j i ∨ a = .drainWork j i) → Settled s B j
  env _ _ _ := True

/-- The fence of the job has been signalled, if anybody can see it. -/
def Signalled (s : Dev) (j : JobId) : Prop := Published s j → .fenceSignal j ∈ s.log

structure Fences (s : Dev) (B : Multiset Stmt) : Prop where
  fixed : ∀ a ∈ B, ∀ j, a.about = some j → Fixed s B j
  early : ∀ a ∈ B, ∀ j, a.unfenced = some j → (s.jobs j).fence = none
  work : ∀ j, s.workPending j → Fixed s B j ∧ Signalled s j
  freed : ∀ j, .jobFree j ∈ B → Signalled s j
  async : ∀ j q, .doneAsync j q ∈ B → Signalled s j
  done : ∀ j, (s.jobs j).done → Fixed s B j ∧
    (Published s j → .fenceSignal j ∈ s.log ∨ 0 < load (signallingW j) B)

theorem earlyW_le_preW (j : JobId) (a : Stmt) : earlyW j a ≤ preW j a := by
  cases a <;> simp [earlyW, preW]

namespace Fixed

theorem earlyW_eq (h : Fixed s (a ::ₘ R) j) : earlyW j a = 0 := by
  have := h.2
  rw [load_cons] at this
  omega

theorem exec (hF : Fixed s (a ::ₘ R) j) (h : exec P a x s = some (s', p)) :
    Fixed s' ((p : Multiset Stmt) + R) j := by
  have he := exec_earlyW h j
  have h0 := hF.2
  rw [load_cons] at h0
  exact ⟨exec_jobNum h ▸ hF.1, by rw [load_add]; omega⟩

theorem of_enqueued (hQ : Queued P s B) (hj : 0 < s.log.count (.enqueue j)) : Fixed s B j := by
  have hle := load_mono (f := earlyW j) (g := preW j) (B := B) fun a _ => earlyW_le_preW j a
  have := hQ.once j
  refine ⟨Nat.lt_of_not_le fun hc => ?_, by omega⟩
  have := hQ.fresh j hc
  omega

theorem of_early (hQ : Queued P s (a ::ₘ R)) (ha : earlyW j a = 1)
    (hp : load (earlyW j) (p : Multiset Stmt) = 0) (h : Rknpu.exec P a x s = some (s', p)) :
    Fixed s' ((p : Multiset Stmt) + R) j := by
  have hle := load_mono (f := earlyW j) (g := preW j) (B := R) fun a _ => earlyW_le_preW j a
  have hpre := earlyW_le_preW j a
  have honce := hQ.once j
  rw [load_cons] at honce
  refine ⟨exec_jobNum h ▸ Nat.lt_of_not_le fun hc => ?_, by rw [load_add]; omega⟩
  have := hQ.fresh j hc
  rw [load_cons] at this
  omega

end Fixed

theorem exec_settles (ha : earlyW j a = 1) (h : exec P a x s = some (s', p)) :
    ∀ b ∈ p, b.about = some j → load (earlyW j) (p : Multiset Stmt) = 0 := by
  cases exec_flow h <;> simp [earlyW] at ha <;> simp [Stmt.about, earlyW, ha]

/-- What leads to `rknpu_job_free`: an error before the fence, or a path that is guarded. -/
theorem exec_frees (h : exec P a x s = some (s', p)) (hj : .jobFree j ∈ p) :
    (a = .submitResult j ∧ (s.jobs j).ret = 0) ∨ a = .abortReset j ∨
      a.unfenced = some j ∧ (s'.jobs j).fence = (s.jobs j).fence := by
  cases a <;>
    simp only [exec, fenceIn, fenceWait, fenceOut, fenceFd, dispatch, submitAsync, submitWait,
      submitResult, submitReturn, jobSchedule, selectCore, domainGet, enqueue, nextLoop, jobNext,
      pickUp, runDec, jobCommit, subcoreCommit, commitPc, jobDone, releaseCore, interruptDec,
      doneWidth, donePut, doneFlag, doneRet, doneFence, doneAsync, irqEnter, irqStatus, irqCheck,
      irqClear, irqReturn, waitEvent, waitElapsed, waitLastTask, waitUnlink, waitStatus, waitFlags,
      waitReturn, jobAbort, abortCores, abortReset, jobFree, timeoutClean, cancel, cancelWork,
      drain, drainWork, softReset, resetMark, resetHw, resetEnd,
      stateInit, resetUnlock, Option.some.injEq] at h
  case pc g i c k => cases g <;> cases h <;> simp at hj
  case irqClear c e => cases h; cases e <;> simp at hj
  case submitResult i =>
    cases h
    split at hj <;> simp at hj
    subst hj
    exact .inl ⟨rfl, ‹_›⟩
  case abortReset i =>
    cases h
    split at hj <;> simp at hj <;> subst hj <;> exact .inr (.inl rfl)
  all_goals
    repeat' split at h
    all_goals
      cases h <;> simp at hj <;> try (subst hj; simp [Stmt.unfenced])

theorem exec_work (h : exec P a x s = some (s', p)) (hj : s'.workPending j) :
    s.workPending j ∨ (∃ q, a = .doneAsync j q) ∨ ∃ i, a = .cancelWork j i ∨ a = .drainWork j i := by
  cases a <;>
    simp only [exec, fenceIn, fenceWait, fenceOut, fenceFd, dispatch, submitAsync, submitWait,
      submitResult, submitReturn, jobSchedule, selectCore, domainGet, enqueue, nextLoop, jobNext,
      pickUp, runDec, jobCommit, subcoreCommit, commitPc, jobDone, releaseCore, interruptDec,
      doneWidth, donePut, doneFlag, doneRet, doneFence, doneAsync, irqEnter, irqStatus, irqCheck,
      irqClear, irqReturn, waitEvent, waitElapsed, waitLastTask, waitUnlink, waitStatus, waitFlags,
      waitReturn, jobAbort, abortCores, abortReset, jobFree, timeoutClean, cancel, cancelWork,
      drain, drainWork, softReset, resetMark, resetHw, resetEnd,
      stateInit, resetUnlock, Option.some.injEq] at h
  case pc g i c k => cases g <;> cases h <;> exact .inl hj
  case doneAsync i q =>
    cases h
    split at hj
    · by_cases hi : j = i
      · subst hi
        exact .inr (.inl ⟨q, rfl⟩)
      · exact .inl (by simpa [Dev.scheduleWork, hi] using hj)
    · exact .inl hj
  case cancelWork i n =>
    cases h
    by_cases hi : j = i
    · subst hi
      exact .inr (.inr ⟨n, .inl rfl⟩)
    · exact .inl (by simpa [Dev.scheduleWork, hi] using hj)
  case drainWork i n =>
    cases h
    by_cases hi : j = i
    · subst hi
      exact .inr (.inr ⟨n, .inr rfl⟩)
    · exact .inl (by simpa [Dev.scheduleWork, hi] using hj)
  all_goals
    repeat' split at h
    all_goals
      cases h
      try exact .inl hj

theorem exec_unfenced (h : exec P a x s = some (s', p)) :
    ∀ b ∈ p, b.unfenced = some j → a.unfenced = some j ∧ a ≠ .fenceOut j := by
  cases exec_flow h <;> simp +contextual [Stmt.unfenced]

theorem exec_async {q : Nat} (h : exec P a x s = some (s', p)) (hj : .doneAsync j q ∈ p) :
    a = .doneFence j q := by
  cases exec_flow h <;> simp at hj
  simp [hj]

theorem doneFence_signals {q : Nat} (h : exec P (.doneFence j q) x s = some (s', p)) :
    Signalled s' j := by
  cases h
  intro hp
  by_cases hf : (s.jobs j).fence.isSome
  · simp [hf]
  · simp [Published, hf] at hp

/-- Nobody leaves the window but by signalling. -/
theorem exec_signallingW (ha : ∀ q, a ≠ .doneFence j q) (h : exec P a x s = some (s', p)) :
    signallingW j a ≤ load (signallingW j) (p : Multiset Stmt) := by
  cases a with
  | doneRet i r q =>
    cases h
    simp [signallingW]
  | doneFence i q =>
    have hij : i ≠ j := by
      rintro rfl
      exact ha q rfl
    simp [signallingW, hij]
  | _ => exact Nat.zero_le _

namespace Signalled

theorem exec (hF : earlyW j a = 0) (hS : Signalled s j) (h : exec P a x s = some (s', p)) :
    Signalled s' j := fun hp =>
  (exec_log h).mem (hS ((exec_published hF h).mp hp))

theorem of_fence_eq_none (h : (s.jobs j).fence = none) : Signalled s j := fun hp => by
  have := hp.1
  rw [h] at this
  cases this

end Signalled

theorem occur_starts (h : occur P e s = some (s', p)) :
    (∀ b ∈ p, b.about = none ∧ b.unfenced = none ∧ ∀ j, earlyW j b = 0) ∨
      (s'.jobNum = s.jobNum + 1 ∧
        ((p = [.fenceIn s.jobNum] ∧ (s'.jobs s.jobNum).fence = none) ∨ p = [.jobSchedule s.jobNum])) ∨
      (∃ j c, s.slot c = some j ∧ p = [.jobDone j 0 c]) ∨ ∃ j, s.workPending j ∧ p = [.jobFree j] := by
  cases e with
  | completion c =>
    obtain ⟨j, k, -, hs, rfl, -⟩ := completion_effect h
    exact .inr (.inr (.inl ⟨j, c, hs, rfl⟩))
  | submit args =>
    simp only [occur, spawn] at h
    split at h <;> cases h
    · exact .inr (.inl ⟨rfl, .inl ⟨rfl, by simp [jobAlloc]⟩⟩)
    · exact .inl (by simp)
  | schedule args fence =>
    cases h
    exact .inr (.inl ⟨rfl, .inr rfl⟩)
  | cleanupWork j =>
    simp only [occur] at h
    split at h <;> cases h
    exact .inr (.inr (.inr ⟨j, ‹_›, rfl⟩))
  | _ =>
    simp only [occur] at h
    repeat' split at h
    all_goals
      cases h
      try exact .inl (by simp [Stmt.about, Stmt.unfenced, earlyW])

theorem occur_work (h : occur P e s = some (s', p)) (hj : s'.workPending j) : s.workPending j := by
  cases e with
  | cleanupWork i =>
    simp only [occur] at h
    split at h <;> cases h
    by_cases hi : j = i
    · simp [hi] at hj
    · simpa [hi] using hj
  | completion c =>
    simp only [occur, Option.map_eq_some_iff] at h
    obtain ⟨r, -, hr⟩ := h
    cases hr
    exact hj
  | _ =>
    simp only [occur, spawn] at h
    repeat' split at h
    all_goals
      cases h
      try exact hj

theorem Fixed.occur (hF : Fixed s R j) (h : Rknpu.occur P e s = some (s', p)) :
    Fixed s' ((p : Multiset Stmt) + R) j := by
  refine ⟨hF.1.trans_le (occur_jobNum h), ?_⟩
  rw [load_add, hF.2, Nat.add_zero]
  rcases occur_starts h with hp | ⟨-, ⟨rfl, -⟩ | rfl⟩ | ⟨i, c, -, rfl⟩ | ⟨i, -, rfl⟩
  · exact load_eq_zero _ fun b hb => (hp b (Multiset.mem_coe.mp hb)).2.2 j
  · have hne : s.jobNum ≠ j := (Nat.ne_of_lt hF.1).symm
    simp [earlyW, hne]
  all_goals simp [earlyW]

theorem Signalled.occur (hj : j < s.jobNum) (hS : Signalled s j)
    (h : Rknpu.occur P e s = some (s', p)) : Signalled s' j := fun hp =>
  (occur_log h).mem (hS ((occur_published hj h).mp hp))

namespace Fences

theorem signalled_of_settled (hI : Fences s B) (h : Settled s B j) : Signalled s j := fun hp => by
  obtain ⟨hd, hw⟩ := h hp
  exact ((hI.done j hd).2 hp).resolve_right (by omega)

theorem fixed_exec (hQ : Queued P s (a ::ₘ R)) (hI : Fences s (a ::ₘ R))
    (h : exec P a x s = some (s', p)) {c : Stmt} (hc : c ∈ (p : Multiset Stmt) + R)
    (hj : c.about = some j) : Fixed s' ((p : Multiset Stmt) + R) j := by
  rcases Multiset.mem_add.mp hc with hc | hc
  · have hc := Multiset.mem_coe.mp hc
    rcases exec_about h j c hc hj with ha | ha | ⟨d, hd⟩ | ⟨d, hd⟩
    · exact (hI.fixed a (Multiset.mem_cons_self a R) j ha).exec h
    · exact .of_early hQ ha (exec_settles ha h c hc hj) h
    · exact (Fixed.of_enqueued hQ (hQ.enqueued_of_slot hd)).exec h
    · exact (Fixed.of_enqueued hQ (hQ.enqueued_of_todo hd)).exec h
  · exact (hI.fixed c (Multiset.mem_cons_of_mem hc) j hj).exec h

theorem early_exec (hQ : Queued P s (a ::ₘ R)) (hI : Fences s (a ::ₘ R))
    (h : exec P a x s = some (s', p)) {c : Stmt} (hc : c ∈ (p : Multiset Stmt) + R)
    (hj : c.unfenced = some j) : (s'.jobs j).fence = none := by
  have hkeep : ∀ d ∈ a ::ₘ R, d.unfenced = some j → a ≠ .fenceOut j → (s'.jobs j).fence = none :=
    fun d hd hdj ha => (exec_get (f := .fence) (by cases a <;> simp_all [Stmt.writes]) h).trans
      (hI.early d hd j hdj)
  rcases Multiset.mem_add.mp hc with hc | hc
  · obtain ⟨ha, hne⟩ := exec_unfenced h c (Multiset.mem_coe.mp hc) hj
    exact hkeep a (Multiset.mem_cons_self a R) ha hne
  · refine hkeep c (Multiset.mem_cons_of_mem hc) hj ?_
    rintro rfl
    have hle := le_load (preW j) hc
    have honce := hQ.once j
    rw [load_cons] at honce
    cases c <;> simp [Stmt.unfenced] at hj <;> subst hj <;> simp [preW] at hle honce <;> omega

theorem exec_step (hQ : Queued P s (a ::ₘ R)) (hI : Fences s (a ::ₘ R))
    (hG : fenceGuard.run s (a ::ₘ R) a x) (h : exec P a x s = some (s', p)) :
    Fences s' ((p : Multiset Stmt) + R) := by
  have hself := Multiset.mem_cons_self a R
  have habout : ∀ j, a.about = some j → Fixed s (a ::ₘ R) j := hI.fixed a hself
  refine ⟨fun c hc j hj => fixed_exec hQ hI h hc hj, fun c hc j hj => early_exec hQ hI h hc hj,
    fun j hj => ?_, fun j hj => ?_, fun j q hj => ?_, fun j hj => ?_⟩
  · rcases exec_work h hj with hw | ⟨q, rfl⟩ | ⟨i, hi⟩
    · obtain ⟨hF, hS⟩ := hI.work j hw
      exact ⟨hF.exec h, hS.exec hF.earlyW_eq h⟩
    · have hF := habout j rfl
      exact ⟨hF.exec h, (hI.async j q hself).exec hF.earlyW_eq h⟩
    · have hF : Fixed s (a ::ₘ R) j := by
        rcases hi with rfl | rfl <;> exact habout j rfl
      have hS := hI.signalled_of_settled (hG j (.inr (.inr ⟨i, hi⟩)))
      exact ⟨hF.exec h, hS.exec hF.earlyW_eq h⟩
  · rcases Multiset.mem_add.mp hj with hj | hj
    · rcases exec_frees h (Multiset.mem_coe.mp hj) with ⟨rfl, hr⟩ | rfl | ⟨he, hf⟩
      · have hF := habout j rfl
        exact (hI.signalled_of_settled (hG j (.inl ⟨rfl, hr⟩))).exec hF.earlyW_eq h
      · have hF := habout j rfl
        exact (hI.signalled_of_settled (hG j (.inr (.inl rfl)))).exec hF.earlyW_eq h
      · exact .of_fence_eq_none (hf.trans (hI.early a hself j he))
    · have hF := hI.fixed _ (Multiset.mem_cons_of_mem hj) j rfl
      exact (hI.freed j (Multiset.mem_cons_of_mem hj)).exec hF.earlyW_eq h
  · rcases Multiset.mem_add.mp hj with hj | hj
    · obtain rfl := exec_async h (Multiset.mem_coe.mp hj)
      exact doneFence_signals h
    · have hF := hI.fixed _ (Multiset.mem_cons_of_mem hj) j rfl
      exact (hI.async j q (Multiset.mem_cons_of_mem hj)).exec hF.earlyW_eq h
  · rw [(exec_done h j).2] at hj
    by_cases hd : (s.jobs j).done
    · obtain ⟨hF, hS⟩ := hI.done j hd
      refine ⟨hF.exec h, fun hp => ?_⟩
      have hp := (exec_published hF.earlyW_eq h).mp hp
      by_cases hq : ∃ q, a = .doneFence j q
      · obtain ⟨q, rfl⟩ := hq
        exact .inl (doneFence_signals h ((exec_published hF.earlyW_eq h).mpr hp))
      · rcases hS hp with hl | hw
        · exact .inl ((exec_log h).mem hl)
        · have := exec_signallingW (fun q hq' => hq ⟨q, hq'⟩) h
          rw [load_cons] at hw
          exact .inr (by rw [load_add]; omega)
    · have hst : stage a = some (j, 2) := by simpa [hd] using hj
      cases a <;> simp [stage] at hst
      subst hst
      refine ⟨(habout _ rfl).exec h, fun _ => .inr ?_⟩
      cases h
      simp [signallingW]

theorem occur_step (hQ : Queued P s R) (hI : Fences s R) (h : occur P e s = some (s', p)) :
    Fences s' ((p : Multiset Stmt) + R) := by
  have hstarts := occur_starts h
  refine ⟨fun c hc j hj => ?_, fun c hc j hj => ?_, fun j hj => ?_, fun j hj => ?_,
    fun j q hj => ?_, fun j hj => ?_⟩
  · rcases Multiset.mem_add.mp hc with hc | hc
    · rcases hstarts with hp | ⟨hn, ⟨rfl, -⟩ | rfl⟩ | ⟨i, d, hs, rfl⟩ | ⟨i, hw, rfl⟩
      · rw [(hp c (Multiset.mem_coe.mp hc)).1] at hj
        cases hj
      · simp at hc
        subst hc
        cases hj
      · simp at hc
        subst hc
        cases hj
        have hle := load_mono (f := earlyW s.jobNum) (g := preW s.jobNum) (B := R)
          fun a _ => earlyW_le_preW _ a
        have := hQ.fresh s.jobNum le_rfl
        exact ⟨hn ▸ Nat.lt_succ_self _, by simp [earlyW]; omega⟩
      · simp at hc
        subst hc
        cases hj
        exact (Fixed.of_enqueued hQ (hQ.enqueued_of_slot hs)).occur h
      · simp at hc
        subst hc
        cases hj
        exact (hI.work _ hw).1.occur h
    · exact (hI.fixed c hc j hj).occur h
  · rcases Multiset.mem_add.mp hc with hc | hc
    · rcases hstarts with hp | ⟨-, ⟨rfl, hf⟩ | rfl⟩ | ⟨i, d, -, rfl⟩ | ⟨i, -, rfl⟩
      · rw [(hp c (Multiset.mem_coe.mp hc)).2.1] at hj
        cases hj
      · simp at hc
        subst hc
        cases hj
        exact hf
      all_goals
        simp at hc
        subst hc
        cases hj
    · have hne : e.spawns → j ≠ s.jobNum := fun _ hn => by
        have hle := le_load (preW j) hc
        have := hQ.fresh s.jobNum le_rfl
        subst hn
        cases c <;> simp [Stmt.unfenced] at hj <;> subst hj <;> simp [preW] at hle <;> omega
      exact (occur_get (f := .fence) hne (by simp) h).trans (hI.early c hc j hj)
  · obtain ⟨hF, hS⟩ := hI.work j (occur_work h hj)
    exact ⟨hF.occur h, hS.occur hF.1 h⟩
  · rcases Multiset.mem_add.mp hj with hj | hj
    · rcases hstarts with hp | ⟨-, ⟨rfl, -⟩ | rfl⟩ | ⟨i, d, -, rfl⟩ | ⟨i, hw, rfl⟩
      · have := (hp _ (Multiset.mem_coe.mp hj)).1
        cases this
      · simp at hj
      · simp at hj
      · simp at hj
      · simp at hj
        subst hj
        obtain ⟨hF, hS⟩ := hI.work j hw
        exact hS.occur hF.1 h
    · exact (hI.freed j hj).occur (hI.fixed _ hj j rfl).1 h
  · rcases Multiset.mem_add.mp hj with hj | hj
    · rcases hstarts with hp | ⟨-, ⟨rfl, -⟩ | rfl⟩ | ⟨i, d, -, rfl⟩ | ⟨i, -, rfl⟩
      · have := (hp _ (Multiset.mem_coe.mp hj)).1
        cases this
      all_goals simp at hj
    · exact (hI.async j q hj).occur (hI.fixed _ hj j rfl).1 h
  · have hdone : (s.jobs j).done := by
      by_cases hn : e.spawns ∧ j = s.jobNum
      · obtain ⟨he, rfl⟩ := hn
        obtain rfl | ⟨args, hb⟩ := spawn_get he h
        · exact hj
        · have : (s'.jobs s.jobNum).done = false := hb .done (by simp) (by simp)
          rw [this] at hj
          cases hj
      · have : (s'.jobs j).done = (s.jobs j).done :=
          occur_get (f := .done) (fun he hj => hn ⟨he, hj⟩) (by simp) h
        rwa [this] at hj
    obtain ⟨hF, hS⟩ := hI.done j hdone
    refine ⟨hF.occur h, fun hp => ?_⟩
    rcases hS ((occur_published hF.1 h).mp hp) with hl | hw
    · exact .inl ((occur_log h).mem hl)
    · exact .inr (by rw [load_add]; omega)

theorem init : Fences Dev.init 0 := by
  constructor <;> simp [Dev.init, jobAlloc]

theorem reach {C : Conf Dev Stmt} (hC : Reach (driver P) fenceGuard Dev.init C) :
    Fences C.shared C.pending :=
  hC.invariant_with (Queued P) Fences (fun _ hC => Queued.reach hC) init
    (fun _ _ _ _ _ _ hQ hI hG h => exec_step hQ hI hG h)
    (fun _ _ _ _ _ hQ hI _ h => occur_step hQ hI h)

end Fences

theorem fence_signalled {C : Conf Dev Stmt} (hC : Reach (driver P) fenceGuard Dev.init C)
    (hj : .jobFree j ∈ C.pending) (hp : Published C.shared j) :
    .fenceSignal j ∈ C.shared.log := (Fences.reach hC).freed j hj hp

def fenceRun : List (Label Int Occurrence) :=
  [Label.env (Occurrence.submit (oneTask 19 1))] ++ List.replicate 29 (Label.run 0 0) ++
    [Label.env (Occurrence.completion 0)] ++
    List.replicate 12 (Label.run 1 0) ++ [Label.env (Occurrence.cleanupWork 0)]

def Stmt.ends : Stmt → Bool
  | .submitResult _ | .abortReset _ | .cancelWork _ _ | .drainWork _ _ => true
  | _ => false

theorem fence_signalled_fenceRun : ∃ C : Conf Dev Stmt, .jobFree 0 ∈ C.pending ∧
    (C.shared.jobs 0).args.fenceFd = 0 ∧ .fenceSignal 0 ∈ C.shared.log := by
  obtain ⟨C, hC, ht⟩ := Reach.exists_of_steps (driver (board rk356xConfig)) fenceGuard Dev.init
    fenceRun
    (fun _ a _ => !a.ends)
    (fun C => C.threads == [[], [], [.jobFree 0]] &&
      (C.shared.jobs 0).fence.isSome && (C.shared.jobs 0).args.fenceFd == 0)
    (fun C a x h j hj => by
      obtain ⟨rfl, -⟩ | rfl | ⟨i, rfl | rfl⟩ := hj <;> simp [Stmt.ends] at h)
    (fun _ _ _ _ => trivial) (by decide +kernel)
  simp only [Bool.and_eq_true, beq_iff_eq] at ht
  obtain ⟨⟨ht, hf⟩, hfd⟩ := ht
  have hj : .jobFree 0 ∈ C.pending := by simp [Conf.pending, ht]
  exact ⟨C, hj, hfd, fence_signalled hC hj ⟨hf, hfd.ge⟩⟩

/-- A blocking job with an out-fence times out and is aborted. -/
def abandonRun : List (Label Int Occurrence) :=
  [Label.env (Occurrence.submit (oneTask 17 1))] ++ List.replicate 44 (Label.run 0 0)

theorem abort_abandons : ¬∀ (P : Platform) (C : Conf Dev Stmt) (j : JobId),
    Reach (driver P) resetsSucceed Dev.init C → .jobFree j ∈ C.pending → Published C.shared j →
      .fenceSignal j ∈ C.shared.log := by
  intro hall
  obtain ⟨C, hC, ht⟩ := Reach.exists_of_steps (driver (board rk356xConfig)) resetsSucceed Dev.init
    abandonRun
    (fun _ _ x => x == 0)
    (fun C => C.threads == [[.jobFree 0, .submitReturn 0 (-etimedout)]] &&
      (C.shared.jobs 0).fence.isSome && (C.shared.jobs 0).args.fenceFd == 0 &&
      !C.shared.log.contains (.fenceSignal 0))
    (fun C a x h _ => by simpa using h) (fun _ _ _ _ => trivial) (by decide +kernel)
  simp only [Bool.and_eq_true, beq_iff_eq, Bool.not_eq_true', List.contains_eq_mem,
    decide_eq_false_iff_not] at ht
  obtain ⟨⟨⟨ht, hf⟩, hfd⟩, hlog⟩ := ht
  exact hlog (hall _ C 0 hC (by simp [Conf.pending, ht]) ⟨hf, hfd.ge⟩)

end Rknpu

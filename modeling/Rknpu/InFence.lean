import Rknpu.Interleaving.Noted
import Rknpu.Lifetime
import Rknpu.TaskNum

namespace Rknpu

open Interleaving

/-- What `rknpu_submit` finds under the descriptor of the in-fence. -/
def Dev.inFence (s : Dev) (j : JobId) : List Fence :=
  if (s.jobs j).args.fenceIn then (s.syncFile (s.jobs j).args.fenceFd).getD [] else []

def recordFence (s : Dev) (a : Stmt) (f : JobId → List Fence) : JobId → List Fence :=
  match a with
  | .fenceIn j => Function.update f j (s.inFence j)
  | _ => f

def fenceMachine (P : Platform) : Machine (Dev × (JobId → List Fence)) Stmt Int Occurrence :=
  (driver P).recorded recordFence

/-- Every core of job `i` has completed all of its chunks and was released. -/
structure Retired (P : Platform) (s : Dev) (i : JobId) : Prop where
  enqueued : .enqueue i ∈ s.log
  chunks : ∀ c, s.needs P c i → ∀ k : Nat, (k : Int) < (s.jobs i).chunkCount P.config c →
    .complete c i k ∈ s.log
  released : ∀ c, s.needs P c i → .release c i ∈ s.log

/-- A job is not enqueued before a foreign in-fence is signalled, and not started before the
owners of an in-fence of the driver's own context have completed. -/
structure Honoured (P : Platform) (t : Dev × (JobId → List Fence)) (j : JobId) : Prop where
  foreign : matchContext (t.2 j) = false → .enqueue j ∈ t.1.log → t.1.signalled (t.2 j)
  own : matchContext (t.2 j) → ∀ i, .own i ∈ t.2 j → ∀ c k, .start c j k ∈ t.1.log → Retired P t.1 i

/-- No wait for an in-fence times out; a job is enqueued behind the owners of its in-fence, on
all of their cores that have not completed; and these owners are not taken off a core before. -/
def inFenceGuard (P : Platform) : Guard (Dev × (JobId → List Fence)) Stmt Int Occurrence where
  run t B a x :=
    Counts.Genuine t.1 (B.erase a) a ∧
    (∀ j f, a = .fenceWait j f → -4096 < x ∧ x ≠ 0) ∧
    (∀ k, a = .enqueue k → matchContext (t.2 k) → ∀ i, .own i ∈ t.2 k →
      .enqueue i ∈ t.1.log ∧ ∀ c, t.1.needs P c i → .release c i ∈ t.1.log ∨
        t.1.needs P c k ∧ (t.1.slot c = some i ∨ i ∈ t.1.todoList c)) ∧
    (∀ i c, t.1.drops P c i a ∨ a = .abortCores i ∧ t.1.slot c = some i →
      ∀ k, .enqueue k ∈ t.1.log → .own i ∉ t.2 k) ∧
    ∀ j i c, a = .cancel j i → t.1.slot c = some j → load (handlerW j c) B = 0
  env _ _ e := entries e

/-- Job `k` cannot be picked up on core `c` before `i` is released there. -/
def Behind (P : Platform) (s : Dev) (k i : JobId) (c : Nat) : Prop :=
  .release c i ∈ s.log ∨ s.needs P c k ∧ .pickup c k ∉ s.log ∧
    (k ∈ s.todoList c → s.slot c = some i ∨ [i, k].Sublist (s.todoList c))

def passedW (j : JobId) : Stmt → Nat
  | .fenceOut i | .fenceFd i | .dispatch i | .jobSchedule i | .selectCore i _ _ _ | .domainGet i
  | .enqueue i => if i = j then 1 else 0
  | _ => 0

structure InFences (P : Platform) (t : Dev × (JobId → List Fence)) (B : Multiset Stmt) : Prop where
  waiting : ∀ j f, .fenceWait j f ∈ B → t.2 j = f
  passed : ∀ j, matchContext (t.2 j) = false → 0 < load (passedW j) B ∨ .enqueue j ∈ t.1.log →
    t.1.signalled (t.2 j)
  begun : ∀ c k n, .start c k n ∈ t.1.log → .enqueue k ∈ t.1.log
  behind : ∀ k i, matchContext (t.2 k) → .own i ∈ t.2 k → .enqueue k ∈ t.1.log →
    i ≠ k ∧ .enqueue i ∈ t.1.log ∧ ∀ c, t.1.needs P c i → Behind P t.1 k i c
  started : ∀ k i, matchContext (t.2 k) → .own i ∈ t.2 k → ∀ c n, .start c k n ∈ t.1.log →
    ∀ d, t.1.needs P d i → .release d i ∈ t.1.log

variable {P : Platform} {s s' : Dev} {t t' : Dev × (JobId → List Fence)} {B R : Multiset Stmt}
  {a : Stmt} {x : Int} {p : List Stmt} {i j k : JobId} {c : Nat}

section Steps

theorem mem_log_exec {ev : Event} (h : exec P a x s = some (s', p)) (hm : ev ∈ s'.log) :
    ev ∈ s.log ∨ a.logs ev := by
  obtain ⟨es, hl, hes⟩ := exec_logs h
  rw [hl, List.mem_append] at hm
  exact hm.imp_right (hes ev)

theorem mem_log_occur {ev : Event} {e : Occurrence} (h : occur P e s = some (s', p))
    (hev : ∀ c j k, ev ≠ .complete c j k) : ev ∈ s'.log ↔ ev ∈ s.log := by
  rw [← List.count_pos_iff, occur_count h hev, List.count_pos_iff]

theorem needs_exec (hQ : Queued P s (a ::ₘ R)) (hj : .enqueue j ∈ s.log)
    (h : exec P a x s = some (s', p)) (c : Nat) : s'.needs P c j = s.needs P c j := by
  rw [Dev.needs, Dev.needs, hQ.mask_exec h (List.count_pos_iff.mpr hj)]

theorem exec_signalled (h : exec P a x s = some (s', p)) {f : List Fence} (hf : s.signalled f) :
    s'.signalled f := by
  have hflags : s'.foreignSignalled = s.foreignSignalled ∧
      ∀ j, s.ownSignalled j → s'.ownSignalled j := by
    cases a <;>
      simp only [exec, fenceIn, fenceWait, fenceOut, fenceFd, dispatch, submitAsync, submitWait,
        submitResult, submitReturn, jobSchedule, selectCore, domainGet, enqueue, nextLoop, jobNext,
        pickUp, runDec, jobCommit, subcoreCommit, commitPc, jobDone, releaseCore, interruptDec,
        doneWidth, donePut, doneFlag, doneRet, doneFence, doneAsync, irqEnter, irqStatus, irqCheck,
        irqClear, irqReturn, waitEvent, waitElapsed, waitLastTask, waitUnlink, waitStatus, waitFlags,
        waitReturn, jobAbort, abortCores, abortReset, jobFree, timeoutClean, cancel, cancelWork,
        drain, drainWork, softReset, resetMark, resetHw, resetEnd,
        stateInit, resetUnlock, Option.some.injEq] at h
    case pc g i d n => cases g <;> cases h <;> exact ⟨rfl, fun _ => id⟩
    case doneFence i q =>
      cases h
      split
      · refine ⟨rfl, fun j hj => ?_⟩
        by_cases hij : j = i
        · simp [hij]
        · simpa [hij] using hj
      · exact ⟨rfl, fun _ => id⟩
    all_goals
      repeat' split at h
      all_goals
        cases h
        try (repeat' split)
        all_goals exact ⟨rfl, fun _ => id⟩
  rw [Dev.signalled, List.all_eq_true] at hf ⊢
  intro b hb
  have hold := hf b hb
  cases b with
  | own j => exact hflags.2 j hold
  | foreign n => simpa only [hflags.1] using hold

theorem occur_signalled {e : Occurrence} (h : occur P e s = some (s', p)) {f : List Fence}
    (hf : s.signalled f) : s'.signalled f := by
  have hflags : s'.ownSignalled = s.ownSignalled ∧
      ∀ n, s.foreignSignalled n → s'.foreignSignalled n := by
    cases e with
    | completion c =>
      obtain ⟨r, -, hr⟩ := Option.map_eq_some_iff.mp h
      cases hr
      exact ⟨rfl, fun _ => id⟩
    | signalForeign n =>
      cases h
      refine ⟨rfl, fun m hm => ?_⟩
      by_cases hmn : m = n
      · simp [hmn]
      · simpa [hmn] using hm
    | _ =>
      simp only [occur, spawn] at h
      repeat' split at h
      all_goals
        cases h
        try exact ⟨rfl, fun _ => id⟩
  rw [Dev.signalled, List.all_eq_true] at hf ⊢
  intro b hb
  have hold := hf b hb
  cases b with
  | own j => simpa only [hflags.1] using hold
  | foreign n => exact hflags.2 n hold

/-- The in-fence is recorded, and the submit goes on past it only if it is the driver's own. -/
theorem fenceIn_effect (h : exec P (.fenceIn j) x s = some (s', p)) :
    s'.log = s.log ∧ (p = [.jobFree j, .submitReturn j (-einval)] ∨ p = [.fenceWait j (s.inFence j)] ∨
      p = [.fenceOut j] ∧ matchContext (s.inFence j)) := by
  simp only [exec, fenceIn, Option.some.injEq] at h
  repeat' split at h
  all_goals cases h
  · exact ⟨rfl, .inl rfl⟩
  · rename_i hin _ f hf hown
    have he : s.inFence j = f := by simp [Dev.inFence, hin, hf]
    exact ⟨rfl, .inr (.inr ⟨rfl, he ▸ hown⟩)⟩
  · rename_i hin _ f hf hown
    have he : s.inFence j = f := by simp [Dev.inFence, hin, hf]
    exact ⟨rfl, .inr (.inl (by rw [he]))⟩
  · rename_i hin
    have he : s.inFence j = [] := by simp [Dev.inFence, hin]
    exact ⟨rfl, .inr (.inr ⟨rfl, by rw [he]; rfl⟩)⟩

/-- A wait that does not time out ends in an error or with a signalled fence. -/
theorem fenceWait_effect {f : List Fence} (hx : -4096 < x ∧ x ≠ 0)
    (h : exec P (.fenceWait j f) x s = some (s', p)) :
    s' = s ∧ (p = [.jobFree j, .submitReturn j (toInt x)] ∨ p = [.fenceOut j] ∧ s.signalled f) := by
  simp only [exec, fenceWait] at h
  repeat' split at h
  all_goals cases h
  · exact ⟨rfl, .inl rfl⟩
  · rename_i hn hpos
    refine ⟨rfl, .inr ⟨rfl, ?_⟩⟩
    by_contra hs
    have hx' : x ≤ 0 := by
      by_contra hlt
      exact hn ⟨by omega, by simpa using hs⟩
    refine hpos ?_
    rw [toInt, Int.bmod_def]
    split <;> omega

theorem passed_exec (h : exec P a x s = some (s', p)) (ha : ∀ i, a ≠ .fenceIn i)
    (hw : ∀ i f, a ≠ .fenceWait i f) (j : JobId) :
    (0 < load (passedW j) (p : Multiset Stmt) → 0 < passedW j a) ∧
      ∀ f, .fenceWait j f ∉ p := by
  cases exec_flow h with
  | fenceInInvalid | fenceInForeign | fenceIn => exact absurd rfl (ha _)
  | fenceWaitError | fenceWait => exact absurd rfl (hw _ _)
  | jobCommit i l =>
    rw [load_commits_eq_zero (f := passedW j) fun _ => rfl]
    simp
  | _ => simp [passedW]

theorem occur_passedW {e : Occurrence} (he : entries e) (h : occur P e s = some (s', p)) :
    load (passedW j) (p : Multiset Stmt) = 0 := by
  cases e with
  | completion c => exact absurd rfl (he.1 c)
  | schedule args fence => exact absurd rfl (he.2 args fence)
  | _ =>
    simp only [occur, spawn] at h
    repeat' split at h
    all_goals
      cases h
      try rfl

theorem passedW_le_preW (j : JobId) (a : Stmt) : passedW j a ≤ preW j a := by
  cases a <;> first | exact le_rfl | exact Nat.zero_le _

theorem pair_sublist_erase (hi : j ≠ i) (hk : j ≠ k) {l : List JobId} (h : [i, k].Sublist l) :
    [i, k].Sublist (l.erase j) := by
  have he := h.erase j
  rwa [List.erase_cons_tail (by simpa using hi.symm), List.erase_cons_tail (by simpa using hk.symm),
    List.erase_nil] at he

namespace Behind

theorem pickup_log (ha : ∀ d, a ≠ .pickUp d) (h : Rknpu.exec P a x s = some (s', p))
    (hm : .pickup c k ∈ s'.log) : .pickup c k ∈ s.log :=
  (mem_log_exec h hm).resolve_right fun hl => ha c (logs_pickup hl)

section Order

variable (hneeds : s'.needs P c k) (hpick : .pickup c k ∉ s.log)
  (hord : k ∈ s.todoList c → s.slot c = some i ∨ [i, k].Sublist (s.todoList c))
include hneeds hpick

theorem of_order (hl : .pickup c k ∈ s'.log → .pickup c k ∈ s.log)
    (ho : k ∈ s'.todoList c → s'.slot c = some i ∨ [i, k].Sublist (s'.todoList c)) :
    Behind P s' k i c := .inr ⟨hneeds, fun hm => hpick (hl hm), ho⟩

include hord

theorem kept (hl : a.loads = false) (h : Rknpu.exec P a x s = some (s', p)) :
    Behind P s' k i c := by
  obtain ⟨-, ht, hs⟩ := exec_loads hl h
  refine of_order hneeds hpick (pickup_log ?_ h) (by rwa [ht, hs])
  rintro d rfl
  cases hl

theorem unlinked (hQ : Queued P s (a ::ₘ R)) (hu : a.unlinks) (hkept : ¬s.drops P c i a)
    (h : Rknpu.exec P a x s = some (s', p)) : Behind P s' k i c := by
  obtain ⟨-, ht, hs⟩ := exec_unlinks hu h c
  refine of_order hneeds hpick (pickup_log ?_ h) fun hm => ?_
  · rintro d rfl
    cases hu
  have hslot : s.slot c = some i → s'.slot c = some i := fun hi => by
    rcases hs with hs | ⟨j, hj, hd, -⟩
    · rwa [hs]
    · rw [hi, Option.some.injEq] at hj
      exact absurd (hj ▸ hd) hkept
  rcases ht with ht | ⟨j, hd, ht⟩
  · rw [ht] at hm ⊢
    exact (hord hm).imp_left hslot
  · rw [ht] at hm ⊢
    have hjk : j ≠ k := by
      rintro rfl
      exact not_mem_erase hQ j c hm
    refine (hord (List.mem_of_mem_erase hm)).imp hslot fun hsub => ?_
    have hji : j ≠ i := by
      rintro rfl
      exact hkept (hd (hsub.subset List.mem_cons_self))
    exact pair_sublist_erase hji hjk hsub

theorem enqueued (hQ : Queued P s (.enqueue j ::ₘ R)) (hk : .enqueue k ∈ s.log)
    (h : Rknpu.exec P (.enqueue j) x s = some (s', p)) : Behind P s' k i c := by
  obtain ⟨-, -, hs, hlog, ht⟩ := enqueue_effect h
  have hjk : j ≠ k := by
    rintro rfl
    have hn := hQ.not_enqueued (j := j) (by simp [preW])
    have hp := List.count_pos_iff.mpr hk
    omega
  refine of_order hneeds hpick (by simp [hlog]) fun hm => ?_
  have hold : k ∈ s.todoList c := by
    rw [ht] at hm
    split at hm
    · exact (List.mem_append.mp hm).resolve_right (by simpa using hjk.symm)
    · exact hm
  rw [hs, ht]
  refine (hord hold).imp_right fun hsub => ?_
  split
  · exact hsub.trans (List.sublist_append_left _ _)
  · exact hsub

theorem pickedUp {d : Nat} (hQ : Queued P s (.pickUp d ::ₘ R)) (hik : i ≠ k)
    (h : Rknpu.exec P (.pickUp d) x s = some (s', p)) : Behind P s' k i c := by
  obtain ⟨rfl, -⟩ | ⟨j, rest, hnone, htodo, -, -, hs, hlog, ht⟩ := pickUp_effect h
  · exact of_order hneeds hpick id hord
  by_cases hdc : c = d
  · subst hdc
    have hcount := hQ.count_todo_le k c
    have hsub : k ∈ j :: rest → [i, k].Sublist (j :: rest) := fun hm =>
      htodo ▸ (hord (htodo ▸ hm)).resolve_left (by simp [hnone])
    have hjk : j ≠ k := by
      rintro rfl
      rcases List.sublist_cons_iff.mp (hsub List.mem_cons_self) with hr | ⟨r, hr, -⟩
      · have hm : j ∈ rest := hr.subset (by simp)
        have hp := List.count_pos_iff.mpr hm
        rw [htodo, List.count_cons_self] at hcount
        omega
      · exact hik (List.cons.inj hr).1
    refine of_order hneeds hpick (by simp [hlog, Ne.symm hjk]) fun hm => ?_
    rw [ht, hs, Function.update_self, Function.update_self] at *
    rcases List.sublist_cons_iff.mp (hsub (List.mem_cons_of_mem j hm)) with hr | ⟨r, hr, -⟩
    · exact .inr hr
    · exact .inl (by rw [(List.cons.inj hr).1])
  · refine of_order hneeds hpick (by simp [hlog, hdc]) ?_
    rw [ht, hs, Function.update_of_ne hdc, Function.update_of_ne hdc]
    exact hord

theorem released {r : Int} {d : Nat} (hH : Handled s (.releaseCore j r d ::ₘ R))
    (h : Rknpu.exec P (.releaseCore j r d) x s = some (s', p)) : Behind P s' k i c := by
  obtain ⟨-, -, ht, hs, hlog⟩ := releaseCore_effect h
  by_cases hdc : c = d
  · subst hdc
    have hslot := (hH j c (by rw [load_cons, handlerW, if_pos ⟨rfl, rfl⟩]; omega)).1
    by_cases hij : i = j
    · exact .inl (by simp [hlog, hij])
    · refine of_order hneeds hpick (by simp [hlog]) fun hm => ?_
      rw [ht] at hm ⊢
      refine .inr ((hord hm).resolve_left fun hi => hij ?_)
      rw [hslot, Option.some.injEq] at hi
      exact hi.symm
  · refine of_order hneeds hpick (by simp [hlog]) ?_
    rw [ht, hs, Function.update_of_ne hdc]
    exact hord

theorem aborted (hj : ¬(j = i ∧ s.slot c = some i))
    (h : Rknpu.exec P (.abortCores j) x s = some (s', p)) : Behind P s' k i c := by
  have ht : s'.todoList = s.todoList := by
    cases h
    rfl
  have hlog : s'.log = s.log := by
    cases h
    rfl
  refine of_order hneeds hpick (by rw [hlog]; exact id) fun hm => ?_
  rw [ht] at hm ⊢
  refine (hord hm).imp_left fun hi => ?_
  rw [abortCores_slot h, if_neg, hi]
  intro hab
  simp only [Dev.aborts, Bool.and_eq_true, beq_iff_eq] at hab
  obtain ⟨⟨-, hslot⟩, -⟩ := hab
  rw [hi, Option.some.injEq] at hslot
  exact hj ⟨hslot.symm, hi⟩

end Order

theorem exec (hQ : Queued P s (a ::ₘ R)) (hH : Handled s (a ::ₘ R)) (hI : Behind P s k i c)
    (hik : i ≠ k) (hk : .enqueue k ∈ s.log)
    (hkept : ¬s.drops P c i a ∧ ¬(a = .abortCores i ∧ s.slot c = some i))
    (h : Rknpu.exec P a x s = some (s', p)) : Behind P s' k i c := by
  rcases hI with hrel | ⟨hneeds, hpick, hord⟩
  · exact .inl ((exec_log h).subset hrel)
  have hneeds' : s'.needs P c k := by rwa [needs_exec hQ hk h]
  by_cases hl : a.loads = false
  · exact kept hneeds' hpick hord hl h
  by_cases hu : a.unlinks
  · exact unlinked hneeds' hpick hord hQ hu hkept.1 h
  cases a with
  | enqueue j => exact enqueued hneeds' hpick hord hQ hk h
  | pickUp d => exact pickedUp hneeds' hpick hord hQ hik h
  | releaseCore j r d => exact released hneeds' hpick hord hH h
  | abortCores j =>
    exact aborted hneeds' hpick hord (fun hj => hkept.2 ⟨congrArg _ hj.1, hj.2⟩) h
  | waitUnlink | cancel | drain => exact absurd rfl hu
  | _ => exact absurd rfl hl

theorem occur {e : Occurrence} (hQ : Queued P s R) (hI : Behind P s k i c)
    (hk : .enqueue k ∈ s.log) (h : Rknpu.occur P e s = some (s', p)) : Behind P s' k i c := by
  have hneeds : s'.needs P c k = s.needs P c k := by
    rw [Dev.needs, Dev.needs, hQ.mask_occur h (List.count_pos_iff.mpr hk)]
  rw [Behind, hneeds, occur_slot h, occur_todo h, mem_log_occur h (by simp),
    mem_log_occur h (by simp)]
  exact hI

theorem enqueue (hQ : Queued P s (.enqueue k ::ₘ R)) (hc : .release c i ∈ s.log ∨
      s.needs P c k ∧ (s.slot c = some i ∨ i ∈ s.todoList c))
    (h : Rknpu.exec P (.enqueue k) x s = some (s', p)) : Behind P s' k i c := by
  obtain ⟨hkept, -, hs, hlog, ht⟩ := enqueue_effect h
  rcases hc with hrel | ⟨hneeds, hord⟩
  · exact .inl (by simp [hlog, hrel])
  have hnot := hQ.not_enqueued (j := k) (by simp [preW])
  have hlisted := hQ.listed k c
  rw [if_pos hneeds] at hlisted
  have hpick : .pickup c k ∉ s.log := List.count_eq_zero.mp (by omega)
  refine .inr ⟨by rwa [Dev.needs, (hkept.fields k).1], by simpa [hlog] using hpick, fun _ => ?_⟩
  rw [hs, ht, if_pos hneeds]
  exact hord.imp_right fun hi => (List.singleton_sublist.mpr hi).append (List.Sublist.refl [k])

end Behind

theorem recordFence_of_ne {f : JobId → List Fence} (ha : a ≠ .fenceIn k) :
    recordFence s a f k = f k := by
  cases a with
  | fenceIn j => exact Function.update_of_ne (by rintro rfl; exact ha rfl) _ _
  | _ => rfl

namespace InFences

variable (hQ : Queued P t.1 (a ::ₘ R)) (hI : InFences P t (a ::ₘ R))
  (h : Rknpu.exec P a x t.1 = some (t'.1, p)) (hr : t'.2 = recordFence t.1 a t.2)
include hQ hI h hr

theorem waiting_exec (hx : ∀ j f, a = .fenceWait j f → -4096 < x ∧ x ≠ 0) {f : List Fence}
    (hm : .fenceWait j f ∈ (p : Multiset Stmt) + R) : t'.2 j = f := by
  rw [hr]
  rcases Multiset.mem_add.mp hm with hm | hm
  · by_cases ha : (∃ i, a = .fenceIn i) ∨ ∃ i g, a = .fenceWait i g
    · obtain ⟨i, rfl⟩ | ⟨i, g, rfl⟩ := ha
      · obtain ⟨-, rfl | rfl | ⟨rfl, -⟩⟩ := fenceIn_effect h
        · simp at hm
        · simp only [Multiset.mem_coe, List.mem_singleton, Stmt.fenceWait.injEq] at hm
          obtain ⟨rfl, rfl⟩ := hm
          exact Function.update_self ..
        · simp at hm
      · obtain ⟨-, rfl | ⟨rfl, -⟩⟩ := fenceWait_effect (hx i g rfl) h <;> simp at hm
    · push Not at ha
      exact absurd hm ((passed_exec h ha.1 ha.2 j).2 f)
  · rw [recordFence_of_ne]
    · exact hI.waiting j f (Multiset.mem_cons_of_mem hm)
    · rintro rfl
      have hone := hQ.once j
      have hle := le_load (preW j) hm
      simp only [load_cons, preW, if_true] at hone hle
      omega

theorem passed_kept (hx : ∀ j f, a = .fenceWait j f → -4096 < x ∧ x ≠ 0)
    (hm : matchContext (t'.2 j) = false)
    (hp : 0 < load (passedW j) ((p : Multiset Stmt) + R) ∨ .enqueue j ∈ t'.1.log) :
    t'.1.signalled (t'.2 j) := by
  have hone := hQ.once j
  have hR : load (passedW j) R ≤ load (preW j) R := load_mono (passedW j) fun b _ => passedW_le_preW j b
  by_cases ha : a = .fenceIn j
  · subst ha
    rw [hr, recordFence, Function.update_self] at hm
    rw [load_cons, preW, if_pos rfl] at hone
    have hz : load (passedW j) R = 0 := by omega
    have hnot : .enqueue j ∉ t.1.log := List.count_eq_zero.mp (by omega)
    obtain ⟨hlog, rfl | rfl | ⟨rfl, hown⟩⟩ := fenceIn_effect h
    · simp [passedW, hz, hlog, hnot] at hp
    · simp [passedW, hz, hlog, hnot] at hp
    · simp [hown] at hm
  · rw [hr, recordFence_of_ne ha] at hm ⊢
    have hold : 0 < load (passedW j) (a ::ₘ R) ∨ .enqueue j ∈ t.1.log →
        t'.1.signalled (t.2 j) := fun hp => exec_signalled h (hI.passed j hm hp)
    rw [load_cons] at hold
    rcases hp with hp | hp
    · rw [load_add] at hp
      by_cases hw : ∃ i f, a = .fenceWait i f
      · obtain ⟨i, f, rfl⟩ := hw
        obtain ⟨hs, rfl | ⟨rfl, hsig⟩⟩ := fenceWait_effect (hx i f rfl) h
        · exact hold (.inl (by simpa [passedW] using hp))
        · by_cases hij : i = j
          · subst hij
            rwa [hs, hI.waiting i f (Multiset.mem_cons_self _ R)]
          · exact hold (.inl (by simpa [passedW, hij] using hp))
      · push Not at hw
        by_cases hi : ∃ i, a = .fenceIn i
        · obtain ⟨i, rfl⟩ := hi
          have hij : i ≠ j := fun hij => ha (by rw [hij])
          obtain ⟨-, rfl | rfl | ⟨rfl, -⟩⟩ := fenceIn_effect h <;>
            exact hold (.inl (by simpa [passedW, hij] using hp))
        · push Not at hi
          have hnew := (passed_exec h hi hw j).1
          exact hold (.inl (by omega))
    · refine (mem_log_exec h hp).elim (fun hl => hold (.inr hl)) fun hl => hold (.inl ?_)
      cases a with
      | enqueue i =>
        obtain rfl : i = j := beq_iff_eq.mp hl
        simp [passedW]
      | pc g i d n => cases g <;> cases hl
      | _ => cases hl

/-- What has started was enqueued, and all of its cores had picked it up. -/
theorem start_exec (hC : Counts t.1 (a ::ₘ R)) {n : Nat} (hm : .start c k n ∈ t'.1.log) :
    .start c k n ∈ t.1.log ∨ .enqueue k ∈ t.1.log ∧
      ∀ d, t.1.needs P d k → .pickup d k ∈ t.1.log := by
  refine (mem_log_exec h hm).imp_right fun hl => ?_
  cases a with
  | pc g i d m =>
    cases g <;> simp only [Stmt.logs, Bool.false_eq_true] at hl
    simp only [Bool.and_eq_true, beq_iff_eq] at hl
    obtain ⟨⟨rfl, rfl⟩, rfl⟩ := hl
    have hlive := hC.live (j := i) (c := d) (by
      simp only [tokens, load_cons, commitW, and_self, if_true]
      omega)
    exact ⟨List.count_pos_iff.mp hlive.1, fun e he => List.count_pos_iff.mp
      (hQ.all_picked hlive.1 hlive.2 (Bool.and_eq_true_iff.mp he).2)⟩
  | _ => cases hl

theorem record_kept (hk : .enqueue k ∈ t'.1.log) : t'.2 k = t.2 k := by
  rw [hr]
  refine recordFence_of_ne ?_
  rintro rfl
  have hnot := hQ.not_enqueued (j := k) (by simp [preW])
  rw [(fenceIn_effect h).1] at hk
  exact List.count_eq_zero.mp hnot hk

theorem exec (hC : Counts t.1 (a ::ₘ R)) (hH : Handled t.1 (a ::ₘ R))
    (hG : (inFenceGuard P).run t (a ::ₘ R) a x) : InFences P t' ((p : Multiset Stmt) + R) := by
  obtain ⟨-, hx, henq, hdrop, -⟩ := hG
  have hsub := (exec_log h).subset
  have hbegun : ∀ c k n, .start c k n ∈ t'.1.log → .enqueue k ∈ t.1.log := fun c k n hm =>
    (start_exec hQ hI h hr hC hm).elim (hI.begun c k n) And.left
  refine ⟨fun j f hm => waiting_exec hQ hI h hr hx hm, fun j hm hp => passed_kept hQ hI h hr hx hm hp,
    fun c k n hm => hsub (hbegun c k n hm), fun k i hm hi hk => ?_, fun k i hm hi c n hs d hd => ?_⟩
  · rw [record_kept hQ hI h hr hk] at hm hi
    rcases mem_log_exec h hk with hold | hnew
    · obtain ⟨hik, henqi, hb⟩ := hI.behind k i hm hi hold
      refine ⟨hik, hsub henqi, fun c hc => ?_⟩
      rw [needs_exec hQ henqi h] at hc
      exact (hb c hc).exec hQ hH hik hold ⟨fun hd => hdrop i c (.inl hd) k hold hi,
        fun hab => hdrop i c (.inr hab) k hold hi⟩ h
    · cases a with
      | enqueue j =>
        obtain rfl : j = k := beq_iff_eq.mp hnew
        obtain ⟨henqi, hb⟩ := henq j rfl hm i hi
        have hnot := hQ.not_enqueued (j := j) (by simp [preW])
        refine ⟨?_, hsub henqi, fun c hc => ?_⟩
        · rintro rfl
          exact List.count_eq_zero.mp hnot henqi
        · rw [needs_exec hQ henqi h] at hc
          exact .enqueue hQ (hb c hc) h
      | pc g j d n => cases g <;> cases hnew
      | _ => cases hnew
  · have hk := hbegun c k n hs
    rw [record_kept hQ hI h hr (hsub hk)] at hm hi
    obtain ⟨-, henqi, hb⟩ := hI.behind k i hm hi hk
    rw [needs_exec hQ henqi h] at hd
    refine hsub ?_
    rcases start_exec hQ hI h hr hC hs with hold | ⟨-, hpick⟩
    · exact hI.started k i hm hi c n hold d hd
    · exact (hb d hd).resolve_right fun hn => hn.2.1 (hpick d hn.1)

end InFences

end Steps

namespace InFences

theorem occur {e : Occurrence} (hQ : Queued P t.1 R) (he : entries e) (hI : InFences P t R)
    (h : Rknpu.occur P e t.1 = some (t'.1, p)) (hr : t'.2 = t.2) :
    InFences P t' ((p : Multiset Stmt) + R) := by
  have hlog : ∀ ev : Event, (∀ c j k, ev ≠ .complete c j k) → (ev ∈ t'.1.log ↔ ev ∈ t.1.log) :=
    fun ev hev => mem_log_occur h hev
  have hneeds : ∀ i, .enqueue i ∈ t.1.log → ∀ c, t'.1.needs P c i = t.1.needs P c i :=
    fun i hi c => by rw [Dev.needs, Dev.needs, hQ.mask_occur h (List.count_pos_iff.mpr hi)]
  have hnew := fun j => occur_passedW (j := j) he h
  constructor
  case waiting =>
    intro j f hm
    rw [hr]
    exact hI.waiting j f (pending_occur h hm rfl)
  case passed =>
    intro j hm hp
    rw [hr] at hm ⊢
    rw [load_add, hnew, Nat.zero_add, hlog _ (by simp)] at hp
    exact occur_signalled h (hI.passed j hm hp)
  case begun =>
    intro c k n hm
    rw [hlog _ (by simp)] at hm ⊢
    exact hI.begun c k n hm
  case behind =>
    intro k i hm hi hk
    rw [hr] at hm hi
    rw [hlog _ (by simp)] at hk ⊢
    obtain ⟨hik, henq, hb⟩ := hI.behind k i hm hi hk
    refine ⟨hik, henq, fun c hc => ?_⟩
    rw [hneeds i henq] at hc
    exact (hb c hc).occur hQ hk h
  case started =>
    intro k i hm hi c n hs d hd
    rw [hr] at hm hi
    rw [hlog _ (by simp)] at hs ⊢
    rw [hneeds i (hI.behind k i hm hi (hI.begun c k n hs)).2.1] at hd
    exact hI.started k i hm hi c n hs d hd

theorem init : InFences P (Dev.init, fun _ => []) 0 := by
  constructor <;> simp [Dev.init, matchContext]

end InFences

variable {C : Conf (Dev × (JobId → List Fence)) Stmt}

theorem inFence_handled (hC : Reach (fenceMachine P) (inFenceGuard P) (Dev.init, fun _ => []) C) :
    Handled C.shared.1 C.pending := by
  refine hC.invariant_with (fun t B => Queued P t.1 B ∧
    ∀ c, load (doneAtW c) B + load (lookW c) B ≤ 1) (fun t B => Handled t.1 B) ?_
    (by simp [Handled]) ?_ ?_
  · intro D hD
    have hplain : Reach (driver P) (.events interrupts) Dev.init D.unrecorded :=
      Reach.of_recorded (K := inFenceGuard P) (fun _ _ _ _ _ => trivial) (fun _ _ _ he => he.1) hD
    exact ⟨Queued.reach hplain, doneAt_le_one (fun _ _ _ he => he) hplain⟩
  · exact fun t R a x t' p hJ hI hG h => hI.exec hJ.2 hG.2.2.2.2 (recorded_exec h).1
  · exact fun t R e t' p hJ hI he h => hI.occur hJ.1 he.1 (recorded_env h).1

theorem inFence_plain (hC : Reach (fenceMachine P) (inFenceGuard P) (Dev.init, fun _ => []) C) :
    Reach (driver P) genuineGuard Dev.init C.unrecorded :=
  Reach.of_recorded (K := inFenceGuard P) (fun _ _ _ _ hG => hG.1) (fun _ _ _ _ => trivial) hC

theorem InFences.reach (hC : Reach (fenceMachine P) (inFenceGuard P) (Dev.init, fun _ => []) C) :
    InFences P C.shared C.pending := by
  refine hC.invariant_with (fun t B => Queued P t.1 B ∧ Counts t.1 B ∧ Handled t.1 B) (InFences P)
    ?_ init ?_ ?_
  · intro D hD
    have hplain := inFence_plain hD
    exact ⟨Queued.reach hplain, Honest.counts (honest_of_genuine fun _ _ _ _ h => h) hplain,
      inFence_handled hD⟩
  · intro t R a x t' p hJ hI hG h
    obtain ⟨hx, hr⟩ := recorded_exec h
    exact hI.exec hJ.1 hx hr hJ.2.1 hJ.2.2 hG
  · intro t R e t' p hJ hI he h
    obtain ⟨hx, hr⟩ := recorded_env h
    exact hI.occur hJ.1 he hx hr

/-- Every in-fence is honoured, whatever core the jobs run on. -/
theorem in_fence_honoured
    (hC : Reach (fenceMachine P) (inFenceGuard P) (Dev.init, fun _ => []) C) (j : JobId) :
    Honoured P C.shared j := by
  have hI := InFences.reach hC
  have hplain := inFence_plain hC
  have hK := Chunks.reach (honest_of_genuine fun _ _ _ _ h => h) hplain
  refine ⟨fun hm hj => hI.passed j hm (.inr hj), fun hm i hi c k hs => ?_⟩
  have hrel := hI.started j i hm hi c k hs
  refine ⟨(hI.behind j i hm hi (hI.begun c j k hs)).2.1, fun d hd n hn => ?_, hrel⟩
  have hpos := List.count_pos_iff.mpr (hrel d hd)
  have hended := hK.ended d i (Nat.lt_of_lt_of_le hpos (Nat.le_add_left _ _))
  exact hK.counted d i n (by exact_mod_cast hn.trans_le hended)

def behindRun : List (Label Int Occurrence) :=
  [Label.env (Occurrence.submit (oneTask 19 1))] ++ List.replicate 29 (Label.run 0 0) ++
    [Label.env (Occurrence.submit (oneTask 11 1))] ++ List.replicate 14 (Label.run 1 0) ++
    [Label.env (Occurrence.hwComplete 0 0x300), .env (.irq 0)] ++ List.replicate 31 (Label.run 3 0)

/-- Enough for `inFenceGuard` on one core: a job follows the owners of its fence in the slot. -/
def behindTest (C : Conf (Dev × (JobId → List Fence)) Stmt) (a : Stmt) : Bool :=
  genuineTest C.unrecorded a && match a with
    | .enqueue k => (C.shared.2 k).all fun
      | .own i => C.shared.1.log.contains (.enqueue i) && C.shared.1.slot 0 == some i &&
          C.shared.1.mask i == C.shared.1.mask k
      | .foreign _ => false
    | .fenceWait _ _ | .waitUnlink _ _ | .abortCores _ | .cancel _ _ | .drain _ => false
    | _ => true

theorem inFenceGuard_of_behindTest (h : behindTest C a) :
    (inFenceGuard (board rk356xConfig)).run C.shared C.pending a x := by
  simp only [behindTest, Bool.and_eq_true] at h
  obtain ⟨hgenuine, h⟩ := h
  refine ⟨genuine_of_genuineTest (C := C.unrecorded) (x := x) hgenuine, ?_, ?_, ?_, ?_⟩
  · rintro j f rfl
    cases h
  · rintro k rfl - i hi
    have hall := List.all_eq_true.mp h _ hi
    simp only [Bool.and_eq_true, beq_iff_eq, List.contains_iff_mem] at hall
    refine ⟨hall.1.1, fun c hc => .inr ⟨?_, .inl ?_⟩⟩
    · rwa [Dev.needs, ← hall.2]
    · obtain rfl : c = 0 := Nat.lt_one_iff.mp (of_decide_eq_true (Bool.and_eq_true_iff.mp hc).1)
      exact hall.1.2
  · rintro i c (hd | ⟨rfl, -⟩)
    · cases a with
      | waitUnlink | cancel | drain => cases h
      | _ => exact absurd hd id
    · cases h
  · rintro j i c rfl
    cases h

theorem in_fence_honoured_behindRun : ∃ C : Conf (Dev × (JobId → List Fence)) Stmt,
    C.shared.2 1 = [.own 0] ∧ .start 0 1 0 ∈ C.shared.1.log ∧
      Retired (board rk356xConfig) C.shared.1 0 := by
  obtain ⟨C, hC, ht⟩ := Reach.exists_of_steps (fenceMachine (board rk356xConfig))
    (inFenceGuard (board rk356xConfig)) (Dev.init, fun _ => []) behindRun (fun C a _ => behindTest C a)
    (fun C => C.shared.2 1 == [.own 0] && C.shared.1.log.contains (.start 0 1 0))
    (fun _ _ _ => inFenceGuard_of_behindTest)
    (fun e he _ _ => by
      simp [behindRun] at he
      obtain rfl | rfl | rfl | rfl := he <;> exact ⟨by simp [interrupts], by simp⟩)
    (by decide +kernel)
  simp only [Bool.and_eq_true, beq_iff_eq, List.contains_iff_mem] at ht
  refine ⟨C, ht.1, ht.2, (in_fence_honoured hC 1).own ?_ 0 ?_ 0 0 ht.2⟩
  · rw [ht.1]
    rfl
  · rw [ht.1]
    exact List.mem_singleton_self _

/-- Completions are genuine, and waiting for a fence fails with an error number only. -/
def fenceWorld : Guard (Dev × (JobId → List Fence)) Stmt Int Occurrence where
  run t B a x := Counts.Genuine t.1 (B.erase a) a ∧ ∀ j f, a = .fenceWait j f → -4096 < x
  env _ _ e := entries e

/-- A job whose wait for its in-fence timed out is enqueued all the same. -/
theorem in_fence_timed_out : ¬∀ (P : Platform) (C : Conf (Dev × (JobId → List Fence)) Stmt)
    (j : JobId), Reach (fenceMachine P) fenceWorld (Dev.init, fun _ => []) C →
      Honoured P C.shared j := by
  intro hall
  obtain ⟨C, hC, ht⟩ := Reach.exists_of_steps (fenceMachine (board rk356xConfig)) fenceWorld
    (Dev.init, fun _ => [])
    ([Label.env (Occurrence.openFence 0 5), .env (.submit (oneTask 9 1))] ++
      List.replicate 7 (Label.run 1 0))
    (fun C a x => !a.acknowledges && x == 0)
    (fun C => C.shared.2 0 == [.foreign 5] && C.shared.1.log.contains (.enqueue 0) &&
      !C.shared.1.foreignSignalled 5)
    (fun C a x h => by
      simp only [Bool.and_eq_true, beq_iff_eq] at h
      refine ⟨fun c j ha => ?_, fun j f _ => by omega⟩
      simp [ha, Stmt.acknowledges] at h)
    (fun e he _ _ => by
      simp at he
      obtain rfl | rfl := he <;> exact ⟨by simp [interrupts], by simp⟩)
    (by decide +kernel)
  simp only [Bool.and_eq_true, beq_iff_eq, List.contains_iff_mem, Bool.not_eq_true'] at ht
  obtain ⟨⟨hfence, hlog⟩, hsig⟩ := ht
  have hforeign := (hall _ C 0 hC).foreign (by rw [hfence]; rfl) hlog
  rw [hfence] at hforeign
  simp [Dev.signalled, hsig] at hforeign

end Rknpu

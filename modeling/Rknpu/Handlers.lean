import Rknpu.Chunks
import Rknpu.Gang
import Rknpu.Slots
import Rknpu.Starts
import Rknpu.Flow

namespace Rknpu

open Interleaving

variable (P : Platform)

/-- Runs of `rknpu_job_schedule`, `rknpu_job_next` and `rknpu_irq_handler`, the hardware
completing chunks and the interrupt lines firing at any time. -/
def irqWorld : Guard Dev Stmt Int Occurrence :=
  .events fun
    | .schedule _ _ | .next _ | .irq _ | .hwComplete _ _ | .tick _ => True
    | _ => False

/-- The statements of `rknpu_irq_handler` itself. -/
def Stmt.handles : Stmt → Bool
  | .irqEnter _ | .irqStatus _ _ | .irqCheck _ _ _ | .irqClear _ _ | .irqReturn _ => true
  | _ => false

/-- A handler of core `c` that has not yet cleared the status. -/
def lookW (c : Nat) : Stmt → Nat
  | .irqEnter d | .irqStatus _ d | .irqCheck _ d _ | .irqClear d _ => if d = c then 1 else 0
  | _ => 0

def returnW (c : Nat) : Stmt → Nat
  | .irqReturn d => if d = c then 1 else 0
  | _ => 0

/-- The part of `rknpu_job_done` that can take the job from core `c`. -/
def doneAtW (c : Nat) : Stmt → Nat
  | .jobDone _ _ d | .releaseCore _ _ d => if d = c then 1 else 0
  | _ => 0

variable {P} {s s' : Dev} {B R : Multiset Stmt} {a : Stmt} {x : Int} {p : List Stmt}
  {j : JobId} {c : Nat} {r : Int}

theorem irqWorld_threads {e : Occurrence} (hG : irqWorld.env s B e)
    (h : occur P e s = some (s', p)) :
    p = [] ∨ (∃ j, p = [.jobSchedule j]) ∨ ∃ c, p = [.jobNext c] ∨ p = [.irqEnter c] := by
  cases e with
  | schedule args fence => cases h; exact .inr (.inl ⟨_, rfl⟩)
  | next c | irq c =>
    simp only [occur] at h
    split at h <;> cases h
    exact .inr (.inr ⟨c, by simp⟩)
  | hwComplete c bits =>
    obtain ⟨j, k, -, rfl, -⟩ := hwComplete_effect h
    exact .inl rfl
  | tick d => cases h; exact .inl rfl
  | _ => exact absurd hG id

theorem exec_kind (ha : a.gang ∨ a.handles) (h : exec P a x s = some (s', p)) :
    ∀ b ∈ p, b.gang ∨ b.handles := by
  rcases ha with ha | ha
  · exact fun b hb => .inl (exec_gang ha h b hb)
  cases exec_flow h <;> simp [Stmt.handles] at ha <;> simp [Stmt.gang, Stmt.handles]

theorem irqWorld_kind {C : Conf Dev Stmt} (hC : Reach (driver P) irqWorld Dev.init C) :
    ∀ a ∈ C.pending, a.gang ∨ a.handles := by
  refine hC.pending_all (fun a => a.gang ∨ a.handles) (fun s B a x s' p ha _ h => exec_kind ha h) ?_
  intro s B e s' p hG h
  rcases irqWorld_threads (P := P) hG h with rfl | ⟨j, rfl⟩ | ⟨c, rfl | rfl⟩ <;>
    simp [Stmt.gang, Stmt.handles]

theorem exec_not_handles (ha : a.handles = false) (h : exec P a x s = some (s', p)) :
    ∀ b ∈ p, b.handles = false := by
  cases exec_flow h <;> simp [Stmt.handles] at ha <;> simp +contextual [Stmt.handles]

theorem handles_weights (ha : a.handles = false) (c : Nat) : lookW c a = 0 ∧ returnW c a = 0 := by
  cases a <;> first | exact ⟨rfl, rfl⟩ | cases ha

def Serial (s : Dev) (B : Multiset Stmt) : Prop :=
  ∀ c, load (lookW c) B + load (returnW c) B = if s.irqRunning c then 1 else 0

theorem exec_irqRunning (ha : ∀ d, a ≠ .irqReturn d) (h : exec P a x s = some (s', p)) :
    s'.irqRunning = s.irqRunning := by
  cases a <;>
    simp only [exec, fenceIn, fenceWait, fenceOut, fenceFd, dispatch, submitAsync, submitWait,
      submitResult, submitReturn, jobSchedule, selectCore, domainGet, enqueue, nextLoop, jobNext,
      pickUp, runDec, jobCommit, subcoreCommit, commitPc, jobDone, releaseCore, interruptDec,
      doneWidth, donePut, doneFlag, doneRet, doneFence, doneAsync, irqEnter, irqStatus, irqCheck,
      irqClear, waitEvent, waitElapsed, waitLastTask, waitUnlink, waitStatus, waitFlags,
      waitReturn, jobAbort, abortCores, abortReset, jobFree, timeoutClean, cancel, cancelWork,
      drain, drainWork, softReset, resetMark, resetHw, resetEnd,
      stateInit, resetUnlock, Option.some.injEq] at h
  case irqReturn d => exact absurd rfl (ha d)
  case pc g j c k => cases g <;> cases h <;> rfl
  case stateInit => cases h; split <;> rfl
  case commitPc => split at h <;> cases h <;> first | rfl | (split <;> rfl)
  case doneFence | doneAsync => cases h; split <;> rfl
  all_goals
    repeat' split at h
    all_goals
      cases h
      try rfl

/-- A handler that has not returned goes on to its return. -/
theorem exec_looks (ha : a.handles) (hn : ∀ d, a ≠ .irqReturn d)
    (h : exec P a x s = some (s', p)) (c : Nat) :
    load (lookW c) (p : Multiset Stmt) + load (returnW c) (p : Multiset Stmt) = lookW c a := by
  cases exec_flow h <;> simp [Stmt.handles] at ha <;> simp [lookW, returnW]

theorem Serial.exec (hI : Serial s (a ::ₘ R)) (h : Rknpu.exec P a x s = some (s', p)) :
    Serial s' ((p : Multiset Stmt) + R) := by
  intro c
  have hc := hI c
  rw [load_cons, load_cons] at hc
  rw [load_add, load_add]
  by_cases hn : ∃ d, a = .irqReturn d
  · obtain ⟨d, rfl⟩ := hn
    cases h
    by_cases hd : d = c
    · subst hd
      simp [lookW, returnW] at hc ⊢
      split at hc <;> omega
    · simpa [lookW, returnW, hd, Ne.symm hd] using hc
  push Not at hn
  rw [exec_irqRunning hn h]
  by_cases ha : a.handles
  · have hz : returnW c a = 0 := by
      cases a <;> first | rfl | exact absurd rfl (hn _)
    have := exec_looks ha hn h c
    omega
  · have ha : a.handles = false := by simpa using ha
    have hz := handles_weights ha c
    have hl : load (lookW c) (p : Multiset Stmt) = 0 := load_eq_zero _ fun b hb =>
      (handles_weights (exec_not_handles ha h b (Multiset.mem_coe.mp hb)) c).1
    have hr : load (returnW c) (p : Multiset Stmt) = 0 := load_eq_zero _ fun b hb =>
      (handles_weights (exec_not_handles ha h b (Multiset.mem_coe.mp hb)) c).2
    omega

theorem Serial.occur {e : Occurrence} (hI : Serial s R) (h : Rknpu.occur P e s = some (s', p)) :
    Serial s' ((p : Multiset Stmt) + R) := by
  intro c
  have hc := hI c
  rw [load_add, load_add]
  by_cases hi : ∃ d, e = .irq d
  · obtain ⟨d, rfl⟩ := hi
    simp only [Rknpu.occur] at h
    split at h <;> cases h
    rename_i hd
    by_cases hdc : d = c
    · subst hdc
      simp [lookW, returnW, hd.2] at hc ⊢
      omega
    · simpa [lookW, returnW, hdc, Ne.symm hdc] using hc
  have hr : s'.irqRunning = s.irqRunning ∧ ∀ b ∈ p, b.handles = false := by
    cases e with
    | irq d => exact absurd ⟨d, rfl⟩ hi
    | completion d =>
      simp only [Rknpu.occur, Option.map_eq_some_iff] at h
      obtain ⟨r, -, hr⟩ := h
      cases hr
      exact ⟨rfl, by simp [Stmt.handles]⟩
    | _ =>
      simp only [Rknpu.occur, spawn] at h
      repeat' split at h
      all_goals
        cases h
        try exact ⟨rfl, by simp [Stmt.handles]⟩
  have hl : load (lookW c) (p : Multiset Stmt) = 0 := load_eq_zero _ fun b hb =>
    (handles_weights (hr.2 b (by simpa using hb)) c).1
  have hb : load (returnW c) (p : Multiset Stmt) = 0 := load_eq_zero _ fun b hb =>
    (handles_weights (hr.2 b (by simpa using hb)) c).2
  rw [hr.1]
  omega

theorem Serial.reach {G : Guard Dev Stmt Int Occurrence} {C : Conf Dev Stmt}
    (hC : Reach (driver P) G Dev.init C) : Serial C.shared C.pending :=
  hC.invariant Serial (fun c => by simp [Dev.init]) (fun _ _ _ _ _ _ hI _ h => hI.exec h)
    (fun _ _ _ _ _ hI _ h => hI.occur h)

/-- A thread is in a handler only in its last statement, and calls `rknpu_job_done` for a
core only within a handler of that core. -/
def Nested (t : List Stmt) : Prop :=
  (∀ b ∈ t.dropLast, b.handles = false) ∧
    ∀ c, load (doneAtW c) (t : Multiset Stmt) ≤ load (returnW c) (t : Multiset Stmt)

theorem exec_doneAtW (ha : a.handles = false) (h : exec P a x s = some (s', p)) (c : Nat) :
    load (doneAtW c) (p : Multiset Stmt) ≤ doneAtW c a := by
  cases exec_flow h
  case jobCommit =>
    rw [load_commits_eq_zero fun _ => rfl]
    exact Nat.zero_le _
  case irqClear => cases ha
  all_goals simp [doneAtW]

theorem Nested.run {k : List Stmt} (hT : Nested (a :: k)) (h : exec P a x s = some (s', p)) :
    Nested (p ++ k) := by
  by_cases ha : a.handles
  · have hk : k = [] := by
      by_contra hk
      have := hT.1 a (by rw [List.dropLast_cons_of_ne_nil hk]; exact List.mem_cons_self)
      rw [ha] at this
      cases this
    subst hk
    rw [List.append_nil]
    cases exec_flow h <;> simp [Stmt.handles] at ha <;>
      exact ⟨by simp [Stmt.handles], fun c => by simp [doneAtW, returnW]⟩
  · have ha : a.handles = false := by simpa using ha
    have hp := exec_not_handles ha h
    refine ⟨fun b hb => ?_, fun c => ?_⟩
    · rcases List.eq_nil_or_concat k with rfl | ⟨k', d, rfl⟩
      · rw [List.append_nil] at hb
        exact hp b (List.mem_of_mem_dropLast hb)
      · rw [List.concat_eq_append, ← List.append_assoc, List.dropLast_concat] at hb
        rcases List.mem_append.mp hb with hb | hb
        · exact hp b hb
        · refine hT.1 b ?_
          rw [List.concat_eq_append, ← List.cons_append, List.dropLast_concat]
          exact List.mem_cons_of_mem _ hb
    · have hle := hT.2 c
      have hp := exec_doneAtW ha h c
      have hz := (handles_weights ha c).2
      rw [load_coe_cons, load_coe_cons] at hle
      rw [← Multiset.coe_add, load_add, load_add]
      omega

/-- Completions reach the driver through `rknpu_irq_handler`. -/
def interrupts (e : Occurrence) : Prop := ∀ c, e ≠ .completion c

theorem occur_nested {e : Occurrence} (he : interrupts e) (h : occur P e s = some (s', p)) :
    Nested p := by
  cases e with
  | completion c => exact absurd rfl (he c)
  | _ =>
    simp only [occur, spawn] at h
    repeat' split at h
    all_goals
      cases h
      try exact ⟨by simp, by simp [doneAtW]⟩

theorem nested {G : Guard Dev Stmt Int Occurrence} (hG : ∀ s B e, G.env s B e → interrupts e)
    {C : Conf Dev Stmt} (hC : Reach (driver P) G Dev.init C) : ∀ t ∈ C.threads, Nested t :=
  hC.threads_all Nested (fun _ _ _ _ _ _ _ hT _ h => hT.run h)
    (fun s B e _ _ he h => occur_nested (hG s B e he) h)

/-- While `rknpu_job_done` may still take a job from core `c`, no handler looks at it. -/
theorem doneAt_le_one {G : Guard Dev Stmt Int Occurrence}
    (hG : ∀ s B e, G.env s B e → interrupts e) {C : Conf Dev Stmt}
    (hC : Reach (driver P) G Dev.init C) (c : Nat) :
    load (doneAtW c) C.pending + load (lookW c) C.pending ≤ 1 := by
  have hle : load (doneAtW c) C.pending ≤ load (returnW c) C.pending :=
    load_le_of_threads _ fun t ht => (nested hG hC t ht).2 c
  have hone := Serial.reach hC c
  split at hone <;> omega

end Rknpu

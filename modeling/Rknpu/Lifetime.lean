import Rknpu.Fences
import Rknpu.Idle
import Rknpu.Recovery

namespace Rknpu

open Interleaving

variable {P : Platform} {G : Guard Dev Stmt Int Occurrence} {C : Conf Dev Stmt} {s s' : Dev}
  {B R : Multiset Stmt} {a : Stmt} {x : Int} {p k : List Stmt} {j : JobId} {c : Nat}

/-- The driver is entered by its ioctls, its interrupts and its work. -/
def entries (e : Occurrence) : Prop := interrupts e ∧ ∀ args fence, e ≠ .schedule args fence

/-- `rknpu_submit` of job `j` is at work, and has not given the job away. -/
def Stmt.owner : Stmt → Option JobId
  | .submitReturn _ _ => none
  | a => a.submitter

/-- The statements of `rknpu_job_schedule` about job `j`. -/
def Stmt.schedules : Stmt → Option JobId
  | .jobSchedule j | .selectCore j _ _ _ | .domainGet j | .enqueue j | .nextLoop j _ => some j
  | _ => none

/-- The job that a statement of `rknpu_submit`, `rknpu_job_schedule`, `rknpu_job_wait`,
`rknpu_irq_handler` or `rknpu_job_done` reads or writes, those of `rknpu_job_next` and of the
commit functions, which they call, among them. -/
def Stmt.uses : Stmt → Option JobId
  | .jobSchedule j | .selectCore j _ _ _ | .domainGet j | .enqueue j | .nextLoop j _
  | .runDec j | .jobCommit j | .subcoreCommit j _ | .commitPc j _ | .pc _ j _ _
  | .irqStatus j _ | .irqCheck j _ _ | .irqClear _ (.done j)
  | .jobDone j _ _ | .releaseCore j _ _ | .interruptDec j _ _ | .doneWidth j _ _ | .donePut j _ _
  | .doneFlag j _ _ | .doneRet j _ _ | .doneFence j _ | .doneAsync j _ => some j
  | a => a.owner

def ownerW (j : JobId) (a : Stmt) : Nat := if a.owner = some j then 1 else 0

def usesW (j : JobId) (a : Stmt) : Nat := if a.uses = some j then 1 else 0

/-- No commit of job `j` is at work, nor a pick-up that may lead to one. -/
def Uncommitted (B : Multiset Stmt) (j : JobId) : Prop :=
  load (runDecW j) B = 0 ∧ load (commitsW j) B = 0

/-- A job is given away by those who are the last to work on it: to its `cleanup_work` when its
submit has read the result, to its submit when `rknpu_job_done` is through, and by an abort or a
recovery when no core, commit, handler or `rknpu_job_done` is left that knows of it. -/
def lifetimeGuard : Guard Dev Stmt Int Occurrence where
  run s B a _ :=
    Counts.Genuine s (B.erase a) a ∧
    (∀ j, a = .submitResult j → (s.jobs j).ret = 0 → s.pc j ∧ load (untilW 5 j) B = 0) ∧
    (∀ j q, a = .doneAsync j q → (s.jobs j).async → load (ownerW j) B = 0) ∧
    (∀ j, a = .abortCores j → (∀ c, j ∉ s.todoList c) ∧
      (∀ c, s.slot c = some j → (s.jobs j).irqEntry c = false) ∧
      load (interruptDecW j) B + load (untilW 5 j) B = 0 ∧ Uncommitted B j) ∧
    ∀ j, s.clears j a → ¬Detached s j ∧ load (ownerW j) B = 0 ∧ load (interruptDecW j) B = 0 ∧
      Uncommitted B j ∧ (∀ c, load (handlerW j c) B = 0) ∧ ∀ i, a = .drain i → ∀ c, s.slot c ≠ some j
  env _ _ e := entries e

/-- While `rknpu_submit` is at a statement of its own, `rknpu_job_schedule` is not at work. -/
def inSequence : Guard Dev Stmt Int Occurrence where
  run _ B a _ := ∀ j, a.owner = some j → ∀ b ∈ B, b.schedules ≠ some j
  env _ _ _ := True

/-- The job is freed, or its last owner is about to free it. -/
def Given (s : Dev) (B : Multiset Stmt) (j : JobId) : Prop :=
  .jobFree j ∈ B ∨ s.workPending j ∨ 0 < load (handW j) B ∨ .free j ∈ s.log

/-- Who frees a job is the only one left to work on it. -/
structure Lifetime (s : Dev) (B : Multiset Stmt) : Prop where
  given : ∀ j, Given s B j → Detached s j ∧ j < s.jobNum ∧ load (usesW j) B = 0
  aborted : ∀ j, .abortReset j ∈ B → Detached s j ∧ load (usesW j) B = 1

section Threads

/-- In a thread, `rknpu_job_schedule` is called by `rknpu_submit`. -/
def Followed : List Stmt → Prop
  | [] => True
  | a :: k => (∀ j, a.schedules = some j → .submitAsync j ∈ k ∨ .submitWait j ∈ k) ∧ Followed k

theorem followed_append (hp : ∀ b ∈ p, b.schedules = none) (hk : Followed k) : Followed (p ++ k) := by
  induction p with
  | nil => exact hk
  | cons b p ih =>
    refine ⟨fun j hj => ?_, ih fun d hd => hp d (List.mem_cons_of_mem b hd)⟩
    rw [hp b List.mem_cons_self] at hj
    cases hj

theorem Followed.mem (hk : Followed k) (ha : a ∈ k) (hj : a.schedules = some j) :
    .submitAsync j ∈ k ∨ .submitWait j ∈ k := by
  induction k with
  | nil => cases ha
  | cons b k ih =>
    rcases List.mem_cons.mp ha with rfl | ha
    · exact (hk.1 j hj).imp (List.mem_cons_of_mem _) (List.mem_cons_of_mem _)
    · exact (ih hk.2 ha).imp (List.mem_cons_of_mem _) (List.mem_cons_of_mem _)

theorem Followed.run (hk : Followed (a :: k)) (h : exec P a x s = some (s', p)) :
    Followed (p ++ k) := by
  cases exec_flow h with
  | jobCommit i l =>
    refine followed_append (fun b hb => ?_) hk.2
    obtain ⟨c, -, rfl⟩ := List.mem_map.mp hb
    rfl
  | _ => simp_all [Followed, Stmt.schedules]

theorem followed (hG : ∀ s B e, G.env s B e → entries e) (hC : Reach (driver P) G Dev.init C) :
    ∀ t ∈ C.threads, Followed t := by
  refine hC.threads_all Followed (fun _ _ _ _ _ _ _ hk _ h => hk.run h) ?_
  intro s B e s' p he h
  cases e with
  | schedule args fence => exact absurd rfl ((hG s B _ he).2 args fence)
  | completion c => exact absurd rfl ((hG s B _ he).1 c)
  | _ =>
    simp only [driver, occur, spawn] at h
    repeat' split at h
    all_goals
      cases h
      try simp [Followed, Stmt.schedules]

theorem exec_ownerW (h : exec P a x s = some (s', p)) (j : JobId) :
    load (ownerW j) (p : Multiset Stmt) ≤ ownerW j a := by
  cases exec_flow h with
  | jobCommit i l =>
    rw [load_commits_eq_zero (f := ownerW j) fun _ => by simp [ownerW, Stmt.owner, Stmt.submitter]]
    exact Nat.zero_le _
  | _ => simp [ownerW, Stmt.owner, Stmt.submitter]

theorem submitter_of_owner (hj : a.owner = some j) : a.submitter = some j := by
  cases a <;> first | exact hj | cases hj

theorem ownerW_le_one (hC : Reach (driver P) G Dev.init C) (j : JobId) :
    load (ownerW j) C.pending ≤ 1 := by
  refine hC.invariant_with (fun s B => ∀ a ∈ B, ∀ j, a.submitter = some j → j < s.jobNum)
    (fun _ B => load (ownerW j) B ≤ 1) (fun _ hC _ ha _ hj => submitter_lt hC ha hj) (by simp) ?_ ?_
  · intro s R a x s' p _ hI _ h
    have hle := exec_ownerW h j
    rw [load_cons] at hI
    rw [load_add]
    omega
  · intro s R e s' p hJ hI _ h
    by_cases hj : j = s.jobNum
    · have hz : load (ownerW j) R = 0 := load_eq_zero _ fun b hb => if_neg fun ho =>
        (hJ b hb j (submitter_of_owner ho)).ne hj
      have hone : load (ownerW j) (p : Multiset Stmt) ≤ 1 := by
        cases occur_flow h <;> simp [ownerW, Stmt.owner, Stmt.submitter]
        split <;> omega
      rw [load_add]
      omega
    · have hz : load (ownerW j) (p : Multiset Stmt) = 0 := by
        cases occur_flow h <;> simp [ownerW, Stmt.owner, Stmt.submitter, Ne.symm hj]
      rw [load_add]
      omega

theorem ownerW_pos {t : List Stmt} (ht : .submitAsync j ∈ t ∨ .submitWait j ∈ t) :
    0 < load (ownerW j) (t : Multiset Stmt) := by
  rcases ht with ht | ht
  · exact lt_of_lt_of_le (by simp [ownerW, Stmt.owner, Stmt.submitter])
      (le_load (ownerW j) (Multiset.mem_coe.mpr ht))
  · exact lt_of_lt_of_le (by simp [ownerW, Stmt.owner, Stmt.submitter])
      (le_load (ownerW j) (Multiset.mem_coe.mpr ht))

/-- The caller of `rknpu_job_schedule` still works on the job. -/
theorem owner_of_schedules (hG : ∀ s B e, G.env s B e → entries e)
    (hC : Reach (driver P) G Dev.init C) (ha : a ∈ C.pending) (hj : a.schedules = some j) :
    0 < load (ownerW j) C.pending := by
  obtain ⟨t, ht, hm⟩ := List.mem_flatten.mp (Multiset.mem_coe.mp ha)
  rcases (followed hG hC t ht).mem hm hj with hb | hb
  · exact (ownerW_pos (.inl (List.mem_singleton_self _))).trans_le
      (le_load (ownerW j) (Multiset.mem_coe.mpr (List.mem_flatten.mpr ⟨t, ht, hb⟩)))
  · exact (ownerW_pos (.inr (List.mem_singleton_self _))).trans_le
      (le_load (ownerW j) (Multiset.mem_coe.mpr (List.mem_flatten.mpr ⟨t, ht, hb⟩)))

theorem unscheduled (hG : ∀ s B e, G.env s B e → entries e) (hC : Reach (driver P) G Dev.init C)
    (hk : a :: k ∈ C.threads) : inSequence.run C.shared C.pending a x := by
  intro j ha b hb hj
  have hone := ownerW_le_one hC j
  have hself : ownerW j a = 1 := if_pos ha
  have hne : b ≠ a := by
    rintro rfl
    cases b <;> first | (cases hj; done) | cases ha
  obtain ⟨i, hi⟩ := List.getElem?_of_mem hk
  obtain ⟨t, ht, hm⟩ := List.mem_flatten.mp (Multiset.mem_coe.mp hb)
  obtain ⟨l, hl⟩ := List.getElem?_of_mem ht
  by_cases hil : i = l
  · subst hil
    obtain rfl : a :: k = t := Option.some.inj (hi.symm.trans hl)
    have hmem := (List.mem_cons.mp hm).resolve_left hne
    have hpos := ownerW_pos ((followed hG hC _ hk).2.mem hmem hj)
    have hle : load (ownerW j) ((a :: k : List Stmt) : Multiset Stmt) ≤ load (ownerW j) C.pending :=
      load_le (ownerW j) (List.sublist_flatten_of_mem hk).subperm
    rw [load_coe_cons] at hle
    omega
  · have hpos := ownerW_pos ((followed hG hC _ ht).mem hm hj)
    have hle := load_le (ownerW j) (threads_le hi hl (Ne.symm hil))
    rw [load_add, load_coe_cons] at hle
    omega

end Threads

structure Scene (P : Platform) (s : Dev) (B : Multiset Stmt) : Prop where
  queued : Queued P s B
  counts : Counts s B
  ends : Ends s B
  nodes : Nodes P s B
  handled : Handled s B
  reports : Reports s B
  submitter : ∀ a ∈ B, ∀ j, a.submitter = some j → j < s.jobNum
  owner : ∀ j, load (ownerW j) B ≤ 1
  schedules : ∀ j, ∀ a ∈ B, a.schedules = some j → 0 < load (ownerW j) B

section Steps

theorem Stmt.uses_cases {b : Stmt} (h : b.uses = some j) : ownerW j b = 1 ∨ b.schedules = some j ∨
    runDecW j b + commitsW j b = 1 ∨ (∃ c, handlerW j c b = 1) ∨ interruptDecW j b = 1 ∨
      untilW 5 j b = 1 := by
  cases b with
  | runDec | jobCommit | subcoreCommit | commitPc | pc =>
    cases h
    exact .inr (.inr (.inl (by simp [runDecW, commitsW])))
  | irqClear d e =>
    cases e <;> cases h
    exact .inr (.inr (.inr (.inl ⟨d, if_pos ⟨rfl, rfl⟩⟩)))
  | irqStatus i d | irqCheck i d | jobDone i r d | releaseCore i r d =>
    cases h
    exact .inr (.inr (.inr (.inl ⟨d, if_pos ⟨rfl, rfl⟩⟩)))
  | interruptDec i r d =>
    cases h
    exact .inr (.inr (.inr (.inr (.inl (if_pos rfl)))))
  | doneWidth | donePut | doneFlag | doneRet | doneFence | doneAsync =>
    cases h
    simp [untilW, stage]
  | jobSchedule | selectCore | domainGet | enqueue | nextLoop => exact .inr (.inl h)
  | _ => exact .inl (if_pos h)

theorem unused_of (howner : load (ownerW j) R = 0) (hsched : ∀ b ∈ R, b.schedules ≠ some j)
    (hcommit : Uncommitted R j) (hhandler : ∀ c, load (handlerW j c) R = 0)
    (hdec : load (interruptDecW j) R = 0) (huntil : load (untilW 5 j) R = 0) :
    load (usesW j) R = 0 := by
  refine load_eq_zero _ fun b hb => if_neg fun hj => ?_
  have hle : ∀ f : Stmt → Nat, load f R = 0 → f b = 0 := fun f hf =>
    Nat.le_zero.mp (hf ▸ le_load f hb)
  obtain ho | hs | hc | ⟨c, hh⟩ | hd | hu := Stmt.uses_cases hj
  · have := hle _ howner
    omega
  · exact hsched b hb hs
  · have := hle _ hcommit.1
    have := hle _ hcommit.2
    omega
  · have := hle _ (hhandler c)
    omega
  · have := hle _ hdec
    omega
  · have := hle _ huntil
    omega

theorem exec_uses (ha : a.uses ≠ some j) (hirq : ∀ c, a = .irqEnter c → s.slot c ≠ some j)
    (hpick : ∀ c, a = .pickUp c → j ∉ s.todoList c) (h : exec P a x s = some (s', p)) :
    load (usesW j) (p : Multiset Stmt) = 0 := by
  by_cases hi : ∃ c, a = .irqEnter c
  · obtain ⟨c, rfl⟩ := hi
    obtain ⟨-, ⟨-, rfl⟩ | ⟨i, hs, rfl, -⟩⟩ := irqEnter_effect h
    · rfl
    · have hij : i ≠ j := fun hij => hirq c rfl (hij ▸ hs)
      simp [usesW, Stmt.uses, hij]
  by_cases hc : ∃ c, a = .pickUp c
  · obtain ⟨c, rfl⟩ := hc
    obtain ⟨-, rfl, -⟩ | ⟨i, rest, -, ht, -, rfl, -⟩ := pickUp_effect h
    · rfl
    · have hij : i ≠ j := fun hij => hpick c rfl (by rw [ht, hij]; exact List.mem_cons_self)
      simp [usesW, Stmt.uses, hij]
  · push Not at hi hc
    cases exec_flow h with
    | irqEnter c | irqEnterNone c => exact absurd rfl (hi c)
    | pickUp c | pickUpNone c => exact absurd rfl (hc c)
    | jobCommit i l =>
      have hij : i ≠ j := fun hij => ha (congrArg some hij)
      exact load_commits_eq_zero (f := usesW j) (fun _ => if_neg (by simpa [Stmt.uses] using hij)) l
    | _ => simp_all [usesW, Stmt.uses, Stmt.owner, Stmt.submitter]

theorem Detached.exec_uses (hD : Detached s j) (ha : a.uses ≠ some j)
    (h : Rknpu.exec P a x s = some (s', p)) : load (usesW j) (p : Multiset Stmt) = 0 :=
  Rknpu.exec_uses ha (fun c _ => hD.slot c) (fun c _ => hD.todo c) h

theorem frees_uses (h : exec P a x s = some (s', p)) (hj : .jobFree j ∈ p) :
    load (usesW j) (p : Multiset Stmt) = 0 := by
  cases exec_flow h with
  | jobCommit i l =>
    obtain ⟨c, -, hc⟩ := List.mem_map.mp hj
    cases hc
  | _ => simp_all [usesW, Stmt.uses, Stmt.owner, Stmt.submitter]

theorem handled_eq_zero (hH : Handled s B) (hD : Detached s j) (c : Nat) :
    load (handlerW j c) B = 0 := by
  by_contra hn
  exact hD.slot c (hH j c (Nat.pos_of_ne_zero hn)).1

theorem interruptDec_of_finished (hQ : Queued P s B) (hC : Counts s B) (hf : 0 < finished s j) :
    load (interruptDecW j) B = 0 := by
  have hle := interruptDec_le hQ hC (enqueued_of_finished hf)
  simp only [finished] at hf
  split at hf <;> omega

/-- A pick-up of a finished job has counted down, and its last commit is over. -/
theorem uncommitted_of_finished (hQ : Queued P s B) (hC : Counts s B) (hf : 0 < finished s j) :
    Uncommitted B j := by
  refine ⟨?_, (idle_of_finished hQ hC hf).1⟩
  have henq : 0 < s.log.count (.enqueue j) := enqueued_of_finished hf
  obtain ⟨c, hc⟩ : ∃ c, 0 < s.log.count (.release c j) := by
    simp only [finished] at hf
    split at hf
    · rename_i hfin
      have hints := hC.ints j hfin.1
      obtain ⟨c, hc⟩ := List.exists_mem_of_length_pos (l := releaseCores s.log j) (by omega)
      exact ⟨c, by rwa [← count_releaseCores, List.count_pos_iff]⟩
    · omega
  have hrun := (hC.live (j := j) (c := c) (by simp only [tokens]; omega)).2
  have hle := hQ.runDec_le henq
  omega

theorem uncommitted_of_not_enqueued (hQ : Queued P s B) (hC : Counts s B)
    (hj : s.log.count (.enqueue j) = 0) : Uncommitted B j := by
  have hnone : ∀ c, load (jobCommitW j) B = 0 ∧ load (commitW j c) B = 0 := fun c => by
    have := hC.untouched hj c
    simp only [tokens] at this
    omega
  refine ⟨hQ.idle j hj, load_eq_zero _ fun b hb => ?_⟩
  cases b with
  | jobCommit i =>
    refine if_neg ?_
    rintro rfl
    have hle := le_load (jobCommitW i) hb
    rw [(hnone 0).1, jobCommitW, if_pos rfl] at hle
    omega
  | subcoreCommit i c | commitPc i c | pc g i c k =>
    refine if_neg ?_
    rintro rfl
    have hle := le_load (commitW i c) hb
    rw [(hnone c).2, commitW, if_pos ⟨rfl, rfl⟩] at hle
    omega
  | _ => rfl

theorem Uncommitted.of_cons (h : Uncommitted (a ::ₘ R) j) : Uncommitted R j := by
  have h₁ := h.1
  have h₂ := h.2
  rw [load_cons] at h₁ h₂
  exact ⟨by omega, by omega⟩

/-- No core knows of a job that is not enqueued, and nobody finishes it. -/
theorem untouched (hQ : Queued P s B) (hC : Counts s B) (hE : Ends s B)
    (hj : s.log.count (.enqueue j) = 0) : Detached s j ∧ Uncommitted B j ∧
      load (interruptDecW j) B = 0 ∧ load (untilW 5 j) B = 0 := by
  refine ⟨⟨fun c hm => ?_, fun c hc => ?_⟩, uncommitted_of_not_enqueued hQ hC hj, hC.idle j hj, ?_⟩
  · have := hQ.enqueued_of_todo hm
    omega
  · have := hQ.enqueued_of_slot hc
    omega
  · have hupto := hE.upto 5 (by omega) j
    rw [finished_of_not_enqueued hj] at hupto
    omega

variable (hS : Scene P s (a ::ₘ R)) (hseq : inSequence.run s (a ::ₘ R) a x)
include hS

theorem Scene.alone (ha : a.owner = some j) : load (ownerW j) R = 0 := by
  have hone := hS.owner j
  rw [load_cons, ownerW, if_pos ha] at hone
  omega

theorem Scene.lt_of_owner (ha : a.owner = some j) : j < s.jobNum :=
  hS.submitter a (Multiset.mem_cons_self a R) j (submitter_of_owner ha)

include hseq in
theorem Scene.last (ha : a.owner = some j) (hcommit : Uncommitted (a ::ₘ R) j)
    (hhandler : ∀ c, load (handlerW j c) (a ::ₘ R) = 0)
    (hdec : load (interruptDecW j) (a ::ₘ R) = 0) (huntil : load (untilW 5 j) (a ::ₘ R) = 0) :
    load (usesW j) R = 0 := by
  simp only [load_cons] at hhandler hdec huntil
  refine unused_of (hS.alone ha) (fun b hb => hseq j ha b (Multiset.mem_cons_of_mem hb))
    hcommit.of_cons (fun c => ?_) (by omega) (by omega)
  have := hhandler c
  omega

theorem Scene.after (howner : load (ownerW j) (a ::ₘ R) = 0) (hcommit : Uncommitted (a ::ₘ R) j)
    (hhandler : ∀ c, load (handlerW j c) (a ::ₘ R) = 0)
    (hdec : load (interruptDecW j) (a ::ₘ R) = 0) (huntil : load (untilW 5 j) R = 0) :
    load (usesW j) R = 0 := by
  have hsched : ∀ b ∈ R, b.schedules ≠ some j := fun b hb hj => by
    have := hS.schedules j b (Multiset.mem_cons_of_mem hb) hj
    omega
  simp only [load_cons] at howner hhandler hdec
  refine unused_of (by omega) hsched hcommit.of_cons (fun c => ?_) (by omega) huntil
  have := hhandler c
  omega

include hseq in
theorem Scene.free_early (ha : a.unfenced = some j) (h : exec P a x s = some (s', p)) :
    Detached s' j ∧ j < s.jobNum ∧ load (usesW j) R = 0 := by
  have howner : a.owner = some j := by
    cases a <;> first | exact ha | cases ha
  have hpre : 0 < preW j a := by
    cases a <;> simp_all [Stmt.unfenced, preW]
  obtain ⟨hD, hcommit, hdec, huntil⟩ :=
    untouched hS.queued hS.counts hS.ends (hS.queued.not_enqueued hpre)
  refine ⟨hD.exec ?_ h, hS.lt_of_owner howner,
    hS.last hseq howner hcommit (handled_eq_zero hS.handled hD) hdec huntil⟩
  rintro rfl
  cases ha

include hseq in
theorem Scene.free_result (hG : lifetimeGuard.run s (a ::ₘ R) a x) (ha : a = .submitResult j)
    (hret : (s.jobs j).ret = 0) (h : exec P a x s = some (s', p)) :
    Detached s' j ∧ j < s.jobNum ∧ load (usesW j) R = 0 := by
  obtain ⟨hpc, huntil⟩ := hG.2.1 j ha hret
  subst ha
  have hdone := (hS.reports.result j (Multiset.mem_cons_self _ R) hpc).resolve_left (not_not.mpr hret)
  have hfin := finished_of_done hS.ends hdone
  have hD := detached_of_finished hS.queued hS.counts hfin
  exact ⟨hD.exec (by simp) h, hS.lt_of_owner rfl, hS.last hseq rfl
    (uncommitted_of_finished hS.queued hS.counts hfin) (handled_eq_zero hS.handled hD)
    (interruptDec_of_finished hS.queued hS.counts hfin) huntil⟩

include hseq in
theorem Scene.abort (hG : lifetimeGuard.run s (a ::ₘ R) a x) (ha : a = .abortCores j)
    (h : exec P a x s = some (s', p)) : Detached s' j ∧ load (usesW j) R = 0 := by
  obtain ⟨htodo, hentry, hend, hcommit⟩ := hG.2.2.2.1 j ha
  subst ha
  refine ⟨⟨fun c hm => htodo c ((exec_todo (by simp) h c).mem hm), fun c hc => ?_⟩,
    hS.last hseq rfl hcommit (fun c => ?_) (by omega) (by omega)⟩
  · rw [abortCores_slot h] at hc
    split at hc
    · cases hc
    · rename_i hn
      have hneeds := Bool.and_eq_true_iff.mp (hS.queued.needs_of_picked (hS.queued.slots j c hc))
      exact hn (by simp [Dev.aborts, of_decide_eq_true hneeds.1, hneeds.2, hc, hentry c hc])
  · by_contra hn
    obtain ⟨hc, he⟩ := hS.handled j c (Nat.pos_of_ne_zero hn)
    simp [hentry c hc] at he

theorem Scene.async {q : Nat} (hG : lifetimeGuard.run s (a ::ₘ R) a x) (ha : a = .doneAsync j q)
    (hasync : (s.jobs j).async) (h : exec P a x s = some (s', p)) :
    Detached s' j ∧ j < s.jobNum ∧ load (usesW j) R = 0 := by
  have howner := hG.2.2.1 j q ha hasync
  subst ha
  have hupto := hS.ends.upto 5 (by omega) j
  have hle := finished_le_one s j
  have hself : untilW 5 j (.doneAsync j q) = 1 := if_pos ⟨rfl, le_rfl⟩
  rw [load_cons] at hupto
  have hfin : 0 < finished s j := by omega
  have hD := detached_of_finished hS.queued hS.counts hfin
  exact ⟨hD.exec (by simp) h, hS.queued.lt_jobNum (enqueued_of_finished hfin),
    hS.after howner (uncommitted_of_finished hS.queued hS.counts hfin)
      (handled_eq_zero hS.handled hD) (interruptDec_of_finished hS.queued hS.counts hfin) (by omega)⟩

theorem Scene.recover (hG : lifetimeGuard.run s (a ::ₘ R) a x) (hj : s.clears j a)
    (h : exec P a x s = some (s', p)) : Detached s' j ∧ j < s.jobNum ∧ load (usesW j) R = 0 := by
  obtain ⟨hknown, howner, hdec, hcommit, hhandler, hslot⟩ := hG.2.2.2.2 j hj
  obtain ⟨henq, c, hc⟩ := unreleased hS.queued hS.counts hknown
  have hupto := hS.ends.upto 5 (by omega) j
  rw [not_finished hS.queued hS.counts hc, load_cons] at hupto
  exact ⟨clears_detached hS.queued hS.nodes hslot hj h, hS.queued.lt_jobNum henq,
    hS.after howner hcommit hhandler hdec (by omega)⟩

end Steps

namespace Lifetime

theorem given_exec (hS : Scene P s (a ::ₘ R)) (hseq : inSequence.run s (a ::ₘ R) a x)
    (hG : lifetimeGuard.run s (a ::ₘ R) a x) (hI : Lifetime s (a ::ₘ R))
    (h : exec P a x s = some (s', p)) (hj : Given s' ((p : Multiset Stmt) + R) j) :
    Detached s' j ∧ j < s.jobNum ∧ load (usesW j) ((p : Multiset Stmt) + R) = 0 := by
  rw [load_add]
  by_cases hold : Given s (a ::ₘ R) j
  · obtain ⟨hD, hlt, hz⟩ := hI.given j hold
    rw [load_cons] at hz
    have ha : a.uses ≠ some j := fun ha => by
      rw [usesW, if_pos ha] at hz
      omega
    have hp := hD.exec_uses ha h
    refine ⟨hD.exec ?_ h, hlt, by omega⟩
    rintro rfl
    exact ha rfl
  have hfree : .jobFree j ∉ a ::ₘ R := fun hm => hold (.inl hm)
  have hwork : ¬s.workPending j := fun hw => hold (.inr (.inl hw))
  have hhand : ¬0 < load (handW j) (a ::ₘ R) := fun hh => hold (.inr (.inr (.inl hh)))
  have hlog : .free j ∉ s.log := fun hl => hold (.inr (.inr (.inr hl)))
  rcases hj with hj | hj | hj | hj
  · have hp : .jobFree j ∈ p := by
      rcases Multiset.mem_add.mp hj with hj | hj
      · simpa using hj
      · exact absurd (Multiset.mem_cons_of_mem hj) hfree
    have hz := frees_uses h hp
    rcases exec_frees h hp with ⟨ha, hret⟩ | rfl | ⟨ha, -⟩
    · obtain ⟨hD, hlt, hR⟩ := hS.free_result hseq hG ha hret h
      exact ⟨hD, hlt, by omega⟩
    · obtain ⟨hD, hone⟩ := hI.aborted j (Multiset.mem_cons_self _ R)
      have hself : usesW j (.abortReset j) = 1 := if_pos rfl
      rw [load_cons, hself] at hone
      exact ⟨hD.exec (by simp) h, hS.lt_of_owner rfl, by omega⟩
    · obtain ⟨hD, hlt, hR⟩ := hS.free_early hseq ha h
      exact ⟨hD, hlt, by omega⟩
  · rcases exec_work h hj with hw | ⟨q, rfl⟩ | ⟨i, rfl | rfl⟩
    · exact absurd hw hwork
    · have hasync : (s.jobs j).async := by
        by_contra hn
        cases h
        simp [hn, hwork] at hj
      obtain ⟨hD, hlt, hR⟩ := hS.async hG rfl hasync h
      cases h
      exact ⟨hD, hlt, by simp [hR, usesW, Stmt.uses, Stmt.owner, Stmt.submitter]⟩
    · exact absurd (by simp [handW]) hhand
    · exact absurd (by simp [handW]) hhand
  · by_cases hcl : s.clears j a
    · obtain ⟨hD, hlt, hR⟩ := hS.recover hG hcl h
      have hp : load (usesW j) (p : Multiset Stmt) = 0 := by
        cases a with
        | cancel i n =>
          exact exec_uses (by simp [Stmt.uses, Stmt.owner, Stmt.submitter]) (by simp) (by simp) h
        | drain n =>
          exact exec_uses (by simp [Stmt.uses, Stmt.owner, Stmt.submitter]) (by simp) (by simp) h
        | _ => exact absurd hcl id
      exact ⟨hD, hlt, by omega⟩
    · rw [load_add, exec_handW h hcl] at hj
      rw [load_cons] at hhand
      omega
  · exfalso
    have hcount := List.count_pos_iff.mpr hj
    rw [exec_count h] at hcount
    · exact hlog (List.count_pos_iff.mp hcount)
    · cases a with
      | jobFree i =>
        refine beq_eq_false_iff_ne.mpr ?_
        rintro rfl
        exact hfree (Multiset.mem_cons_self _ R)
      | pc g i d n => cases g <;> rfl
      | _ => rfl

theorem aborted_exec (hS : Scene P s (a ::ₘ R)) (hseq : inSequence.run s (a ::ₘ R) a x)
    (hG : lifetimeGuard.run s (a ::ₘ R) a x) (hI : Lifetime s (a ::ₘ R))
    (h : exec P a x s = some (s', p)) (hj : .abortReset j ∈ (p : Multiset Stmt) + R) :
    Detached s' j ∧ load (usesW j) ((p : Multiset Stmt) + R) = 1 := by
  have huses : usesW j (.abortReset j) = 1 := if_pos rfl
  rw [load_add]
  by_cases hR : .abortReset j ∈ R
  · obtain ⟨hD, hone⟩ := hI.aborted j (Multiset.mem_cons_of_mem hR)
    have hle := le_load (usesW j) hR
    rw [load_cons] at hone
    have ha : a.uses ≠ some j := fun ha => by
      rw [usesW, if_pos ha] at hone
      omega
    have hself : usesW j a = 0 := if_neg ha
    have hp := hD.exec_uses ha h
    refine ⟨hD.exec ?_ h, by omega⟩
    rintro rfl
    exact ha rfl
  · have hp : .abortReset j ∈ p := by simpa [hR] using hj
    have ha : a = .abortCores j := by
      cases exec_flow h <;> simp_all
    obtain ⟨hD, hz⟩ := hS.abort hseq hG ha h
    subst ha
    cases h
    exact ⟨hD, by simp [hz, huses]⟩

theorem exec (hS : Scene P s (a ::ₘ R)) (hseq : inSequence.run s (a ::ₘ R) a x)
    (hG : lifetimeGuard.run s (a ::ₘ R) a x) (hI : Lifetime s (a ::ₘ R))
    (h : Rknpu.exec P a x s = some (s', p)) : Lifetime s' ((p : Multiset Stmt) + R) := by
  refine ⟨fun j hj => ?_, fun j hj => hI.aborted_exec hS hseq hG h hj⟩
  rw [exec_jobNum h]
  exact hI.given_exec hS hseq hG h hj

theorem occur {e : Occurrence} (hS : Scene P s R) (he : entries e) (hI : Lifetime s R)
    (h : Rknpu.occur P e s = some (s', p)) : Lifetime s' ((p : Multiset Stmt) + R) := by
  have hdetached : ∀ j, Detached s j → Detached s' j := fun j hD =>
    ⟨fun c => by rw [occur_todo h]; exact hD.todo c, fun c => by rw [occur_slot h]; exact hD.slot c⟩
  have huses : ∀ j < s.jobNum, load (usesW j) (p : Multiset Stmt) = 0 := by
    intro j hlt
    cases e with
    | completion c => exact absurd rfl (he.1 c)
    | schedule args fence => exact absurd rfl (he.2 args fence)
    | _ =>
      simp only [Rknpu.occur, Rknpu.spawn] at h
      repeat' split at h
      all_goals
        cases h
        try simp [usesW, Stmt.uses, Stmt.owner, Stmt.submitter, hlt.ne']
  constructor
  · intro j hj
    have hold : Given s R j := by
      rcases hj with hj | hj | hj | hj
      · rcases Multiset.mem_add.mp hj with hm | hm
        · cases occur_flow h with
          | cleanupWork i hw =>
            obtain rfl : j = i := by simpa using hm
            exact .inr (.inl hw)
          | _ => simp at hm
        · exact .inl hm
      · exact .inr (.inl (occur_work h hj))
      · rw [occur_handW h] at hj
        exact .inr (.inr (.inl hj))
      · rw [← List.count_pos_iff, occur_count h (by simp), List.count_pos_iff] at hj
        exact .inr (.inr (.inr hj))
    obtain ⟨hD, hlt, hz⟩ := hI.given j hold
    exact ⟨hdetached j hD, hlt.trans_le (occur_jobNum h), by rw [load_add, huses j hlt, hz]⟩
  · intro j hj
    have hR := pending_occur h hj rfl
    obtain ⟨hD, hone⟩ := hI.aborted j hR
    have hlt := hS.submitter _ hR j rfl
    exact ⟨hdetached j hD, by rw [load_add, huses j hlt, hone]⟩

theorem init : Lifetime Dev.init 0 := by
  constructor <;> simp [Given, Dev.init]

end Lifetime

theorem lifetime_honest : Honest P (lifetimeGuard.and inSequence) :=
  honest_of_genuine fun _ _ _ _ h => h.1.1

theorem Scene.reach (hC : Reach (driver P) (lifetimeGuard.and inSequence) Dev.init C) :
    Scene P C.shared C.pending := by
  have hG := lifetime_honest (P := P)
  have hentries : ∀ s B e, (lifetimeGuard.and inSequence).env s B e → entries e := fun _ _ _ he => he.1
  refine ⟨Queued.reach hC, hG.counts hC, Ends.reach hG hC, Nodes.reach hC, ?_, Reports.reach hG hC,
    fun a ha j hj => submitter_lt hC ha hj, ownerW_le_one hC,
    fun j a ha hj => owner_of_schedules hentries hC ha hj⟩
  refine hC.invariant_with
    (fun s B => Queued P s B ∧ ∀ c, load (doneAtW c) B + load (lookW c) B ≤ 1) Handled ?_
    (by simp [Handled]) ?_ ?_
  · exact fun D hD => ⟨Queued.reach hD, doneAt_le_one (fun s B e he => (hentries s B e he).1) hD⟩
  · exact fun s R a x s' p hJ hI hg h => hI.exec hJ.2
      (fun j i c ha _ => (hg.1.2.2.2.2 j (by rw [ha]; rfl)).2.2.2.2.1 c) h
  · exact fun s R e s' p hJ hI he h => hI.occur hJ.1 he.1.1 h

theorem Lifetime.reach (hC : Reach (driver P) lifetimeGuard Dev.init C) :
    Lifetime C.shared C.pending := by
  have hseq : Reach (driver P) (lifetimeGuard.and inSequence) Dev.init C :=
    hC.strengthen (fun D hD a k x hk _ => unscheduled (G := lifetimeGuard.and inSequence)
      (fun _ _ _ he => he.1) hD hk) fun _ _ _ _ => trivial
  exact hseq.invariant_with (Scene P) Lifetime (fun _ hD => Scene.reach hD) init
    (fun _ _ _ _ _ _ hS hI hg h => hI.exec hS hg.2 hg.1 h)
    (fun _ _ _ _ _ hS hI he h => hI.occur hS he.1 h)

def genuineTest (C : Conf Dev Stmt) : Stmt → Bool
  | .irqClear c (.done j) => C.shared.engine c == .complete j ((C.shared.jobs j).submitCount c) &&
      C.threads.flatten.all (jobDoneW j c · == 0)
  | _ => true

theorem genuine_of_genuineTest (h : genuineTest C a) : genuineGuard.run C.shared C.pending a x := by
  rintro c j rfl
  simp only [genuineTest, Bool.and_eq_true, beq_iff_eq, List.all_eq_true] at h
  exact ⟨h.1, load_eq_zero _ fun b hb => h.2 b (Multiset.mem_coe.mp (Multiset.mem_of_mem_erase hb))⟩

end Rknpu

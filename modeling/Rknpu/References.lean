import Rknpu.Fences
import Rknpu.Flow

namespace Rknpu

open Interleaving

variable {P : Platform} {s s' : Dev} {B R : Multiset Stmt} {a : Stmt} {x : Int} {p : List Stmt}
  {j : JobId} {e : Occurrence}

/-- Jobs come by `rknpu_submit` alone. -/
def submitted (e : Occurrence) : Prop := ∀ args fence, e ≠ .schedule args fence

/-- Every job takes its domain, no job is both aborted and counted down on all its cores, and
`rknpu_irq_handler` ends a chunk only if the hardware has completed it. -/
def endsOnce : Guard Dev Stmt Int Occurrence where
  run s B a x :=
    Counts.Genuine s (B.erase a) a ∧
    (∀ j, a = .domainGet j → x = 0) ∧
    (∀ j, a = .jobAbort j → finished s j = 0) ∧
    (∀ j r c, a = .interruptDec j r c → (s.jobs j).interruptCount = 1 → .domainPut j ∉ s.log)
  env _ _ e := submitted e

theorem honest_of_endsOnce {G : Guard Dev Stmt Int Occurrence}
    (hG : ∀ s B a x, G.run s B a x → endsOnce.run s B a x) : Honest P G :=
  honest_of_genuine fun s B a x h => (hG s B a x h).1

/-- The thread that submitted job `j`, until it has called `rknpu_job_abort` or gone past it. -/
def tailW (j : JobId) : Stmt → Nat
  | .fenceIn i | .fenceWait i _ | .fenceOut i | .fenceFd i | .dispatch i | .submitAsync i
  | .submitWait i | .submitResult i | .waitEvent i _ | .waitElapsed i _ | .waitLastTask i _
  | .waitUnlink i _ | .waitStatus i _ | .waitFlags i | .waitReturn i _ | .jobAbort i =>
    if i = j then 1 else 0
  | _ => 0

/-- What `rknpu_job_schedule` still has to do for job `j`. -/
def scheduleW (j : JobId) : Stmt → Nat
  | .jobSchedule i | .selectCore i _ _ _ | .domainGet i | .enqueue i => if i = j then 1 else 0
  | _ => 0

/-- What follows `rknpu_job_schedule` in `rknpu_submit`. -/
def followW (j : JobId) : Stmt → Nat
  | .submitAsync i | .submitWait i => if i = j then 1 else 0
  | _ => 0

def enqueueW (j : JobId) : Stmt → Nat
  | .enqueue i => if i = j then 1 else 0
  | _ => 0

theorem exec_tailW (h : exec P a x s = some (s', p)) (j : JobId) :
    load (tailW j) (p : Multiset Stmt) + (if a = .jobAbort j then 1 else 0) ≤ tailW j a := by
  cases exec_flow h
  case jobCommit =>
    rw [load_commits_eq_zero fun _ => rfl]
    simp
  all_goals simp [tailW]

theorem exec_preW (h : exec P a x s = some (s', p)) (j : JobId) :
    load (preW j) (p : Multiset Stmt) + s'.log.count (.enqueue j) ≤
      preW j a + s.log.count (.enqueue j) := by
  have hle : load (preW j) (p : Multiset Stmt) ≤ preW j a := by
    cases exec_flow h
    case jobCommit =>
      rw [load_commits_eq_zero fun _ => rfl]
      exact Nat.zero_le _
    all_goals simp [preW]
  by_cases ha : a = .enqueue j
  · subst ha
    rw [(enqueue_effect h).2.1, (enqueue_effect h).2.2.2.1, List.count_append]
    simp [preW]
  · rw [count_enqueue ha h]
    omega

/-- Statements of `rknpu_job_schedule` stand before the rest of `rknpu_submit` in their thread. -/
def Follows (j : JobId) (t : List Stmt) : Prop :=
  ∀ u, u <:+ t → load (scheduleW j) (u : Multiset Stmt) ≤ load (followW j) (u : Multiset Stmt)

theorem exec_follows (h : exec P a x s = some (s', p)) (j : JobId) :
    ∀ v, v <:+ p → load (scheduleW j) (v : Multiset Stmt) ≤
      load (followW j) (v : Multiset Stmt) + scheduleW j a := by
  cases exec_flow h
  case jobCommit i l =>
    rintro v ⟨u, hu⟩
    have hz : load (scheduleW j) ((l.map (Stmt.subcoreCommit i ·) : List Stmt) : Multiset Stmt) = 0 :=
      load_commits_eq_zero (fun _ => rfl) l
    rw [← hu, ← Multiset.coe_add, load_add] at hz
    omega
  all_goals simp [List.suffix_cons_iff, scheduleW, followW]

theorem Follows.run {k : List Stmt} (hT : Follows j (a :: k)) (h : exec P a x s = some (s', p)) :
    Follows j (p ++ k) := by
  rintro u ⟨w, hw⟩
  have hk : load (scheduleW j) (k : Multiset Stmt) ≤ load (followW j) (k : Multiset Stmt) :=
    hT k (List.suffix_cons a k)
  rcases List.append_eq_append_iff.mp hw with ⟨v, rfl, rfl⟩ | ⟨v, rfl, rfl⟩
  · have hv := exec_follows h j v (List.suffix_append w v)
    have hak := hT (a :: k) List.suffix_rfl
    have ha : scheduleW j a = 0 ∨ followW j a = 0 := by
      cases a <;> simp [scheduleW, followW]
    simp only [load_coe_cons, ← Multiset.coe_add, load_add] at hak ⊢
    omega
  · exact hT u (List.suffix_cons_iff.mpr (.inr (List.suffix_append v u)))

theorem submitted_starts (he : submitted e) (h : occur P e s = some (s', p)) :
    (∀ j, load (tailW j) (p : Multiset Stmt) = 0 ∧ load (preW j) (p : Multiset Stmt) = 0) ∨
      (s'.jobNum = s.jobNum + 1 ∧ p = [.fenceIn s.jobNum]) := by
  cases e with
  | completion c =>
    obtain ⟨j, k, -, -, rfl, -⟩ := completion_effect h
    exact .inl (by simp [tailW, preW])
  | schedule args fence => exact absurd rfl (he args fence)
  | submit args =>
    simp only [occur, spawn] at h
    split at h <;> cases h
    · exact .inr ⟨rfl, rfl⟩
    · exact .inl (by simp)
  | _ =>
    simp only [occur] at h
    repeat' split at h
    all_goals
      cases h
      try exact .inl (by simp [tailW, preW])

theorem scheduleW_le_preW (j : JobId) (a : Stmt) : scheduleW j a ≤ preW j a := by
  cases a <;> simp [scheduleW, preW]

theorem enqueueW_le_scheduleW (j : JobId) (a : Stmt) : enqueueW j a ≤ scheduleW j a := by
  cases a <;> simp [enqueueW, scheduleW]

theorem load_scheduleW_starts (he : submitted e) (h : occur P e s = some (s', p)) (j : JobId) :
    load (scheduleW j) (p : Multiset Stmt) = 0 := by
  rcases submitted_starts he h with hp | ⟨-, rfl⟩
  · have hle := load_mono (f := scheduleW j) (B := (p : Multiset Stmt))
      fun a _ => scheduleW_le_preW j a
    rw [(hp j).2] at hle
    omega
  · simp [scheduleW]

theorem scheduleW_le {G : Guard Dev Stmt Int Occurrence} (hG : ∀ s B e, G.env s B e → submitted e)
    {C : Conf Dev Stmt} (hC : Reach (driver P) G Dev.init C) (j : JobId) :
    load (scheduleW j) C.pending ≤ load (followW j) C.pending := by
  refine load_le_of_threads (scheduleW j) fun t ht => ?_
  refine hC.threads_all (Follows j) (fun _ _ _ _ _ _ _ hT _ h => hT.run h) ?_ t ht t List.suffix_rfl
  intro s B e s' p he h u hu
  have hz := load_scheduleW_starts (hG s B e he) h j
  obtain ⟨v, rfl⟩ := hu
  rw [← Multiset.coe_add, load_add] at hz
  omega

/-- The thread of job `j` after `rknpu_job_schedule` was called. -/
def pastW (j : JobId) : Stmt → Nat
  | .submitAsync i | .submitWait i | .submitResult i | .waitEvent i _ | .waitElapsed i _
  | .waitLastTask i _ | .waitUnlink i _ | .waitStatus i _ | .waitFlags i | .waitReturn i _
  | .jobAbort i => if i = j then 1 else 0
  | _ => 0

theorem pastW_le_tailW (j : JobId) (a : Stmt) : pastW j a ≤ tailW j a := by
  cases a <;> simp [pastW, tailW]

theorem followW_le_pastW (j : JobId) (a : Stmt) : followW j a ≤ pastW j a := by
  cases a <;> simp [followW, pastW]

theorem exec_pastW (h : exec P a x s = some (s', p)) (j : JobId) :
    load (pastW j) (p : Multiset Stmt) ≤ pastW j a + load (scheduleW j) (p : Multiset Stmt) := by
  cases exec_flow h
  case jobCommit =>
    rw [load_commits_eq_zero fun _ => rfl]
    exact Nat.zero_le _
  all_goals simp [pastW, scheduleW]

/-- What `rknpu_job_schedule` has to do for a job ends in its enqueueing. -/
theorem exec_scheduleW (hx : ∀ j, a = .domainGet j → x = 0) (h : exec P a x s = some (s', p))
    (j : JobId) : scheduleW j a + s.log.count (.enqueue j) ≤
      load (scheduleW j) (p : Multiset Stmt) + s'.log.count (.enqueue j) := by
  have hlog : s.log.count (.enqueue j) ≤ s'.log.count (.enqueue j) :=
    (exec_log h).sublist.count_le _
  cases a with
  | jobSchedule i =>
    simp only [exec, jobSchedule, Option.some.injEq] at h
    split at h <;> cases h <;> simp [scheduleW]
  | selectCore i n t c =>
    obtain ⟨rfl, t', c', rfl, -⟩ | ⟨rfl, rfl⟩ := selectCore_effect h
    · simp [scheduleW]
    · rw [load_coe_cons, scheduleW, scheduleW]
      omega
  | domainGet i =>
    simp only [exec, domainGet, hx i rfl, if_true, Option.some.injEq] at h
    cases h
    rw [load_coe_cons, scheduleW, scheduleW]
    omega
  | enqueue i =>
    rw [(enqueue_effect h).2.2.2.1, List.count_append]
    by_cases hij : i = j <;> simp [scheduleW, hij]
    omega
  | _ => exact (Nat.zero_add _).le.trans (hlog.trans (Nat.le_add_left _ _))

theorem exec_enqueueW (ha : ∀ i, a ≠ .domainGet i) (h : exec P a x s = some (s', p)) (j : JobId) :
    load (enqueueW j) (p : Multiset Stmt) = 0 := by
  cases exec_flow h
  case jobCommit => exact load_commits_eq_zero (fun _ => rfl) _
  case domainGet i => exact absurd rfl (ha i)
  all_goals simp [enqueueW]

theorem exec_gets (hx : ∀ j, a = .domainGet j → x = 0) (h : exec P a x s = some (s', p))
    (j : JobId) : s'.log.count (.domainGet j) + enqueueW j a + s.log.count (.enqueue j) =
      s.log.count (.domainGet j) + load (enqueueW j) (p : Multiset Stmt) +
        s'.log.count (.enqueue j) := by
  cases a with
  | domainGet i =>
    simp only [exec, domainGet, hx i rfl, if_true, Option.some.injEq] at h
    cases h
    by_cases hij : i = j <;> simp [enqueueW, hij, Dev.record]
  | enqueue i =>
    rw [exec_count h rfl, (enqueue_effect h).2.1, (enqueue_effect h).2.2.2.1, List.count_append]
    by_cases hij : i = j <;> simp [enqueueW, hij]
    omega
  | pc g i c k =>
    rw [exec_count h (by cases g <;> rfl), exec_count h (by cases g <;> rfl),
      exec_enqueueW (by simp) h]
    simp [enqueueW]
  | _ =>
    rw [exec_count h rfl, exec_count h rfl, exec_enqueueW (by simp) h]
    simp [enqueueW]

theorem exec_puts (h : exec P a x s = some (s', p)) (j : JobId) :
    s'.log.count (.domainPut j) = s.log.count (.domainPut j) +
      ((if stage a = some (j, 1) then 1 else 0) + if a = .jobAbort j then 1 else 0) := by
  cases a with
  | donePut i r q =>
    cases h
    by_cases hij : i = j <;> simp [stage, hij, Dev.record]
  | jobAbort i =>
    cases h
    by_cases hij : i = j <;> simp [stage, hij, Dev.record]
  | pc g i c k =>
    rw [exec_count h (by cases g <;> rfl)]
    simp [stage]
  | _ =>
    rw [exec_count h rfl]
    simp [stage]

theorem untilW_mono {n m : Nat} (h : n ≤ m) (j : JobId) (a : Stmt) : untilW n j a ≤ untilW m j a := by
  unfold untilW
  cases stage a with
  | none => exact le_rfl
  | some q =>
    by_cases hq : q.1 = j ∧ q.2 ≤ n
    · simp [hq.1, hq.2, hq.2.trans h]
    · simp [hq]

/-- The references of every job: they go back by its completion or by its abortion. -/
structure References (s : Dev) (B : Multiset Stmt) : Prop where
  fresh : ∀ j, s.jobNum ≤ j → load (tailW j) B = 0
  got : ∀ j, s.log.count (.domainGet j) = load (enqueueW j) B + s.log.count (.enqueue j)
  past : ∀ j, 0 < load (pastW j) B → 0 < load (scheduleW j) B + s.log.count (.enqueue j)
  put : ∀ j,
    (s.log.count (.domainPut j) + load (untilW 1 j) B = finished s j ∧ load (tailW j) B ≤ 1) ∨
    (s.log.count (.domainPut j) = 1 ∧ s.log.count (.domainGet j) = 1 ∧ finished s j = 0 ∧
      load (tailW j) B = 0)

namespace References

theorem get_le_one (hQ : Queued P s B)
    (hgot : s.log.count (.domainGet j) = load (enqueueW j) B + s.log.count (.enqueue j)) :
    s.log.count (.domainGet j) ≤ 1 := by
  have hle := load_mono (f := enqueueW j) (g := preW j) (B := B) fun a _ =>
    (enqueueW_le_scheduleW j a).trans (scheduleW_le_preW j a)
  have := hQ.once j
  omega

theorem get_of_abort (hQ : Queued P s (.jobAbort j ::ₘ R))
    (hS : load (scheduleW j) (.jobAbort j ::ₘ R) ≤ load (followW j) (.jobAbort j ::ₘ R))
    (hI : References s (.jobAbort j ::ₘ R)) (hone : load (tailW j) (.jobAbort j ::ₘ R) ≤ 1) :
    s.log.count (.domainGet j) = 1 := by
  have hle := load_mono (f := followW j) (g := tailW j) (B := R) fun a _ =>
    (followW_le_pastW j a).trans (pastW_le_tailW j a)
  have hpast := hI.past j
  have hgot := hI.got j
  have hget := get_le_one hQ hgot
  simp only [load_cons, followW, pastW, tailW, if_pos] at hone hS hpast
  omega

theorem exec (hQ : Queued P s (a ::ₘ R)) (hC : Counts s (a ::ₘ R)) (hE : Ends s (a ::ₘ R))
    (hS : ∀ j, load (scheduleW j) (a ::ₘ R) ≤ load (followW j) (a ::ₘ R))
    (hI : References s (a ::ₘ R)) (hG : endsOnce.run s (a ::ₘ R) a x)
    (h : Rknpu.exec P a x s = some (s', p)) : References s' ((p : Multiset Stmt) + R) := by
  obtain ⟨-, hx, habort, hdec⟩ := hG
  have hgets : ∀ j, s.log.count (.domainGet j) ≤ s'.log.count (.domainGet j) := fun j =>
    (exec_log h).sublist.count_le _
  have hgot : ∀ j, s'.log.count (.domainGet j) =
      load (enqueueW j) ((p : Multiset Stmt) + R) + s'.log.count (.enqueue j) := fun j => by
    have := hI.got j
    have := exec_gets hx h j
    rw [load_cons] at *
    rw [load_add]
    omega
  refine ⟨fun j hj => ?_, hgot, fun j hj => ?_, fun j => ?_⟩
  · have := hI.fresh j (exec_jobNum h ▸ hj)
    have := exec_tailW h j
    rw [load_cons] at *
    rw [load_add]
    omega
  · have := hI.past j
    have := exec_pastW h j
    have := exec_scheduleW hx h j
    rw [load_cons, load_cons] at *
    rw [load_add] at *
    omega
  · have hput := exec_puts h j
    have htail := exec_tailW h j
    rcases hI.put j with ⟨hbal, hone⟩ | ⟨hput₁, hget, hfin, hnone⟩
    · have hleaves := leaves_exec (by omega) hQ hC hE.spent h ((Nat.add_comm _ _).trans hbal)
      rw [load_cons] at hone
      by_cases ha : a = .jobAbort j
      · subst ha
        have hget := hI.get_of_abort hQ (hS j) (by rwa [load_cons])
        have hfin := habort j rfl
        have hfin' := finished_exec hQ hC hE.spent h (j := j)
        have hget' := exec_count h (e := .domainGet j) rfl
        rw [fires_of_ne (by simp)] at hfin'
        rw [if_pos rfl] at htail hput
        right
        rw [load_add (tailW j), hget']
        exact ⟨by omega, hget, by omega, by omega⟩
      · left
        rw [if_neg ha] at htail hput
        rw [load_add (tailW j)]
        exact ⟨by omega, by omega⟩
    · right
      have hupto := hE.upto 1 (by omega) j
      have hget' := hgets j
      have hle := get_le_one (hQ.exec h) (hgot j)
      rw [load_cons] at hnone hupto
      have ha : a ≠ .jobAbort j := by
        rintro rfl
        rw [tailW, if_pos rfl] at hnone
        omega
      have hst : stage a ≠ some (j, 1) := fun hst => by
        simp [untilW, hst] at hupto
        omega
      have hfires : fires s j a = 0 := by
        cases a with
        | interruptDec i r c =>
          refine if_neg ?_
          rintro ⟨rfl, hone⟩
          exact hdec i r c rfl hone (List.count_pos_iff.mp (by omega))
        | _ => rfl
      have hfin' := finished_exec hQ hC hE.spent h (j := j)
      rw [if_neg ha, if_neg hst] at hput
      rw [if_neg ha] at htail
      rw [load_add (tailW j)]
      exact ⟨by omega, by omega, by omega, by omega⟩

theorem occur (hQ : Queued P s R) (hI : References s R) (he : submitted e)
    (h : Rknpu.occur P e s = some (s', p)) : References s' ((p : Multiset Stmt) + R) := by
  have hget : ∀ j, s'.log.count (.domainGet j) = s.log.count (.domainGet j) := fun j =>
    occur_count h (by simp)
  have hput : ∀ j, s'.log.count (.domainPut j) = s.log.count (.domainPut j) := fun j =>
    occur_count h (by simp)
  have henq : ∀ j, s'.log.count (.enqueue j) = s.log.count (.enqueue j) := fun j =>
    occur_count h (by simp)
  have hsched := load_scheduleW_starts he h
  have hgot : ∀ j, load (enqueueW j) (p : Multiset Stmt) = 0 := fun j => by
    have hle := load_mono (f := enqueueW j) (B := (p : Multiset Stmt))
      fun a _ => enqueueW_le_scheduleW j a
    rw [hsched] at hle
    omega
  have htail : ∀ j, load (tailW j) ((p : Multiset Stmt) + R) = load (tailW j) R ∨
      (j = s.jobNum ∧ s'.jobNum = s.jobNum + 1 ∧ load (tailW j) ((p : Multiset Stmt) + R) = 1) := by
    intro j
    rcases submitted_starts he h with hp | ⟨hn, rfl⟩
    · left
      rw [load_add, (hp j).1, Nat.zero_add]
    · by_cases hj : s.jobNum = j
      · subst hj
        simp [hn, tailW, hI.fresh s.jobNum le_rfl]
      · left
        simp [tailW, hj]
  refine ⟨fun j hj => ?_, fun j => ?_, fun j hj => ?_, fun j => ?_⟩
  · have hle := occur_jobNum h
    rcases htail j with hz | ⟨rfl, hn, -⟩
    · exact hz.trans (hI.fresh j (by omega))
    · omega
  · rw [hget, henq, load_add, hgot, Nat.zero_add]
    exact hI.got j
  · have hpast : load (pastW j) (p : Multiset Stmt) = 0 := by
      rcases submitted_starts he h with hp | ⟨-, rfl⟩
      · have hle := load_mono (f := pastW j) (B := (p : Multiset Stmt)) fun a _ => pastW_le_tailW j a
        rw [(hp j).1] at hle
        omega
      · simp [pastW]
    rw [load_add, hpast, Nat.zero_add] at hj
    rw [load_add, hsched, Nat.zero_add, henq]
    exact hI.past j hj
  · rw [hput, hget, finished_occur hQ h, occur_untilW 1 h]
    rcases htail j with hz | ⟨rfl, -, hone⟩
    · rw [hz]
      exact hI.put j
    · have hfresh := hQ.fresh s.jobNum le_rfl
      have hfin := finished_of_not_enqueued (s := s) (j := s.jobNum) (by omega)
      rcases hI.put s.jobNum with ⟨hbal, -⟩ | ⟨-, hgets, -⟩
      · exact .inl ⟨hbal, hone.le⟩
      · have hle := load_mono (f := enqueueW s.jobNum) (g := preW s.jobNum) (B := R) fun a _ =>
          (enqueueW_le_scheduleW _ a).trans (scheduleW_le_preW _ a)
        have := hI.got s.jobNum
        omega

theorem init : References Dev.init 0 := by
  constructor <;> simp [Dev.init, finished]

theorem reach {G : Guard Dev Stmt Int Occurrence}
    (hrun : ∀ s B a x, G.run s B a x → endsOnce.run s B a x)
    (henv : ∀ s B e, G.env s B e → submitted e) {C : Conf Dev Stmt}
    (hC : Reach (driver P) G Dev.init C) : References C.shared C.pending := by
  have hon : Honest P G := honest_of_endsOnce hrun
  refine hC.invariant_with
    (fun s B => Queued P s B ∧ Counts s B ∧ Ends s B ∧
      ∀ j, load (scheduleW j) B ≤ load (followW j) B) References ?_ init ?_ ?_
  · exact fun C hC => ⟨Queued.reach hC, hon.counts hC, Ends.reach hon hC, scheduleW_le henv hC⟩
  · exact fun s R a x s' p hJ hI hG h => hI.exec hJ.1 hJ.2.1 hJ.2.2.1 hJ.2.2.2 (hrun _ _ _ _ hG) h
  · exact fun s R e s' p hJ hI hG h => hI.occur hJ.1 (henv _ _ _ hG) h

/-- Nothing is given back that was not taken. -/
theorem put_le_get (hI : References s B) (j : JobId) :
    s.log.count (.domainPut j) ≤ s.log.count (.domainGet j) := by
  rcases hI.put j with ⟨hbal, -⟩ | ⟨hput, hget, -⟩
  · have hgot := hI.got j
    have hfin : finished s j ≤ s.log.count (.enqueue j) := by
      unfold finished
      split <;> omega
    omega
  · omega

/-- A job that is `RKNPU_JOB_DONE` has given its reference back. -/
theorem put_of_done (hE : Ends s B) (hI : References s B) (hd : (s.jobs j).done) :
    0 < s.log.count (.domainPut j) := by
  have hlog := (hE.flag j).mp hd
  have hdone := hE.done j
  have hone := finished_le_one s j
  have hle := load_mono (f := untilW 1 j) (g := untilW 2 j) (B := B)
    fun a _ => untilW_mono (by omega) j a
  rcases hI.put j with ⟨hbal, -⟩ | ⟨hput, -⟩ <;> omega

theorem put_of_stage {n : Nat} (hE : Ends s B) (hI : References s B) (ha : a ∈ B)
    (hst : stage a = some (j, n)) (hn : 2 ≤ n) : 0 < s.log.count (.domainPut j) := by
  obtain ⟨R, rfl⟩ := Multiset.exists_cons_of_mem ha
  have hupto := hE.upto 5 (by omega) j
  have hone := finished_le_one s j
  have hle := load_mono (f := untilW 1 j) (g := untilW 5 j) (B := R)
    fun b _ => untilW_mono (by omega) j b
  have h₅ : untilW 5 j a = 1 := by simp [untilW, hst, stage_le hst]
  have h₁ : untilW 1 j a = 0 := by
    have : ¬n ≤ 1 := by omega
    simp [untilW, hst, this]
  rw [load_cons] at hupto
  rcases hI.put j with ⟨hbal, -⟩ | ⟨hput, -⟩
  · rw [load_cons] at hbal
    omega
  · omega

end References

/-- Besides, `rknpu_submit` releases a job without an error, and `rknpu_job_timeout_clean`
hands one to its `cleanup_work`, only if it is `RKNPU_JOB_DONE`. -/
def returnsOnce : Guard Dev Stmt Int Occurrence :=
  endsOnce.and
    { run := fun s _ a _ => ∀ j, (a = .submitResult j ∧ (s.jobs j).ret = 0 ∨
        ∃ i, a = .cancelWork j i ∨ a = .drainWork j i) → (s.jobs j).done
      env := fun _ _ _ => True }

/-- Job `j` is given up before `rknpu_job_schedule`. -/
def Unscheduled (s : Dev) (B : Multiset Stmt) (j : JobId) : Prop :=
  j < s.jobNum ∧ load (preW j) B + s.log.count (.enqueue j) = 0

structure Returned (s : Dev) (B : Multiset Stmt) : Prop where
  aborting : ∀ j, .abortCores j ∈ B ∨ .abortReset j ∈ B → 0 < s.log.count (.domainPut j)
  work : ∀ j, s.workPending j → 0 < s.log.count (.domainPut j)
  freed : ∀ j, .jobFree j ∈ B ∨ .free j ∈ s.log →
    0 < s.log.count (.domainPut j) ∨ Unscheduled s B j

theorem Unscheduled.exec (hU : Unscheduled s (a ::ₘ R) j) (h : exec P a x s = some (s', p)) :
    Unscheduled s' ((p : Multiset Stmt) + R) j := by
  obtain ⟨hj, hz⟩ := hU
  have hpre := exec_preW h j
  rw [load_cons] at hz
  exact ⟨exec_jobNum h ▸ hj, by rw [load_add]; omega⟩

theorem Unscheduled.occur (he : submitted e) (hU : Unscheduled s R j)
    (h : Rknpu.occur P e s = some (s', p)) : Unscheduled s' ((p : Multiset Stmt) + R) j := by
  obtain ⟨hj, hz⟩ := hU
  refine ⟨hj.trans_le (occur_jobNum h), ?_⟩
  have hpre : load (preW j) (p : Multiset Stmt) = 0 := by
    rcases submitted_starts he h with hp | ⟨-, rfl⟩
    · exact (hp j).2
    · have hne : s.jobNum ≠ j := (Nat.ne_of_lt hj).symm
      simp [preW, hne]
  rw [load_add, hpre, Nat.zero_add, occur_count h (by simp)]
  exact hz

theorem Unscheduled.of_unfenced (hQ : Queued P s (a ::ₘ R)) (ha : a.unfenced = some j)
    (hj : .jobFree j ∈ p) (h : Rknpu.exec P a x s = some (s', p)) :
    Unscheduled s' ((p : Multiset Stmt) + R) j := by
  have hpre : preW j a = 1 := by
    cases a <;> simp [Stmt.unfenced] at ha <;> simp [preW, ha]
  have hp : load (preW j) (p : Multiset Stmt) = 0 := by
    cases exec_flow h <;> simp [Stmt.unfenced] at ha <;> simp at hj <;> simp [preW]
  have hcnt : s'.log.count (.enqueue j) = s.log.count (.enqueue j) :=
    exec_count h (by cases a <;> simp_all [Stmt.logs, Stmt.unfenced])
  have honce := hQ.once j
  rw [load_cons] at honce
  refine ⟨exec_jobNum h ▸ Nat.lt_of_not_le fun hc => ?_, by rw [load_add]; omega⟩
  have := hQ.fresh j hc
  rw [load_cons] at this
  omega

theorem exec_aborts (h : exec P a x s = some (s', p))
    (hj : .abortCores j ∈ (p : Multiset Stmt) + R ∨ .abortReset j ∈ (p : Multiset Stmt) + R)
    (hold : .abortCores j ∉ a ::ₘ R ∧ .abortReset j ∉ a ::ₘ R) : a = .jobAbort j := by
  simp only [Multiset.mem_cons, not_or, Multiset.mem_add, Multiset.mem_coe] at hj hold
  cases exec_flow h <;> simp_all

namespace Returned

theorem exec (hQ : Queued P s (a ::ₘ R)) (hE : Ends s (a ::ₘ R)) (hF : References s (a ::ₘ R))
    (hI : Returned s (a ::ₘ R)) (hG : returnsOnce.run s (a ::ₘ R) a x)
    (h : Rknpu.exec P a x s = some (s', p)) : Returned s' ((p : Multiset Stmt) + R) := by
  obtain ⟨-, hdone⟩ := hG
  have hself := Multiset.mem_cons_self a R
  have hgrow : ∀ j, 0 < s.log.count (.domainPut j) → 0 < s'.log.count (.domainPut j) := fun j hj =>
    hj.trans_le ((exec_log h).sublist.count_le _)
  refine ⟨fun j hj => ?_, fun j hj => ?_, fun j hj => ?_⟩
  · by_cases hold : .abortCores j ∈ a ::ₘ R ∨ .abortReset j ∈ a ::ₘ R
    · exact hgrow j (hI.aborting j hold)
    · obtain rfl := exec_aborts h (by simpa [not_or] using hj) (by simpa using hold)
      rw [exec_puts h, if_pos rfl]
      omega
  · rcases exec_work h hj with hw | ⟨q, rfl⟩ | ⟨i, hi⟩
    · exact hgrow j (hI.work j hw)
    · exact hgrow j (hF.put_of_stage hE hself rfl (by omega))
    · exact hgrow j (hF.put_of_done hE (hdone j (.inr ⟨i, hi⟩)))
  · by_cases hold : .jobFree j ∈ a ::ₘ R ∨ .free j ∈ s.log
    · exact (hI.freed j hold).imp (hgrow j) (·.exec h)
    · simp only [Multiset.mem_cons, not_or] at hold
      rcases hj with hj | hj
      · have hj := (Multiset.mem_add.mp hj).resolve_right hold.1.2
        rcases exec_frees h (Multiset.mem_coe.mp hj) with hr | rfl | ⟨ha, -⟩
        · exact .inl (hgrow j (hF.put_of_done hE (hdone j (.inl hr))))
        · exact .inl (hgrow j (hI.aborting j (.inr hself)))
        · exact .inr (.of_unfenced hQ ha (Multiset.mem_coe.mp hj) h)
      · obtain ⟨es, hlog, hes⟩ := exec_logs h
        rw [hlog, List.mem_append] at hj
        have hfree := hes _ (hj.resolve_left hold.2)
        cases a <;> simp [Stmt.logs] at hfree
        exact absurd (hfree ▸ rfl) hold.1.1

theorem occur (hI : Returned s R) (he : submitted e) (h : Rknpu.occur P e s = some (s', p)) :
    Returned s' ((p : Multiset Stmt) + R) := by
  have hput : ∀ j, s'.log.count (.domainPut j) = s.log.count (.domainPut j) := fun j =>
    occur_count h (by simp)
  -- of what the environment starts, only `cleanup_work` is about the end of a job
  have hstart : ∀ j, ∀ b ∈ p, b = .jobFree j ∨ b = .abortCores j ∨ b = .abortReset j →
      b = .jobFree j ∧ s.workPending j := fun j b hb hk => by
    rcases occur_starts h with hp | ⟨-, ⟨rfl, -⟩ | rfl⟩ | ⟨i, c, -, rfl⟩ | ⟨i, hw, rfl⟩
    · have hnone := (hp b hb).1
      rcases hk with rfl | rfl | rfl <;> cases hnone
    all_goals
      simp only [List.mem_singleton] at hb
      subst hb
      simp at hk
    subst hk
    exact ⟨rfl, hw⟩
  refine ⟨fun j hj => ?_, fun j hj => ?_, fun j hj => ?_⟩
  · rw [hput]
    refine hI.aborting j (hj.imp ?_ ?_) <;> intro hj
    · exact (Multiset.mem_add.mp hj).resolve_left fun hj => by
        have := (hstart j _ (Multiset.mem_coe.mp hj) (by simp)).1
        cases this
    · exact (Multiset.mem_add.mp hj).resolve_left fun hj => by
        have := (hstart j _ (Multiset.mem_coe.mp hj) (by simp)).1
        cases this
  · rw [hput]
    exact hI.work j (occur_work h hj)
  · rw [hput]
    rcases hj with hj | hj
    · rcases Multiset.mem_add.mp hj with hj | hj
      · exact .inl (hI.work j (hstart j _ (Multiset.mem_coe.mp hj) (by simp)).2)
      · exact (hI.freed j (.inl hj)).imp_right (·.occur he h)
    · rw [← List.count_pos_iff, occur_count h (by simp), List.count_pos_iff] at hj
      exact (hI.freed j (.inr hj)).imp_right (·.occur he h)

theorem init : Returned Dev.init 0 := by
  constructor <;> simp [Dev.init]

theorem reach {G : Guard Dev Stmt Int Occurrence}
    (hrun : ∀ s B a x, G.run s B a x → returnsOnce.run s B a x)
    (henv : ∀ s B e, G.env s B e → submitted e) {C : Conf Dev Stmt}
    (hC : Reach (driver P) G Dev.init C) : Returned C.shared C.pending := by
  have hends : ∀ s B a x, G.run s B a x → endsOnce.run s B a x := fun s B a x h =>
    (hrun s B a x h).1
  refine hC.invariant_with
    (fun s B => Queued P s B ∧ Ends s B ∧ References s B) Returned ?_ init ?_ ?_
  · exact fun C hC => ⟨Queued.reach hC, Ends.reach (honest_of_endsOnce hends) hC,
      References.reach hends henv hC⟩
  · exact fun s R a x s' p hJ hI hG h => hI.exec hJ.1 hJ.2.1 hJ.2.2 (hrun _ _ _ _ hG) h
  · exact fun s R e s' p _ hI hG h => hI.occur (henv _ _ _ hG) h

theorem put_eq_get (hQ : Queued P s B) (hF : References s B) (hI : Returned s B)
    (hj : .jobFree j ∈ B ∨ .free j ∈ s.log) :
    s.log.count (.domainPut j) = s.log.count (.domainGet j) := by
  have hle := hF.put_le_get j
  have hgot := hF.got j
  have hone := References.get_le_one hQ hgot
  rcases hI.freed j hj with hput | ⟨-, hz⟩
  · omega
  · have hle := load_mono (f := enqueueW j) (g := preW j) (B := B) fun a _ =>
      (enqueueW_le_scheduleW j a).trans (scheduleW_le_preW j a)
    omega

end Returned

end Rknpu

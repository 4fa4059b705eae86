import Rknpu.Blocking
import Rknpu.Timeline

namespace Rknpu

open Interleaving

variable {P : Platform} {G : Guard Dev Stmt Int Occurrence} {C : Conf Dev Stmt} {s s' : Dev}
  {B R : Multiset Stmt} {a : Stmt} {x : Int} {p : List Stmt} {j : JobId} {c : Nat}

/-- `rknpu_job_timeout_clean` takes nonblocking jobs of all cores, and each of them while a core
knows of it: those that it cancels from under no handler, those that it drains from no slot. -/
def recoveryGuard (P : Platform) : Guard Dev Stmt Int Occurrence where
  run s B a _ :=
    Counts.Genuine s (B.erase a) a ∧
    (∀ j, s.clears j a → s.nonblock j ∧ ∀ c < P.config.numIrqs, inMask (s.mask j) c) ∧
    (∀ j i, a = .cancel j i → ¬Detached s j) ∧
    (∀ j i c, a = .cancel j i → s.slot c = some j → load (handlerW j c) B = 0) ∧
    ∀ j i, a = .drain i → (s.todoList i).head? = some j → ∀ c, s.slot c ≠ some j
  env _ _ e := interrupts e

/-- Job `j` was taken off its lists and is about to be given to its `cleanup_work`. -/
def handW (j : JobId) : Stmt → Nat
  | .cancelWork i _ | .drainWork i _ => if i = j then 1 else 0
  | _ => 0

/-- What the statement gives to the `cleanup_work` of job `j`. -/
def Dev.hands (s : Dev) (j : JobId) : Stmt → List Bool
  | .cancelWork i _ | .drainWork i _ => if i = j then [(s.jobs j).workInit] else []
  | .doneAsync i _ => if i = j ∧ (s.jobs j).async then [(s.jobs j).workInit] else []
  | _ => []

/-- A recovery has taken the job before it was released from all of its cores. -/
structure Taken (s : Dev) (B : Multiset Stmt) (j : JobId) : Prop where
  detached : Detached s j
  enqueued : 0 < s.log.count (.enqueue j)
  unfinished : ∃ c, inMask (s.mask j) c ∧ s.log.count (.release c j) = 0
  once : load (handW j) B + (handedOver s.log j).length = 1

/-- Only the end of the job gives it to its `cleanup_work`. -/
structure Left (s : Dev) (B : Multiset Stmt) (j : JobId) : Prop where
  waiting : load (handW j) B = 0
  once : load (untilW 5 j) B + (handedOver s.log j).length ≤ finished s j

/-- Every job is given to its `cleanup_work` at most once, and that was initialised. -/
structure Recovery (s : Dev) (B : Multiset Stmt) : Prop where
  workInit : ∀ j, (s.jobs j).workInit = true ↔ s.nonblock j
  async : ∀ j, (s.jobs j).async → s.nonblock j
  waiting : ∀ j, 0 < load (handW j) B → s.nonblock j
  flags : ∀ j, ∀ b ∈ handedOver s.log j, b = true
  split : ∀ j, Taken s B j ∨ Left s B j

section Steps

theorem exec_handW (h : exec P a x s = some (s', p)) (hj : ¬s.clears j a) :
    load (handW j) (p : Multiset Stmt) = 0 := by
  by_cases ha : (∃ i n, a = .cancel i n) ∨ ∃ n, a = .drain n
  · obtain ⟨i, n, rfl⟩ | ⟨n, rfl⟩ := ha
    · have hij : i ≠ j := hj
      cases h
      simp [handW, hij]
    · simp only [exec, drain, Option.some.injEq] at h
      split at h <;> cases h
      · rfl
      · rename_i i rest hl
        have hij : i ≠ j := fun hij => hj (by simp [Dev.clears, hl, hij])
        simp [handW, hij]
  · push Not at ha
    cases exec_flow h with
    | cancel i n => exact absurd rfl (ha.1 i n)
    | drain n | drainEnd n => exact absurd rfl (ha.2 n)
    | jobCommit i l => exact load_commits_eq_zero (f := handW j) (fun _ => rfl) l
    | _ => simp [handW]

theorem clears_handW (h : exec P a x s = some (s', p)) (hj : s.clears j a) :
    handW j a = 0 ∧ load (handW j) (p : Multiset Stmt) = 1 := by
  cases a with
  | cancel i n =>
    obtain rfl : i = j := hj
    cases h
    simp [handW]
  | drain n =>
    simp only [exec, drain, Option.some.injEq] at h
    split at h <;> cases h
    · rename_i hl
      simp [Dev.clears, hl] at hj
    · rename_i i rest hl
      simp only [Dev.clears, hl, List.head?_cons, Option.some.injEq] at hj
      simp [handW, hj]
  | _ => exact absurd hj id

theorem exec_handedOver (h : exec P a x s = some (s', p)) (j : JobId) :
    handedOver s'.log j = handedOver s.log j ++ s.hands j a := by
  by_cases ha : (∃ i n, a = .cancelWork i n ∨ a = .drainWork i n) ∨ ∃ i q, a = .doneAsync i q
  · obtain ⟨i, n, rfl | rfl⟩ | ⟨i, q, rfl⟩ := ha
    · cases h
      by_cases hij : i = j <;> simp [Dev.scheduleWork, handedOver, Dev.hands, hij]
    · cases h
      by_cases hij : i = j <;> simp [Dev.scheduleWork, handedOver, Dev.hands, hij]
    · cases h
      by_cases hij : i = j
      · subst hij
        by_cases hasync : (s.jobs i).async <;>
          simp [Dev.scheduleWork, handedOver, Dev.hands, hasync]
      · split <;> simp [Dev.scheduleWork, handedOver, Dev.hands, hij]
  · push Not at ha
    have hz : s.hands j a = [] := by
      cases a with
      | cancelWork i n => exact absurd rfl (ha.1 i n).1
      | drainWork i n => exact absurd rfl (ha.1 i n).2
      | doneAsync i q => exact absurd rfl (ha.2 i q)
      | _ => rfl
    rw [hz, List.append_nil]
    refine exec_project (fun ev hev => ?_) h
    cases ev with
    | scheduleWork i b =>
      cases a with
      | cancelWork k n => exact absurd rfl (ha.1 k n).1
      | drainWork k n => exact absurd rfl (ha.1 k n).2
      | doneAsync k q => exact absurd rfl (ha.2 k q)
      | pc g => cases g <;> cases hev
      | _ => cases hev
    | _ => rfl

theorem hands_eq (ha : handW j a = 0) :
    (s.hands j a).length ≤ if stage a = some (j, 5) then 1 else 0 := by
  cases a with
  | cancelWork i n | drainWork i n =>
    have hij : i ≠ j := by simpa [handW] using ha
    simp [Dev.hands, hij]
  | doneAsync i q =>
    by_cases hij : i = j
    · simp only [Dev.hands, hij, true_and, stage, if_true]
      split <;> simp
    · simp [Dev.hands, hij]
  | _ => exact Nat.zero_le _

theorem occur_handW {e : Occurrence} (h : occur P e s = some (s', p)) (j : JobId) :
    load (handW j) ((p : Multiset Stmt) + R) = load (handW j) R := by
  have hz : load (handW j) (p : Multiset Stmt) = 0 := by
    cases occur_flow h <;> simp [handW]
  rw [load_add, hz, Nat.zero_add]

theorem exec_workInit (h : exec P a x s = some (s', p)) (j : JobId) :
    (s'.jobs j).workInit = (s.jobs j).workInit := by
  refine exec_get (f := .workInit) ?_ h
  cases a with
  | pc g i d n => cases g <;> rfl
  | _ => rfl

theorem exec_async_flag (h : exec P a x s = some (s', p)) (hj : (s'.jobs j).async) :
    (s.jobs j).async ∨ s.nonblock j := by
  by_cases ha : a.writes j .async
  · cases a with
    | dispatch i =>
      obtain rfl : i = j := by simpa [Stmt.writes] using ha
      simp only [exec, dispatch, Option.some.injEq] at h
      split at h <;> cases h
      · exact .inr ‹_›
      · exact .inl hj
    | pc g i d n => cases g <;> cases ha
    | _ => cases ha
  · have hget : (s'.jobs j).async = (s.jobs j).async :=
      exec_get (f := .async) (by simpa using ha) h
    exact .inl (hget ▸ hj)

theorem occur_marks {e : Occurrence} (h : occur P e s = some (s', p))
    (hw : (s.jobs j).workInit = true ↔ s.nonblock j) (ha : (s.jobs j).async → s.nonblock j) :
    ((s'.jobs j).workInit = true ↔ s'.nonblock j) ∧ ((s'.jobs j).async → s'.nonblock j) := by
  by_cases hnew : e.spawns ∧ j = s.jobNum
  · obtain ⟨he, rfl⟩ := hnew
    cases e <;> simp only [Occurrence.spawns, Bool.false_eq_true] at he
    case submit args =>
      simp only [occur, spawn] at h
      split at h <;> cases h
      · simp [Dev.nonblock, jobAlloc]
      · exact ⟨hw, ha⟩
    case schedule args fence =>
      cases h
      simp [Dev.nonblock, jobAlloc]
  · have hne : e.spawns → j ≠ s.jobNum := fun he hn => hnew ⟨he, hn⟩
    have hflags : (s'.jobs j).args.flags = (s.jobs j).args.flags :=
      congrArg Prod.fst (occur_get (f := .args) hne (by simp) h)
    have hwork : (s'.jobs j).workInit = (s.jobs j).workInit :=
      occur_get (f := .workInit) hne (by simp) h
    have hasync : (s'.jobs j).async = (s.jobs j).async :=
      occur_get (f := .async) hne (by simp) h
    rw [Dev.nonblock, Submit.nonblock, hwork, hasync, hflags]
    exact ⟨hw, ha⟩

end Steps

theorem Detached.exec (hj : a ≠ .enqueue j) (hD : Detached s j)
    (h : exec P a x s = some (s', p)) : Detached s' j := by
  constructor
  · intro c hm
    by_cases ha : ∃ i, a = .enqueue i
    · obtain ⟨i, rfl⟩ := ha
      obtain ⟨-, -, -, -, ht⟩ := enqueue_effect h
      rw [ht] at hm
      split at hm
      · rcases List.mem_append.mp hm with hm | hm
        · exact hD.todo c hm
        · exact absurd (by rw [List.mem_singleton.mp hm]) hj
      · exact hD.todo c hm
    · push Not at ha
      exact hD.todo c ((exec_todo ha h c).mem hm)
  · intro c hc
    by_cases ha : a = .pickUp c
    · subst ha
      obtain ⟨rfl, -⟩ | ⟨i, rest, -, ht, -, -, hs, -⟩ := pickUp_effect h
      · exact hD.slot c hc
      · rw [hs, Function.update_self, Option.some.injEq] at hc
        exact hD.todo c (by rw [ht, hc]; exact List.mem_cons_self)
    · exact hD.slot c (slot_exec ha h hc)

theorem clears_detached (hQ : Queued P s (a ::ₘ R)) (hN : Nodes P s (a ::ₘ R))
    (hslot : ∀ i, a = .drain i → ∀ c, s.slot c ≠ some j) (hj : s.clears j a)
    (h : exec P a x s = some (s', p)) : Detached s' j := by
  obtain ⟨ht, -, -⟩ := clears_effect hj h
  constructor
  · intro c hm
    rw [ht] at hm
    split at hm
    · exact not_mem_erase hQ j c hm
    · rename_i hn
      have hneeds : s.needs P c j := by
        have hlisted := hQ.listed j c
        have hpos := List.count_pos_iff.mpr hm
        split at hlisted
        · assumption
        · omega
      have hlt := of_decide_eq_true (Bool.and_eq_true_iff.mp hneeds).1
      exact hn ⟨hlt, by simp [hN.linked j c hm]⟩
  · intro c hc
    cases a with
    | cancel i n =>
      obtain rfl : i = j := hj
      rw [cancel_slot h] at hc
      split at hc
      · cases hc
      · rename_i hn
        have hneeds := hQ.needs_of_picked (hQ.slots i c hc)
        exact hn ⟨of_decide_eq_true (Bool.and_eq_true_iff.mp hneeds).1, hc⟩
    | drain n =>
      rw [exec_slot rfl h] at hc
      exact hslot n rfl c hc
    | _ => exact hj

/-- A core that knows of the job has not released it. -/
theorem unreleased (hQ : Queued P s B) (hC : Counts s B) (hD : ¬Detached s j) :
    0 < s.log.count (.enqueue j) ∧ ∃ c, inMask (s.mask j) c ∧ s.log.count (.release c j) = 0 := by
  have hknown : ∃ c, j ∈ s.todoList c ∨ s.slot c = some j := by
    by_contra hn
    push Not at hn
    exact hD ⟨fun c => (hn c).1, fun c => (hn c).2⟩
  obtain ⟨c, hc | hc⟩ := hknown
  · have hlisted := hQ.listed j c
    have honce := hQ.once j
    have hheld := hC.held j c
    have hpos := List.count_pos_iff.mpr hc
    split at hlisted
    · rename_i hn
      exact ⟨by omega, c, (Bool.and_eq_true_iff.mp hn).2, by omega⟩
    · omega
  · have hpick := hQ.slots j c hc
    have hlisted := hQ.listed j c
    have honce := hQ.once j
    have hheld := hC.held j c
    have hn := hQ.needs_of_picked hpick
    rw [if_pos hc] at hheld
    rw [if_pos hn] at hlisted
    exact ⟨by omega, c, (Bool.and_eq_true_iff.mp hn).2, by omega⟩

theorem not_finished (hQ : Queued P s B) (hC : Counts s B)
    (hc : inMask (s.mask j) c ∧ s.log.count (.release c j) = 0) : finished s j = 0 := by
  by_contra hn
  have := released_of_finished hQ hC (Nat.pos_of_ne_zero hn) hc.1
  omega

theorem not_detached_of_clears (hG : (recoveryGuard P).run s B a x) (hj : s.clears j a) :
    ¬Detached s j := by
  cases a with
  | cancel i n =>
    obtain rfl : i = j := hj
    exact hG.2.2.1 i n rfl
  | drain n => exact fun hD => hD.todo n (List.mem_of_head? hj)
  | _ => exact absurd hj id

theorem Taken.exec (hQ : Queued P s (a ::ₘ R)) (hC : Counts s (a ::ₘ R))
    (hE : Ends s (a ::ₘ R)) (hH : Handled s (a ::ₘ R))
    (hG : (recoveryGuard P).run s (a ::ₘ R) a x) (hT : Taken s (a ::ₘ R) j)
    (h : exec P a x s = some (s', p)) : Taken s' ((p : Multiset Stmt) + R) j := by
  have hlog := (exec_log h).sublist
  have hne : a ≠ .enqueue j := by
    rintro rfl
    have := hQ.not_enqueued (j := j) (by simp [preW])
    have := hT.enqueued
    omega
  refine ⟨hT.detached.exec hne h, hT.enqueued.trans_le (hlog.count_le _), ?_, ?_⟩
  · obtain ⟨c, hc, hrel⟩ := hT.unfinished
    refine ⟨c, by rwa [hQ.mask_exec h hT.enqueued], ?_⟩
    rw [exec_count h, hrel]
    by_contra hl
    cases a with
    | releaseCore i r d =>
      simp only [Stmt.logs, Bool.not_eq_false, Bool.and_eq_true, beq_iff_eq] at hl
      obtain ⟨rfl, rfl⟩ := hl
      exact hT.detached.slot d (hH i d (by rw [load_cons, handlerW, if_pos ⟨rfl, rfl⟩]; omega)).1
    | pc g i d n => cases g <;> simp [Stmt.logs] at hl
    | _ => simp [Stmt.logs] at hl
  · have honce := hT.once
    have hnew := exec_handW h fun hj => not_detached_of_clears hG hj hT.detached
    rw [load_cons] at honce
    rw [load_add, hnew, exec_handedOver h, List.length_append]
    by_cases hw : handW j a = 0
    · have hupto := hE.upto 5 (by omega) j
      obtain ⟨c, hc⟩ := hT.unfinished
      rw [not_finished hQ hC hc, load_cons] at hupto
      have hle := hands_eq (s := s) hw
      split at hle
      · rename_i hst
        simp [untilW, hst] at hupto
      · omega
    · have hone : handW j a = 1 ∧ (s.hands j a).length = 1 := by
        cases a with
        | cancelWork i n | drainWork i n =>
          have hij : i = j := by simpa [handW] using hw
          simp [handW, Dev.hands, hij]
        | _ => exact absurd rfl hw
      omega

theorem Left.exec (hQ : Queued P s (a ::ₘ R)) (hC : Counts s (a ::ₘ R))
    (hE : Ends s (a ::ₘ R)) (hN : Nodes P s (a ::ₘ R))
    (hG : (recoveryGuard P).run s (a ::ₘ R) a x) (hL : Left s (a ::ₘ R) j)
    (h : exec P a x s = some (s', p)) :
    Taken s' ((p : Multiset Stmt) + R) j ∨ Left s' ((p : Multiset Stmt) + R) j := by
  have hwait := hL.waiting
  have honce := hL.once
  rw [load_cons] at hwait
  have hhand := exec_handedOver h j
  have hlog := (exec_log h).sublist
  by_cases hj : s.clears j a
  · left
    obtain ⟨henq, c, hc⟩ := unreleased hQ hC (not_detached_of_clears hG hj)
    have hnew := (clears_handW h hj).2
    have hno : s.hands j a = [] := by
      cases a with
      | cancel | drain => rfl
      | _ => exact absurd hj id
    rw [not_finished hQ hC hc] at honce
    refine ⟨clears_detached hQ hN ?_ hj h, henq.trans_le (hlog.count_le _), ⟨c, ?_⟩, ?_⟩
    · rintro n rfl
      exact hG.2.2.2.2 j n rfl hj
    · rw [hQ.mask_exec h henq, exec_count h, hc.2]
      · exact ⟨hc.1, rfl⟩
      · cases a with
        | cancel | drain => rfl
        | _ => exact absurd hj id
    · rw [load_add, hnew, hhand, hno, List.append_nil]
      omega
  · right
    have hle := leaves_exec (n := 5) (j := j) (by omega) hQ hC hE.spent h
      (Nat.add_sub_cancel' (hE.upto 5 (by omega) j))
    have hhands := hands_eq (s := s) (j := j) (a := a) (by omega)
    refine ⟨by rw [load_add, exec_handW h hj]; omega, ?_⟩
    rw [hhand, List.length_append]
    omega

namespace Recovery

theorem exec (hQ : Queued P s (a ::ₘ R)) (hC : Counts s (a ::ₘ R)) (hE : Ends s (a ::ₘ R))
    (hN : Nodes P s (a ::ₘ R)) (hH : Handled s (a ::ₘ R)) (hI : Recovery s (a ::ₘ R))
    (hG : (recoveryGuard P).run s (a ::ₘ R) a x) (h : Rknpu.exec P a x s = some (s', p)) :
    Recovery s' ((p : Multiset Stmt) + R) := by
  constructor
  case workInit =>
    intro j
    rw [exec_workInit h, Dev.nonblock, exec_nonblock h]
    exact hI.workInit j
  case async =>
    intro j hj
    exact nonblock_exec h ((exec_async_flag h hj).elim (hI.async j) id)
  case waiting =>
    intro j hpos
    refine nonblock_exec h ?_
    by_cases hj : s.clears j a
    · exact (hG.2.1 j hj).1
    · rw [load_add, exec_handW h hj, Nat.zero_add] at hpos
      exact hI.waiting j (by rw [load_cons]; omega)
  case flags =>
    intro j b hb
    rw [exec_handedOver h] at hb
    rcases List.mem_append.mp hb with hb | hb
    · exact hI.flags j b hb
    · have hwork : ∀ i n, a = .cancelWork i n ∨ a = .drainWork i n → s.nonblock i := by
        rintro i n (rfl | rfl) <;>
          exact hI.waiting i (by rw [load_cons, handW, if_pos rfl]; omega)
      cases a with
      | cancelWork i n | drainWork i n =>
        simp only [Dev.hands] at hb
        split at hb
        · rename_i hij
          subst hij
          rw [List.mem_singleton.mp hb]
          exact (hI.workInit i).mpr (hwork i n (by simp))
        · cases hb
      | doneAsync i q =>
        simp only [Dev.hands] at hb
        split at hb
        · rename_i hij
          obtain ⟨rfl, hasync⟩ := hij
          rw [List.mem_singleton.mp hb]
          exact (hI.workInit i).mpr (hI.async i hasync)
        · cases hb
      | _ => cases hb
  case split =>
    intro j
    rcases hI.split j with hT | hL
    · exact .inl (hT.exec hQ hC hE hH hG h)
    · exact hL.exec hQ hC hE hN hG h

theorem occur {e : Occurrence} (hQ : Queued P s R) (hI : Recovery s R)
    (h : Rknpu.occur P e s = some (s', p)) : Recovery s' ((p : Multiset Stmt) + R) := by
  have hmarks := fun j => occur_marks (j := j) h (hI.workInit j) (hI.async j)
  have hhand : ∀ j, handedOver s'.log j = handedOver s.log j := fun j =>
    occur_project (fun _ _ _ => rfl) h
  have hcnt : ∀ ev : Event, (∀ c j k, ev ≠ .complete c j k) → s'.log.count ev = s.log.count ev :=
    fun ev hev => occur_count h hev
  refine ⟨fun j => (hmarks j).1, fun j => (hmarks j).2, fun j hpos => ?_, fun j b hb => ?_,
    fun j => ?_⟩
  · rw [occur_handW h] at hpos
    rcases hI.split j with hT | hL
    · exact (same_occur (hQ.lt_jobNum hT.enqueued) h).nonblock.mpr (hI.waiting j hpos)
    · exact absurd hL.waiting hpos.ne'
  · exact hI.flags j b (hhand j ▸ hb)
  · refine (hI.split j).imp (fun hT => ⟨⟨fun c => ?_, fun c => ?_⟩, ?_, ?_, ?_⟩) fun hL => ⟨?_, ?_⟩
    · rw [occur_todo h]
      exact hT.detached.todo c
    · rw [occur_slot h]
      exact hT.detached.slot c
    · rw [hcnt _ (by simp)]
      exact hT.enqueued
    · obtain ⟨c, hc, hrel⟩ := hT.unfinished
      exact ⟨c, by rwa [hQ.mask_occur h hT.enqueued], by rw [hcnt _ (by simp), hrel]⟩
    · rw [occur_handW h, hhand]
      exact hT.once
    · rw [occur_handW h]
      exact hL.waiting
    · rw [occur_untilW 5 h, finished_occur hQ h, hhand]
      exact hL.once

theorem init : Recovery Dev.init 0 := by
  constructor <;> simp [Dev.init, jobAlloc, emptySubmit, Dev.nonblock, Submit.nonblock, handedOver]
  exact fun j => .inr ⟨rfl, by simp [handedOver]⟩

theorem handled_reach (hC : Reach (driver P) (recoveryGuard P) Dev.init C) :
    Handled C.shared C.pending := by
  refine hC.invariant_with
    (fun s B => Queued P s B ∧ ∀ c, load (doneAtW c) B + load (lookW c) B ≤ 1) Handled ?_
    (by simp [Handled]) ?_ ?_
  · exact fun D hD => ⟨Queued.reach hD, doneAt_le_one (fun _ _ _ he => he) hD⟩
  · exact fun s R a x s' p hJ hI hg h => hI.exec hJ.2 hg.2.2.2.1 h
  · exact fun s R e s' p hJ hI he h => hI.occur hJ.1 he h

theorem reach (hC : Reach (driver P) (recoveryGuard P) Dev.init C) :
    Recovery C.shared C.pending := by
  have hG : Honest P (recoveryGuard P) := honest_of_genuine fun _ _ _ _ h => h.1
  refine hC.invariant_with (fun s B => Queued P s B ∧ Counts s B ∧ Ends s B ∧ Nodes P s B ∧
    Handled s B) Recovery ?_ init ?_ ?_
  · exact fun D hD => ⟨Queued.reach hD, hG.counts hD, Ends.reach hG hD, Nodes.reach hD,
      handled_reach hD⟩
  · exact fun s R a x s' p hJ hI hg h => hI.exec hJ.1 hJ.2.1 hJ.2.2.1 hJ.2.2.2.1 hJ.2.2.2.2 hg h
  · exact fun s R e s' p hJ hI _ h => hI.occur hJ.1 h

end Recovery

/-- Where the list nodes are accessed, they are initialised. -/
def Initialised (l : List Event) : Prop :=
  ∀ c j n, .listEmpty c j n ∈ l ∨ .listDel c j n ∈ l → n = .linked ∨ n = .self

theorem initialised_exec (hQ : Queued P s (a ::ₘ R)) (hN : Nodes P s (a ::ₘ R))
    (hC : Counts s (a ::ₘ R)) (hG : (recoveryGuard P).run s (a ::ₘ R) a x)
    (hI : Initialised s.log) (h : exec P a x s = some (s', p)) : Initialised s'.log := by
  by_cases hcl : ∃ i, s.clears i a
  · obtain ⟨i, hi⟩ := hcl
    obtain ⟨-, -, hl⟩ := clears_effect hi h
    obtain ⟨hblock, hall⟩ := hG.2.1 i hi
    obtain ⟨henq, -⟩ := unreleased hQ hC (not_detached_of_clears hG hi)
    have hnode : ∀ c < P.config.numIrqs, (s.jobs i).head c = .linked ∨ (s.jobs i).head c = .self := by
      intro c hc
      have hused := hN.used i c henq (by simp [Dev.needs, hc, hall c hc])
      have hunlinked := hN.unlinked i c
      cases hh : (s.jobs i).head c with
      | zeroed => exact absurd hh hused
      | poisoned => exact absurd hblock (by simp [Dev.nonblock, hunlinked hh])
      | linked => exact .inl rfl
      | self => exact .inr rfl
    have hev : ∀ ev ∈ (List.range P.config.numIrqs).flatMap (unlinkEvents (s.jobs i) i),
        ∃ c < P.config.numIrqs, ev = .listEmpty c i ((s.jobs i).head c) ∨
          ev = .listDel c i ((s.jobs i).head c) := by
      intro ev hev
      obtain ⟨c, hc, hev⟩ := List.mem_flatMap.mp hev
      refine ⟨c, List.mem_range.mp hc, ?_⟩
      unfold unlinkEvents at hev
      split at hev <;> simp_all
    intro c j n hm
    rw [hl, List.mem_append, List.mem_append] at hm
    rcases hm with (hm | hm) | (hm | hm)
    · exact hI c j n (.inl hm)
    · obtain ⟨d, hd, he | he⟩ := hev _ hm <;> cases he
      exact hnode c hd
    · exact hI c j n (.inr hm)
    · obtain ⟨d, hd, he | he⟩ := hev _ hm <;> cases he
      exact hnode c hd
  · intro c j n hm
    by_cases hd : ∃ k, a = .drain k
    · obtain ⟨k, rfl⟩ := hd
      simp only [exec, drain, Option.some.injEq] at h
      split at h <;> cases h
      · exact hI c j n hm
      · rename_i i rest hl
        exact absurd ⟨i, by simp [Dev.clears, hl]⟩ hcl
    obtain ⟨es, hl, hes⟩ := exec_logs h
    have hnone : .listEmpty c j n ∉ es ∧ .listDel c j n ∉ es := by
      constructor <;>
      · intro hm
        have hlogs := hes _ hm
        cases a with
        | cancel i k => exact hcl ⟨i, rfl⟩
        | drain k => exact hd ⟨k, rfl⟩
        | pc g => cases g <;> cases hlogs
        | _ => cases hlogs
    rw [hl, List.mem_append, List.mem_append] at hm
    exact hI c j n (hm.imp (Or.resolve_right · hnone.1) (Or.resolve_right · hnone.2))

/-- A recovery leaves nothing dangling: what it hands over is handed over once, is initialised
for that, and no core knows of it any more; and it accesses only list nodes that are initialised. -/
theorem recovery_clean (hC : Reach (driver P) (recoveryGuard P) Dev.init C) :
    (∀ j, handedOver C.shared.log j = [] ∨
      handedOver C.shared.log j = [true] ∧ Detached C.shared j) ∧ Initialised C.shared.log := by
  have hG : Honest P (recoveryGuard P) := honest_of_genuine fun _ _ _ _ h => h.1
  refine ⟨fun j => ?_, ?_⟩
  · have hI := Recovery.reach hC
    have hflags := hI.flags j
    rcases hI.split j with hT | hL
    · have honce := hT.once
      rcases hh : handedOver C.shared.log j with _ | ⟨b, _ | ⟨b', l⟩⟩
      · exact .inl rfl
      · rw [hh] at hflags
        exact .inr ⟨by rw [hflags b (by simp)], hT.detached⟩
      · rw [hh, List.length_cons, List.length_cons] at honce
        omega
    · have honce := hL.once
      have hone := finished_le_one C.shared j
      rcases hh : handedOver C.shared.log j with _ | ⟨b, _ | ⟨b', l⟩⟩
      · exact .inl rfl
      · rw [hh] at hflags
        rw [hh, List.length_singleton] at honce
        exact .inr ⟨by rw [hflags b (by simp)],
          detached_of_finished (Queued.reach hC) (hG.counts hC) (by omega)⟩
      · rw [hh, List.length_cons, List.length_cons] at honce
        omega
  · refine hC.invariant_with (fun s B => Queued P s B ∧ Nodes P s B ∧ Counts s B)
      (fun s _ => Initialised s.log) ?_ (by simp [Initialised, Dev.init]) ?_ ?_
    · exact fun D hD => ⟨Queued.reach hD, Nodes.reach hD, hG.counts hD⟩
    · exact fun s R a x s' p hJ hI hg h => initialised_exec hJ.1 hJ.2.1 hJ.2.2 hg hI h
    · intro s R e s' p _ hI _ h c j n hm
      obtain ⟨es, hl, hes⟩ := occur_logs h
      have hnone : .listEmpty c j n ∉ es ∧ .listDel c j n ∉ es := by
        constructor <;>
        · intro hm
          obtain ⟨_, _, _, he⟩ := hes _ hm
          cases he
      rw [hl, List.mem_append, List.mem_append] at hm
      exact hI c j n (hm.imp (Or.resolve_right · hnone.1) (Or.resolve_right · hnone.2))

/-- A nonblocking job for core 0 is overdue when `rknpu_job_timeout_clean` is called, of which
`n` statements are run. -/
def recoveryRun (n : Nat) : List (Label Int Occurrence) :=
  Label.env (Occurrence.submit (oneTask 3 1)) :: List.replicate 26 (Label.run 0 0) ++
    [Label.env (Occurrence.tick 2000000), .env (.timeoutClean 1)] ++
    List.replicate n (Label.run 2 0)

def recoveryTest (C : Conf Dev Stmt) : Stmt → Bool
  | .cancel j _ => C.shared.slot 0 == some j && (C.shared.jobs j).args.nonblock &&
      C.shared.mask j == 1 && C.threads.flatten.all fun
        | .irqStatus _ _ | .irqCheck _ _ _ | .irqClear _ _ | .jobDone _ _ _ | .releaseCore _ _ _ => false
        | _ => true
  | .drain i => (C.shared.todoList i).isEmpty
  | a => !a.acknowledges

theorem recoveryGuard_of_recoveryTest (h : recoveryTest C a) :
    (recoveryGuard (board rk356xConfig)).run C.shared C.pending a x := by
  refine ⟨?_, fun j hj => ?_, ?_, ?_, ?_⟩
  · rintro c j rfl
    simp [recoveryTest, Stmt.acknowledges] at h
  · cases a with
    | cancel i n =>
      obtain rfl : i = j := hj
      simp only [recoveryTest, Bool.and_eq_true, beq_iff_eq] at h
      refine ⟨h.1.1.2, fun c hc => ?_⟩
      obtain rfl : c = 0 := Nat.lt_one_iff.mp hc
      rw [h.1.2]
      rfl
    | drain n => simp_all [recoveryTest, Dev.clears]
    | _ => exact absurd hj id
  · rintro j i rfl hD
    simp only [recoveryTest, Bool.and_eq_true, beq_iff_eq] at h
    exact hD.slot 0 h.1.1.1
  · rintro j i c rfl -
    simp only [recoveryTest, Bool.and_eq_true, List.all_eq_true] at h
    refine load_eq_zero _ fun b hb => ?_
    have hidle := h.2 b (Multiset.mem_coe.mp hb)
    cases b <;> first | rfl | cases hidle
  · rintro j i rfl hj
    simp_all [recoveryTest]

theorem recovery_clean_recoveryRun : ∃ C : Conf Dev Stmt,
    handedOver C.shared.log 0 = [true] ∧ .listEmpty 0 0 .self ∈ C.shared.log ∧
      Detached C.shared 0 := by
  obtain ⟨C, hC, ht⟩ := Reach.exists_of_steps (driver (board rk356xConfig))
    (recoveryGuard (board rk356xConfig)) Dev.init (recoveryRun 9) (fun C a _ => recoveryTest C a)
    (fun C => handedOver C.shared.log 0 == [true] && C.shared.log.contains (.listEmpty 0 0 .self))
    (fun _ _ _ => recoveryGuard_of_recoveryTest)
    (fun e he _ _ c hc => by
      subst hc
      simp [recoveryRun] at he)
    (by decide +kernel)
  simp only [Bool.and_eq_true, beq_iff_eq, List.contains_iff_mem] at ht
  have hclean := (recovery_clean hC).1 0
  rw [ht.1] at hclean
  exact ⟨C, ht.1, ht.2, (hclean.resolve_left (by simp)).2⟩

/-- The nodes of a job for the cores that it does not use are never initialised. -/
theorem recovery_zeroed : ¬∀ (P : Platform) (C : Conf Dev Stmt),
    Reach (driver P) (genuineGuard.and (.events interrupts)) Dev.init C →
      (∀ j, handedOver C.shared.log j = [] ∨
        handedOver C.shared.log j = [true] ∧ Detached C.shared j) ∧ Initialised C.shared.log := by
  intro hall
  obtain ⟨C, hC, ht⟩ := Reach.exists_of_steps (driver (board rk3588Config))
    (genuineGuard.and (.events interrupts)) Dev.init (recoveryRun 8) (fun _ a _ => !a.acknowledges)
    (fun C => C.shared.log.contains (.listDel 1 0 .zeroed))
    (fun C a x h => ⟨fun c j ha => by simp [ha, Stmt.acknowledges] at h, trivial⟩)
    (fun e he _ _ => ⟨trivial, fun c hc => by
      subst hc
      simp [recoveryRun] at he⟩)
    (by decide +kernel)
  have hnode := (hall _ C hC).2 1 0 .zeroed (.inr (by simpa using ht))
  simp at hnode

end Rknpu

import Rknpu.Coverage
import Rknpu.Handlers
import Rknpu.Interleaving.Noted

namespace Rknpu

open Interleaving

/-- Whenever a handler compares a status without any of the bits it looks at, the job has been
given the mask of a task on this core. -/
def maskedGuard : Guard Dev Stmt Int Occurrence where
  run s _ a _ := ∀ j c status, a = .irqCheck j c status → fuzzStatus status = 0 →
    (s.jobs j).intMask c ≠ 0
  env _ _ _ := True

/-- The hardware has completed the current chunk of job `j`, and nothing has been done about it. -/
def Ready (s : Dev) (B : Multiset Stmt) (c : Nat) (j : JobId) : Prop :=
  s.engine c = .complete j ((s.jobs j).submitCount c) ∧ load (jobDoneW j c) B = 0

/-- A status has bits only for a chunk that is complete, and a handler that has read them is
at that chunk. -/
structure Irqs (s : Dev) (B : Multiset Stmt) : Prop where
  bits : ∀ c, s.status c &&& ~~~intClearAll = 0
  seen : ∀ c, s.status c ≠ 0 → ∃ j, Ready s B c j
  entered : ∀ j c, .irqStatus j c ∈ B → s.slot c = some j
  read : ∀ j c status, .irqCheck j c status ∈ B → status ≠ 0 → Ready s B c j
  matched : ∀ j c, .irqClear c (.done j) ∈ B → Ready s B c j

structure Served (P : Platform) (s : Dev) (B : Multiset Stmt) : Prop where
  queued : Queued P s B
  counts : Counts s B
  slotted : Slotted s
  alone : ∀ c, load (doneAtW c) B + load (lookW c) B ≤ 1
  kind : ∀ a ∈ B, a.gang ∨ a.handles

variable {P : Platform} {s s' : Dev} {B R : Multiset Stmt} {a : Stmt} {x : Int} {p : List Stmt}
  {i j : JobId} {c d : Nat} {r : Int} {e : Occurrence}

namespace Ready

theorem active (h : Ready s B c j) : Active s B j c := by
  simp only [Active, reported, h.1, if_true]
  omega

theorem eq (hQ : Queued P s B) (hC : Counts s B) (hS : Slotted s) (h : Ready s B c j)
    (h' : Active s B i c) : i = j := by
  have hj := h.active.slot hQ hC hS
  rw [h'.slot hQ hC hS] at hj
  exact Option.some.inj hj

theorem not_working (hQ : Queued P s B) (hC : Counts s B) (hS : Slotted s)
    (h : Ready s B c j) (h' : 0 < load (commitW i c) B + load (jobDoneW i c) B) : False := by
  have hij := h.eq hQ hC hS (i := i) (by simp only [Active, reported]; omega)
  subst hij
  have hone := hC.tokens_le_one i c
  obtain ⟨he, hz⟩ := h
  simp only [tokens, reported, he, if_true] at hone
  omega

end Ready

theorem fuzzStatus_zero : fuzzStatus 0 = 0 := by decide

theorem status_write {g : Reg} (hg : g ≠ .intStatus) (v : Word) :
    (s.write c g v).status d = s.status d := by
  by_cases hd : d = c
  · subst hd
    simp [Dev.write, Dev.status, Ne.symm hg]
  · simp [Dev.write, Dev.status, hd]

theorem status_writeIntClear (v : Word) :
    (s.writeIntClear c v).status d = if d = c then s.status c &&& ~~~v else s.status d := by
  by_cases hd : d = c
  · subst hd
    simp [Dev.writeIntClear, Dev.write, Dev.status]
  · simp [Dev.writeIntClear, Dev.write, Dev.status, hd]

/-- Only the two writes of `INT_CLEAR` change a status, and only a start an engine. -/
theorem exec_hardware (ha : a.gang ∨ a.handles) (h : exec P a x s = some (s', p)) :
    ((∀ i c k, a ≠ .pc .pcOpEn i c k) → s'.engine = s.engine) ∧
      ((∀ i k, a ≠ .pc .pcIntClear i d k) → (∀ e, a ≠ .irqClear d e) →
        s'.status d = s.status d) := by
  cases a <;> simp only [Stmt.gang, Stmt.handles, Bool.false_eq_true, or_false, or_true] at ha <;>
    simp only [exec, jobSchedule, selectCore, domainGet, enqueue, nextLoop, jobNext, pickUp,
      runDec, jobCommit, subcoreCommit, commitPc, jobDone, releaseCore, interruptDec, doneWidth,
      donePut, doneFlag, doneRet, doneFence, doneAsync, irqEnter, irqStatus, irqCheck, irqReturn,
      Option.some.injEq] at h
  case pc g i c k =>
    cases g with
    | pcIntClear =>
      cases h
      refine ⟨fun _ => rfl, fun hi _ => ?_⟩
      rw [status_writeIntClear, if_neg]
      rintro rfl
      exact hi i k rfl
    | pcOpEn =>
      cases h
      exact ⟨fun ho => absurd rfl (ho i c k), fun _ _ => status_write (by simp) _⟩
    | firstTask | lastTask | jobIntMask => cases h; exact ⟨fun _ => rfl, fun _ _ => rfl⟩
    | _ => cases h; exact ⟨fun _ => rfl, fun _ _ => status_write (by simp) _⟩
  case irqClear c e =>
    cases h
    refine ⟨fun _ => rfl, fun _ hi => ?_⟩
    rw [status_writeIntClear, if_neg]
    rintro rfl
    exact hi e rfl
  case subcoreCommit i c =>
    split at h <;> cases h <;> exact ⟨fun _ => rfl, fun _ _ => status_write (by simp) _⟩
  case commitPc i c =>
    split at h
    · cases h
      exact ⟨fun _ => rfl, fun _ _ => rfl⟩
    split at h <;> cases h
    · exact ⟨fun _ => rfl, fun _ _ => (status_write (by simp) _).trans (status_write (by simp) _)⟩
    · exact ⟨fun _ => rfl, fun _ _ => rfl⟩
  all_goals
    repeat' split at h
    all_goals
      cases h
      try exact ⟨fun _ => rfl, fun _ _ => rfl⟩

theorem exec_status (ha : a.gang ∨ a.handles) (h : exec P a x s = some (s', p)) (d : Nat) :
    ∃ v, s'.status d = s.status d &&& v := by
  by_cases hi : (∃ i k, a = .pc .pcIntClear i d k) ∨ ∃ e, a = .irqClear d e
  · obtain ⟨i, k, rfl⟩ | ⟨e, rfl⟩ := hi <;> cases h <;>
      exact ⟨_, (status_writeIntClear _).trans (if_pos rfl)⟩
  · push Not at hi
    exact ⟨s.status d, ((exec_hardware ha h).2 hi.1 hi.2).trans BitVec.and_self.symm⟩

theorem irqClear_status (hb : s.status c &&& ~~~intClearAll = 0) {e : IrqExit}
    (h : exec P (.irqClear c e) x s = some (s', p)) : s'.status c = 0 := by
  cases h
  rw [status_writeIntClear, if_pos rfl, hb]

namespace Served

theorem kind_head (hS : Served P s (a ::ₘ R)) : a.gang ∨ a.handles :=
  hS.kind a (Multiset.mem_cons_self a R)

/-- Only one handler looks at a core, and no `rknpu_job_done` takes a job from it meanwhile. -/
theorem not_looking (hS : Served P s (a ::ₘ R)) (ha : 0 < doneAtW c a + lookW c a) :
    load (lookW c) R = 0 := by
  have hone := hS.alone c
  rw [load_cons, load_cons] at hone
  omega

end Served

/-- The job that a handler has found stays in the slot. -/
theorem slot_of_looking (hS : Served P s (a ::ₘ R)) (hc : 0 < load (lookW c) R)
    (hj : (s.slot c).isSome) (h : exec P a x s = some (s', p)) : s'.slot c = s.slot c := by
  have hkind := hS.kind_head
  cases a with
  | pickUp d =>
    obtain ⟨rfl, -⟩ | ⟨i, rest, hnone, -, -, -, hs, -⟩ := pickUp_effect h
    · rfl
    · rw [hs, Function.update_of_ne]
      rintro rfl
      rw [hnone] at hj
      cases hj
  | releaseCore i r d =>
    rw [(releaseCore_effect h).2.2.2.1, Function.update_of_ne]
    rintro rfl
    have hz := hS.not_looking (c := c) (by simp [doneAtW])
    omega
  | abortCores i | cancel i n => simp [Stmt.gang, Stmt.handles] at hkind
  | _ => rw [exec_slot rfl h]

/-- A chunk stays ready until a handler that has recognised it goes on. -/
theorem Ready.exec (hS : Served P s (a ::ₘ R)) (hR : Ready s (a ::ₘ R) c j)
    (ha : a ≠ .irqClear c (.done j)) (h : Rknpu.exec P a x s = some (s', p)) :
    Ready s' ((p : Multiset Stmt) + R) c j := by
  have hnot : ∀ i, ¬0 < load (commitW i c) (a ::ₘ R) + load (jobDoneW i c) (a ::ₘ R) := fun i hi =>
    hR.not_working hS.queued hS.counts hS.slotted hi
  have hdone : load (jobDoneW j c) (p : Multiset Stmt) = 0 := by
    by_cases hd : ∃ d i, a = .irqClear d (.done i)
    · obtain ⟨d, i, rfl⟩ := hd
      cases exec_flow h
      simp only [load_coe_cons, load_coe_nil, jobDoneW]
      rw [if_neg]
      rintro ⟨rfl, rfl⟩
      exact ha rfl
    · push Not at hd
      have hle := exec_jobDoneW hd h j c
      have hz := hR.2
      rw [load_cons] at hz
      omega
  have hzero : load (jobDoneW j c) R = 0 := by
    have hz := hR.2
    rw [load_cons] at hz
    omega
  refine ⟨?_, by rw [load_add, hdone, hzero]⟩
  have heng : s'.engine c = s.engine c := by
    by_cases hp : ∃ i d k, a = .pc .pcOpEn i d k
    · obtain ⟨i, d, k, rfl⟩ := hp
      have hdc : c ≠ d := by
        rintro rfl
        exact hnot i (by simp [commitW])
      rw [(pcOpEn_effect h).2.2.2.2.1, Function.update_of_ne hdc]
    · push Not at hp
      rw [(exec_hardware (d := c) hS.kind_head h).1 hp]
  have hsub : (s'.jobs j).submitCount c = (s.jobs j).submitCount c := by
    by_cases hd : ∃ i r d, a = .jobDone i r d
    · obtain ⟨i, r, d, rfl⟩ := hd
      rw [(jobDone_effect h).1, setJob_jobs]
      split
      · rename_i hij
        subst hij
        refine Function.update_of_ne ?_ _ _
        rintro rfl
        exact hnot j (by simp [jobDoneW])
      · rfl
    · push Not at hd
      rw [exec_submitCount hd h]
  rw [heng, hsub, hR.1]

theorem irqWorld_new (hG : irqWorld.env s R e) (h : occur P e s = some (s', p)) :
    ∀ b ∈ p, (∃ i, b = .jobSchedule i) ∨ ∃ d, b = .jobNext d ∨ b = .irqEnter d := by
  rcases irqWorld_threads hG h with rfl | ⟨i, rfl⟩ | ⟨d, rfl | rfl⟩ <;> simp

theorem Served.submitCount_occur (hS : Served P s R) (hj : 0 < s.log.count (.enqueue j))
    (h : occur P e s = some (s', p)) : (s'.jobs j).submitCount = (s.jobs j).submitCount := by
  by_cases he : e.spawns
  · obtain ⟨rfl, -⟩ | ⟨b, args, -, -, -, hjobs, -⟩ := spawn_effect he h
    · rfl
    · rw [hjobs, Function.update_of_ne (hS.queued.lt_jobNum hj).ne]
  · exact (counters_fields (occur_counters (by simpa using he) h j)).2.2.2.2

theorem irqWorld_status (hS : Served P s R) (hG : irqWorld.env s R e)
    (h : occur P e s = some (s', p)) :
    (s'.engine = s.engine ∧ ∀ c, s'.status c = s.status c) ∨ ∃ d i bits,
      s'.engine = Function.update s.engine d (.complete i ((s'.jobs i).submitCount d)) ∧
      Ready s' ((p : Multiset Stmt) + R) d i ∧ bits ≠ 0 ∧ bits &&& ~~~intClearAll = 0 ∧
      ∀ c, s'.status c = if c = d then s.status d ||| bits else s.status c := by
  cases e with
  | hwComplete d bits =>
    simp only [occur] at h
    split at h
    · rename_i i n hrun
      have hn := hS.counts.running d i n hrun
      split at h <;> rename_i hb <;> cases h
      refine .inr ⟨d, i, bits, hn ▸ rfl, ⟨?_, ?_⟩, hb.1, hb.2, fun c => ?_⟩
      · exact (Function.update_self ..).trans (hn ▸ rfl)
      · have hone := hS.counts.tokens_le_one i d
        simp only [tokens, onEngine, hrun, hn, if_true, reported] at hone
        simp only [Multiset.coe_nil, Multiset.zero_add]
        omega
      · by_cases hc : c = d
        · subst hc
          simp [Dev.write, Dev.status]
        · simp [Dev.write, Dev.status, hc]
    · cases h
  | schedule args fence | tick d => cases h; exact .inl ⟨rfl, fun _ => rfl⟩
  | next d | irq d =>
    simp only [occur] at h
    split at h <;> cases h
    exact .inl ⟨rfl, fun _ => rfl⟩
  | _ => exact absurd hG id

theorem Ready.occur (hS : Served P s R) (hR : Ready s R c j) (hG : irqWorld.env s R e)
    (h : Rknpu.occur P e s = some (s', p)) : Ready s' ((p : Multiset Stmt) + R) c j := by
  have henq := (hR.active.enqueued hS.counts).1
  have hdone : load (jobDoneW j c) (p : Multiset Stmt) = 0 := load_eq_zero _ fun b hb => by
    obtain ⟨i, rfl⟩ | ⟨d, rfl | rfl⟩ := irqWorld_new hG h b (by simpa using hb) <;> rfl
  have heng : s'.engine c = s.engine c := by
    obtain ⟨d, i, n, hrun, he, -⟩ | ⟨he, -⟩ := occur_report h
    · rw [he, Function.update_of_ne]
      rintro rfl
      cases hrun.symm.trans hR.1
    · rw [he]
  have hsub := hS.submitCount_occur henq h
  exact ⟨by rw [heng, hsub, hR.1], by rw [load_add, hdone, hR.2]⟩

theorem ready_of_exec (hS : Served P s (a ::ₘ R)) (hR : Ready s' ((p : Multiset Stmt) + R) c j)
    (h : Rknpu.exec P a x s = some (s', p)) : Ready s (a ::ₘ R) c j := by
  obtain ⟨he, hz⟩ := hR
  rw [load_add] at hz
  have heng : s'.engine c = s.engine c := by
    by_cases hp : ∃ i d k, a = .pc .pcOpEn i d k
    · obtain ⟨i, d, k, rfl⟩ := hp
      have heng := (pcOpEn_effect h).2.2.2.2.1
      have hdc : c ≠ d := by
        rintro rfl
        rw [heng, Function.update_self] at he
        cases he
      rw [heng, Function.update_of_ne hdc]
    · push Not at hp
      rw [(exec_hardware (d := c) hS.kind_head h).1 hp]
  rw [heng] at he
  by_cases hd : ∃ r, a = .jobDone j r c
  · -- the chunk that has just been counted is not the next one
    obtain ⟨r, rfl⟩ := hd
    have hle := (hS.counts.complete c j _ he).1
    rw [(jobDone_effect h).1, setJob_jobs, if_pos rfl] at hle
    simp at hle
  push Not at hd
  have hsub : (s'.jobs j).submitCount c = (s.jobs j).submitCount c := by
    by_cases hi : ∃ i r d, a = .jobDone i r d
    · obtain ⟨i, r, d, rfl⟩ := hi
      rw [(jobDone_effect h).1, setJob_jobs]
      split
      · rename_i hij
        subst hij
        refine Function.update_of_ne ?_ _ _
        rintro rfl
        exact hd r rfl
      · rfl
    · push Not at hi
      rw [exec_submitCount hi h]
  refine ⟨by rw [he, hsub], ?_⟩
  have ha : jobDoneW j c a = 0 := by
    cases a with
    | jobDone i r d =>
      refine if_neg ?_
      rintro ⟨rfl, rfl⟩
      exact hd r rfl
    | _ => rfl
  rw [load_cons, ha]
  omega

namespace Irqs

theorem exec (hS : Served P s (a ::ₘ R)) (hI : Irqs s (a ::ₘ R))
    (hG : maskedGuard.run s (a ::ₘ R) a x) (h : Rknpu.exec P a x s = some (s', p)) :
    Irqs s' ((p : Multiset Stmt) + R) := by
  have hkind := hS.kind_head
  constructor
  case bits =>
    intro c
    obtain ⟨v, hv⟩ := exec_status hkind h c
    rw [hv, BitVec.and_assoc, BitVec.and_comm v, ← BitVec.and_assoc, hI.bits c]
    exact BitVec.zero_and
  case seen =>
    intro c hc
    have hne : s.status c ≠ 0 := by
      obtain ⟨v, hv⟩ := exec_status hkind h c
      rintro hz
      rw [hv, hz] at hc
      exact hc BitVec.zero_and
    obtain ⟨j, hj⟩ := hI.seen c hne
    refine ⟨j, hj.exec hS ?_ h⟩
    rintro rfl
    exact hc (irqClear_status (hI.bits c) h)
  case entered =>
    intro j c hm
    rcases Multiset.mem_add.mp hm with hm | hm
    · have hm := Multiset.mem_coe.mp hm
      cases exec_flow h <;> simp at hm
      obtain ⟨rfl, rfl⟩ := hm
      simp only [Rknpu.exec, irqEnter, Option.some.injEq] at h
      split at h <;> cases h
      assumption
    · have hslot := hI.entered j c (Multiset.mem_cons_of_mem hm)
      have hlook : 0 < load (lookW c) R := (le_load (lookW c) hm).trans_lt' (by simp [lookW])
      rw [slot_of_looking hS hlook (by simp [hslot]) h, hslot]
  case read =>
    intro j c status hm hne
    rcases Multiset.mem_add.mp hm with hm | hm
    · have hm := Multiset.mem_coe.mp hm
      have ha : a = .irqStatus j c ∧ status = s.status c := by
        cases exec_flow h <;> simp at hm
        obtain ⟨rfl, rfl, rfl⟩ := hm
        cases h
        exact ⟨rfl, rfl⟩
      obtain ⟨rfl, rfl⟩ := ha
      obtain ⟨i, hi⟩ := hI.seen c hne
      have hslot := hi.active.slot hS.queued hS.counts hS.slotted
      rw [hI.entered j c (Multiset.mem_cons_self _ R), Option.some.injEq] at hslot
      subst hslot
      exact hi.exec hS (by simp) h
    · refine (hI.read j c status (Multiset.mem_cons_of_mem hm) hne).exec hS ?_ h
      rintro rfl
      have hz := hS.not_looking (c := c) (by simp [lookW])
      have hpos := le_load (lookW c) hm
      simp [lookW, hz] at hpos
  case matched =>
    intro j c hm
    rcases Multiset.mem_add.mp hm with hm | hm
    · have hm := Multiset.mem_coe.mp hm
      have ha : ∃ status, a = .irqCheck j c status ∧ fuzzStatus status = (s.jobs j).intMask c := by
        cases exec_flow h <;> simp at hm
        obtain ⟨rfl, rfl⟩ := hm
        simp only [Rknpu.exec, irqCheck, Option.some.injEq] at h
        split at h <;> rename_i hw <;> cases h
        exact ⟨_, rfl, not_not.mp hw⟩
      obtain ⟨status, rfl, hmask⟩ := ha
      refine (hI.read j c status (Multiset.mem_cons_self _ R) ?_).exec hS (by simp) h
      rintro rfl
      exact hG j c 0 rfl fuzzStatus_zero (hmask ▸ fuzzStatus_zero)
    · refine (hI.matched j c (Multiset.mem_cons_of_mem hm)).exec hS ?_ h
      rintro rfl
      have hz := hS.not_looking (c := c) (by simp [lookW])
      have hpos := le_load (lookW c) hm
      simp [lookW, hz] at hpos

theorem occur (hS : Served P s R) (hI : Irqs s R) (hG : irqWorld.env s R e)
    (h : Rknpu.occur P e s = some (s', p)) : Irqs s' ((p : Multiset Stmt) + R) := by
  have hready := fun {c j} (hR : Ready s R c j) => hR.occur hS hG h
  have hold : ∀ {b : Stmt}, b ∈ (p : Multiset Stmt) + R → (∀ i, b ≠ .jobSchedule i) →
      (∀ d, b ≠ .jobNext d ∧ b ≠ .irqEnter d) → b ∈ R := fun hm hi hd => by
    rcases Multiset.mem_add.mp hm with hm | hm
    · obtain ⟨i, rfl⟩ | ⟨d, rfl | rfl⟩ := irqWorld_new hG h _ (by simpa using hm)
      · exact absurd rfl (hi i)
      · exact absurd rfl (hd d).1
      · exact absurd rfl (hd d).2
    · exact hm
  have hstatus := irqWorld_status hS hG h
  refine ⟨fun c => ?_, fun c hc => ?_, fun j c hm => ?_, fun j c status hm hne => ?_, fun j c hm => ?_⟩
  · obtain ⟨-, hsame⟩ | ⟨d, i, bits, -, -, -, hbits, hst⟩ := hstatus
    · rw [hsame, hI.bits]
    · rw [hst]
      split
      · rw [BitVec.and_or_distrib_right, hI.bits d, hbits]
        exact BitVec.or_self
      · exact hI.bits c
  · obtain ⟨-, hsame⟩ | ⟨d, i, bits, -, hR, -, -, hst⟩ := hstatus
    · rw [hsame] at hc
      obtain ⟨j, hj⟩ := hI.seen c hc
      exact ⟨j, hready hj⟩
    · by_cases hcd : c = d
      · exact ⟨i, hcd ▸ hR⟩
      · rw [hst, if_neg hcd] at hc
        obtain ⟨j, hj⟩ := hI.seen c hc
        exact ⟨j, hready hj⟩
  · rw [occur_slot h]
    exact hI.entered j c (hold hm (by simp) (by simp))
  · exact hready (hI.read j c status (hold hm (by simp) (by simp)) hne)
  · exact hready (hI.matched j c (hold hm (by simp) (by simp)))

theorem init : Irqs Dev.init 0 := by
  constructor <;> simp [Dev.init, Dev.status]

end Irqs

variable {G : Guard Dev Stmt Int Occurrence} {C : Conf Dev Stmt}

/-- Runs of the handler in which it recognises only what has completed. -/
def servedWorld : Guard Dev Stmt Int Occurrence := (irqWorld.and maskedGuard).and genuineGuard

theorem servedWorld_honest : Honest P servedWorld := honest_of_genuine fun _ _ _ _ h => h.2

theorem Served.reach (hC : Reach (driver P) servedWorld Dev.init C) :
    Served P C.shared C.pending := by
  have hkind := fun C (hC : Reach (driver P) servedWorld Dev.init C) => irqWorld_kind hC.left.left
  refine ⟨Queued.reach hC, servedWorld_honest.counts hC, ?_, doneAt_le_one ?_ hC, hkind C hC⟩
  · refine hC.invariant_with
      (fun s B => Queued P s B ∧ Counts s B ∧ ∀ a ∈ B, a.gang ∨ a.handles) (fun s _ => Slotted s)
      (fun C hC => ⟨Queued.reach hC, servedWorld_honest.counts hC, hkind C hC⟩) Slotted.init
      (fun s R a x s' p hJ hI _ h => hI.exec hJ.1 hJ.2.1 ?_ h) (fun _ _ _ _ _ _ hI _ h => hI.occur h)
    have hk := hJ.2.2 a (Multiset.mem_cons_self a R)
    cases a <;> first | rfl | simp [Stmt.gang, Stmt.handles] at hk
  · rintro s B e ⟨⟨he, -⟩, -⟩ c rfl
    exact he

theorem Irqs.reach (hC : Reach (driver P) servedWorld Dev.init C) : Irqs C.shared C.pending :=
  hC.invariant_with (fun s B => Served P s B) Irqs (fun _ hC => Served.reach hC) Irqs.init
    (fun _ _ _ _ _ _ hJ hI hG h => hI.exec hJ hG.1.2 h)
    (fun _ _ _ _ _ hJ hI hG h => hI.occur hJ hG.1.1 h)

theorem genuine_of_served (hC : Reach (driver P) servedWorld Dev.init C) (ha : a ∈ C.pending) :
    genuineGuard.run C.shared C.pending a x := by
  rintro c j rfl
  obtain ⟨heng, hzero⟩ := (Irqs.reach hC).matched j c ha
  obtain ⟨R, hR⟩ := Multiset.exists_cons_of_mem ha
  rw [hR, load_cons] at hzero
  rw [hR, Multiset.erase_cons_head]
  exact ⟨heng, by omega⟩

/-- Where the handler compares no empty status with an empty mask, it recognises no chunk that
is not complete. -/
theorem served_of_masked (hC : Reach (driver P) ((irqWorld.and maskedGuard).and G) Dev.init C) :
    Reach (driver P) (servedWorld.and G) Dev.init C := by
  have hmono : ∀ C, Reach (driver P) (((irqWorld.and maskedGuard).and G).and genuineGuard) Dev.init C →
      Reach (driver P) (servedWorld.and G) Dev.init C := fun C hC => by
    refine hC.mono ?_ ?_
    · exact fun _ _ _ _ hG => ⟨⟨hG.1.1, hG.2⟩, hG.1.2⟩
    · exact fun _ _ _ hG => ⟨⟨hG.1.1, hG.2⟩, hG.1.2⟩
  exact hmono C (hC.strengthen (fun C hC a k x hk _ => genuine_of_served (hmono C hC).left
      (List.mem_flatten.mpr ⟨_, hk, List.mem_cons_self⟩))
    fun _ _ _ _ => trivial)

/-- The current chunk of a job for which the handler calls `rknpu_job_done` was started on that
core and completed by the hardware. -/
theorem done_after_complete (hC : Reach (driver P) (irqWorld.and maskedGuard) Dev.init C)
    (h : .irqClear c (.done j) ∈ C.pending ∨ .jobDone j r c ∈ C.pending) :
    (C.shared.jobs j).submitCount c ∈ started C.shared.log c j ∧
      (C.shared.jobs j).submitCount c ∈ completed C.shared.log c j := by
  have hserved : Reach (driver P) servedWorld Dev.init C := by
    refine (served_of_masked (G := .events fun _ => True) (hC.mono ?_ ?_)).left
    · exact fun _ _ _ _ h => ⟨h, trivial⟩
    · exact fun _ _ _ h => ⟨h, trivial⟩
  have hS := Starts.reach servedWorld_honest hserved
  have hK := Chunks.reach servedWorld_honest hserved
  have hreport : 0 < reported C.shared C.pending j c ∧
      .complete c j ((C.shared.jobs j).submitCount c) ∈ C.shared.log := by
    rcases h with h | h
    · have hready := (Irqs.reach hserved).matched j c h
      exact ⟨by simp [reported, hready.1], hK.complete c j _ hready.1⟩
    · have hpos := le_load (jobDoneW j c) h
      simp only [jobDoneW, and_self, if_true] at hpos
      exact ⟨by simp only [reported]; omega, hK.reported c j hpos⟩
  refine ⟨?_, ?_⟩
  · rw [hS.after j c (by omega)]
    exact List.mem_range.mpr (Nat.lt_succ_self _)
  · exact List.mem_filterMap.mpr ⟨_, hreport.2, by simp⟩

def irqRun (n : Nat) (irqs : List (Label Int Occurrence)) : List (Label Int Occurrence) :=
  Label.env (Occurrence.schedule (oneTask 1 1) false) :: List.replicate n (Label.run 0 0) ++ irqs

def maskedTest (C : Conf Dev Stmt) : Stmt → Bool
  | .irqCheck j c status => fuzzStatus status != 0 || (C.shared.jobs j).intMask c != 0
  | _ => true

theorem maskedTest_run {B : Multiset Stmt} (h : maskedTest C a) :
    (irqWorld.and maskedGuard).run C.shared B a x := by
  refine ⟨trivial, ?_⟩
  rintro j c status rfl hz hmask
  simp [maskedTest, hz, hmask] at h

theorem done_after_complete_irqRun : ∃ C : Conf Dev Stmt, .jobDone 0 0 0 ∈ C.pending ∧
    0 ∈ started C.shared.log 0 0 ∧ 0 ∈ completed C.shared.log 0 0 := by
  obtain ⟨C, hC, ht⟩ := Reach.exists_of_steps (driver (board rk356xConfig))
    (irqWorld.and maskedGuard) Dev.init
    (irqRun 20 ([Label.env (Occurrence.hwComplete 0 0x300), .env (.irq 0)] ++
      List.replicate 4 (Label.run 2 0)))
    (fun C a _ => maskedTest C a)
    (fun C => C.threads.flatten.contains (.jobDone 0 0 0) && (C.shared.jobs 0).submitCount 0 == 0)
    (fun _ _ _ => maskedTest_run)
    (fun e he _ _ => by
      simp [irqRun] at he
      obtain rfl | rfl | rfl := he <;> exact ⟨trivial, trivial⟩)
    (by decide +kernel)
  simp only [Bool.and_eq_true, beq_iff_eq, List.contains_iff_mem] at ht
  have hmem : .jobDone 0 0 0 ∈ C.pending := ht.1
  have hdone := done_after_complete hC (.inr hmem)
  rw [ht.2] at hdone
  exact ⟨C, hmem, hdone⟩

/-- A handler that is called by mistake between the pick-up and the commit ends the job. -/
theorem done_before_start : ¬∀ (P : Platform) (C : Conf Dev Stmt) (j : JobId) (c : Nat),
    (∀ addr k, (P.kvAddr addr k).intMask ≠ 0) → Reach (driver P) irqWorld Dev.init C →
      .jobDone j 0 c ∈ C.pending →
        (C.shared.jobs j).submitCount c ∈ started C.shared.log c j ∧
          (C.shared.jobs j).submitCount c ∈ completed C.shared.log c j := by
  intro hall
  obtain ⟨C, hC, ht⟩ := Reach.exists_of_steps (driver (board rk356xConfig)) irqWorld Dev.init
    (irqRun 6 (.env (.irq 0) :: List.replicate 4 (.run 1 0))) (fun _ _ _ => true)
    (fun C => C.threads.flatten.contains (.jobDone 0 0 0) && started C.shared.log 0 0 == [])
    (fun _ _ _ _ => trivial)
    (fun e he _ _ => by
      simp [irqRun] at he
      obtain rfl | rfl := he <;> exact trivial)
    (by decide +kernel)
  simp only [Bool.and_eq_true, beq_iff_eq, List.contains_iff_mem] at ht
  have hstart := (hall (board rk356xConfig) C 0 0 (by simp [board]) hC ht.1).1
  rw [ht.2] at hstart
  cases hstart

end Rknpu

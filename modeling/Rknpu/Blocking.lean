import Rknpu.JobWait

namespace Rknpu

open Interleaving

variable {P : Platform} {G : Guard Dev Stmt Int Occurrence} {C : Conf Dev Stmt} {s s' : Dev}
  {B R : Multiset Stmt} {a : Stmt} {x : Int} {p : List Stmt} {j k : JobId} {c : Nat} {r : Int}

/-- `RKNPU_JOB_PC` is set for the job. -/
abbrev Dev.pc (s : Dev) (j : JobId) : Prop := (s.jobs j).args.pc

abbrev Dev.nonblock (s : Dev) (j : JobId) : Prop := (s.jobs j).args.nonblock

/-- The hardware has completed every chunk of the job on every core of its mask, so every task
that such a core was given. -/
structure Ran (P : Platform) (s : Dev) (j : JobId) : Prop where
  done : (s.jobs j).done
  core : ∃ c < P.config.numIrqs, inMask (s.mask j) c
  chunks : ∀ c, inMask (s.mask j) c → ∀ k : Nat, (k : Int) < (s.jobs j).chunkCount P.config c →
    .complete c j k ∈ s.log
  tasks : ∀ c, inMask (s.mask j) c → ∀ f n, (s.jobs j).Fits P.config c f n →
    ∀ t, f ≤ t → t < f + n → ∃ k, .complete c j k ∈ s.log ∧
      (s.jobs j).chunkStart P.config c k ≤ t ∧ t ≤ (s.jobs j).chunkEnd P.config c k

/-- No core knows of the job any more. -/
structure Detached (s : Dev) (j : JobId) : Prop where
  todo : ∀ c, j ∉ s.todoList c
  slot : ∀ c, s.slot c ≠ some j

section Finished

theorem finished_of_done (hE : Ends s B) (hj : (s.jobs j).done) : 0 < finished s j := by
  have hlog := (hE.flag j).mp hj
  have hdone := hE.done j
  omega

theorem enqueued_of_finished (hf : 0 < finished s j) : 0 < s.log.count (.enqueue j) := by
  by_contra hj
  rw [finished_of_not_enqueued (by omega)] at hf
  omega

theorem detached_of_finished (hQ : Queued P s B) (hC : Counts s B) (hfin : 0 < finished s j) :
    Detached s j := by
  have hone : ∀ c, s.needs P c j → s.log.count (.pickup c j) = 1 ∧ s.log.count (.release c j) = 1 ∧
      (s.todoList c).count j = 0 := by
    intro c hn
    have hlisted := hQ.listed j c
    have honce := hQ.once j
    have hrel := released_of_finished hQ hC hfin (Bool.and_eq_true_iff.mp hn).2
    have hheld := hC.held j c
    rw [if_pos hn] at hlisted
    omega
  constructor
  · intro c hm
    have hn : s.needs P c j := by
      have hlisted := hQ.listed j c
      have hpos := List.count_pos_iff.mpr hm
      split at hlisted
      · assumption
      · omega
    have hpos := List.count_pos_iff.mpr hm
    have hzero := (hone c hn).2.2
    omega
  · intro c hs
    have hone := hone c (hQ.needs_of_picked (hQ.slots j c hs))
    have hheld := hC.held j c
    rw [if_pos hs] at hheld
    omega

theorem detached_of_done (hQ : Queued P s B) (hC : Counts s B) (hE : Ends s B)
    (hj : (s.jobs j).done) : Detached s j := detached_of_finished hQ hC (finished_of_done hE hj)

theorem ran_of_done (hQ : Queued P s B) (hC : Counts s B) (hE : Ends s B) (hK : Chunks P s B)
    (hj : (s.jobs j).done) : Ran P s j := by
  have hfin := finished_of_done hE hj
  have hchunks : ∀ c, inMask (s.mask j) c → ∀ k : Nat,
      (k : Int) < (s.jobs j).chunkCount P.config c → .complete c j k ∈ s.log := by
    intro c hc k hk
    have hrel := released_of_finished hQ hC hfin hc
    have hended := hK.ended c j (by omega)
    exact hK.counted c j k (by omega)
  refine ⟨hj, ?_, hchunks, ?_⟩
  · have hints := hC.ints j (enqueued_of_finished hfin)
    simp only [finished] at hfin
    split at hfin
    · rename_i hdone
      obtain ⟨c, hc⟩ := List.exists_mem_of_length_pos (by omega : 0 < (releaseCores s.log j).length)
      rw [← List.count_pos_iff, count_releaseCores] at hc
      have hn := Bool.and_eq_true_iff.mp (needs_of_released hQ hC hc)
      exact ⟨c, of_decide_eq_true hn.1, hn.2⟩
    · omega
  · intro c hc f n hF t ht ht'
    have hcount := Job.chunkCount_eq (inMask_lt hc) hF.range (by have := hF.pos; omega) hF.count
    obtain ⟨k, ⟨hk, hstart, hend⟩, -⟩ := hF.existsUnique_chunk ht ht'
    exact ⟨k, hchunks c hc k (by rw [hcount]; exact_mod_cast hk), hstart, hend⟩

end Finished

/-- The job whose `rknpu_submit` the statement belongs to. -/
def Stmt.submitter : Stmt → Option JobId
  | .fenceIn j | .fenceWait j _ | .fenceOut j | .fenceFd j | .dispatch j | .submitAsync j
  | .submitWait j | .submitResult j | .submitReturn j _ | .waitEvent j _ | .waitElapsed j _
  | .waitLastTask j _ | .waitUnlink j _ | .waitStatus j _ | .waitFlags j | .waitReturn j _
  | .jobAbort j | .abortCores j | .abortReset j => some j
  | _ => none

theorem exec_submitter (h : exec P a x s = some (s', p)) :
    ∀ b ∈ p, b.submitter = none ∨ b.submitter = a.submitter := by
  cases exec_flow h <;> simp [Stmt.submitter]

theorem occur_submitter {e : Occurrence} (h : occur P e s = some (s', p)) :
    ∀ b ∈ p, b.submitter = none ∨ b.submitter = some s.jobNum ∧ s'.jobNum = s.jobNum + 1 := by
  cases occur_flow h with
  | submit hnum => simp [Stmt.submitter, hnum]
  | _ => simp [Stmt.submitter]

theorem submitter_lt (hC : Reach (driver P) G Dev.init C) (ha : a ∈ C.pending)
    (hj : a.submitter = some j) : j < C.shared.jobNum := by
  refine hC.invariant (fun s B => ∀ a ∈ B, ∀ j, a.submitter = some j → j < s.jobNum) (by simp)
    ?_ ?_ a ha j hj
  · intro s R a x s' p hI _ h b hb j hj
    rw [exec_jobNum h]
    rcases Multiset.mem_add.mp hb with hb | hb
    · rcases exec_submitter h b (by simpa using hb) with hn | hn
      · rw [hn] at hj
        cases hj
      · exact hI a (Multiset.mem_cons_self a R) j (hn ▸ hj)
    · exact hI b (Multiset.mem_cons_of_mem hb) j hj
  · intro s R e s' p hI _ h b hb j hj
    rcases Multiset.mem_add.mp hb with hb | hb
    · rcases occur_submitter h b (by simpa using hb) with hn | ⟨hn, hnum⟩
      · rw [hn] at hj
        cases hj
      · rw [hn] at hj
        cases hj
        exact hnum ▸ Nat.lt_succ_self _
    · exact (hI b hb j hj).trans_le (occur_jobNum h)

structure Reports (s : Dev) (B : Multiset Stmt) : Prop where
  async : ∀ j, .submitAsync j ∈ B → s.nonblock j
  noted : ∀ j r q, .doneRet j r q ∈ B → (s.jobs j).done
  waited : ∀ j, .waitReturn j 0 ∈ B → (s.jobs j).done
  result : ∀ j, .submitResult j ∈ B → s.pc j → (s.jobs j).ret ≠ 0 ∨ (s.jobs j).done

theorem exec_pc (h : exec P a x s = some (s', p)) (k : JobId) : s'.pc k ↔ s.pc k := by
  have hflags : (s'.jobs k).args.flags = (s.jobs k).args.flags := congrArg Prod.fst (exec_args h k)
  show (s'.jobs k).args.flags.testBit 0 = true ↔ (s.jobs k).args.flags.testBit 0 = true
  rw [hflags]

theorem exec_done_mono (h : exec P a x s = some (s', p)) (hj : (s.jobs j).done) :
    (s'.jobs j).done := by
  rw [(exec_done h j).2, hj]
  rfl

theorem exec_ret (h : exec P a x s = some (s', p)) (j : JobId) :
    (s'.jobs j).ret = (s.jobs j).ret ∨ (s'.jobs j).ret ≠ 0 ∨ (∃ r q, a = .doneRet j r q) ∨
      ∃ r, a = .waitReturn j r ∧ (s'.jobs j).ret = r := by
  by_cases hw : a.writes j .ret
  · cases a with
    | domainGet i | subcoreCommit i d | commitPc i d =>
      simp only [exec, domainGet, subcoreCommit, commitPc, Option.some.injEq] at h
      repeat' split at h
      all_goals
        cases h
        first
          | exact .inl rfl
          | (simp only [setJob_jobs]
             split
             · exact .inr (.inl (by simp [einval]))
             · exact .inl rfl)
    | doneRet i r q =>
      obtain rfl : i = j := by simpa [Stmt.writes] using hw
      exact .inr (.inr (.inl ⟨r, q, rfl⟩))
    | waitReturn i r =>
      obtain rfl : i = j := by simpa [Stmt.writes] using hw
      cases h
      exact .inr (.inr (.inr ⟨r, rfl, by rw [setJob_jobs, if_pos rfl]⟩))
    | pc g i d n => cases g <;> cases hw
    | _ => cases hw
  · exact .inl (exec_get (f := .ret) (by simpa using hw) h)

theorem exec_submitAsync (h : exec P a x s = some (s', p)) (hm : .submitAsync j ∈ p) :
    s.nonblock j := by
  by_cases ha : ∃ i, a = .dispatch i
  · obtain ⟨i, rfl⟩ := ha
    simp only [exec, dispatch, Option.some.injEq] at h
    split at h <;> cases h <;> simp at hm
    subst hm
    assumption
  · push Not at ha
    cases exec_flow h with
    | dispatchAsync | dispatch => exact absurd rfl (ha _)
    | _ => simp at hm

theorem exec_waitReturn (h : exec P a x s = some (s', p)) (hm : .waitReturn j 0 ∈ p) :
    (s.jobs j).done := by
  by_cases ha : ∃ i, a = .waitFlags i
  · obtain ⟨i, rfl⟩ := ha
    simp only [exec, waitFlags, Option.some.injEq] at h
    split at h <;> cases h <;> simp [einval] at hm
    subst hm
    assumption
  · push Not at ha
    exfalso
    cases exec_flow h with
    | waitFlags | waitFlagsError => exact absurd rfl (ha _)
    | waitUnlink i r | waitStatusTimeout i r =>
      simp only [List.mem_singleton, Stmt.waitReturn.injEq] at hm
      obtain ⟨-, hr⟩ := hm
      split at hr <;> simp_all [einval, etimedout]
    | _ => simp at hm

theorem exec_submitResult (h : exec P a x s = some (s', p)) (hm : .submitResult j ∈ p) :
    a = .submitWait j ∧ ¬s.pc j ∨ ∃ r, a = .waitReturn j r := by
  by_cases ha : ∃ i, a = .submitWait i
  · obtain ⟨i, rfl⟩ := ha
    simp only [exec, submitWait, Option.some.injEq] at h
    split at h <;> cases h <;> simp at hm
    subst hm
    exact .inl ⟨rfl, ‹_›⟩
  · push Not at ha
    cases exec_flow h with
    | submitWait | submitWaitPc => exact absurd rfl (ha _)
    | waitReturn i r =>
      simp only [List.mem_singleton, Stmt.submitResult.injEq] at hm
      exact .inr ⟨r, by rw [hm]⟩
    | _ => simp at hm

theorem exec_doneRet (h : exec P a x s = some (s', p)) {q : Nat} (hm : .doneRet j r q ∈ p) :
    a = .doneFlag j r q := by
  cases exec_flow h with
  | doneFlag i r' q' => simp_all
  | _ => simp at hm

theorem nonblock_exec (h : exec P a x s = some (s', p)) (hj : s.nonblock j) : s'.nonblock j := by
  rw [Dev.nonblock, exec_nonblock h]
  exact hj

structure Same (s s' : Dev) (j : JobId) : Prop where
  nonblock : s'.nonblock j ↔ s.nonblock j
  pc : s'.pc j ↔ s.pc j
  done : (s'.jobs j).done = (s.jobs j).done
  ret : (s'.jobs j).ret = (s.jobs j).ret
  lastTask : (s'.jobs j).lastTask = (s.jobs j).lastTask

theorem same_occur {e : Occurrence} (hj : j < s.jobNum) (h : occur P e s = some (s', p)) :
    Same s s' j := by
  have hne : e.spawns → j ≠ s.jobNum := fun _ => hj.ne
  have hflags : (s'.jobs j).args.flags = (s.jobs j).args.flags :=
    congrArg Prod.fst (occur_get (f := .args) hne (by simp) h)
  refine ⟨?_, ?_, occur_get (f := .done) hne (by simp) h, occur_get (f := .ret) hne (by simp) h,
    occur_get (f := .lastTask) hne (by simp) h⟩
  · show (s'.jobs j).args.flags.testBit 1 = true ↔ (s.jobs j).args.flags.testBit 1 = true
    rw [hflags]
  · show (s'.jobs j).args.flags.testBit 0 = true ↔ (s.jobs j).args.flags.testBit 0 = true
    rw [hflags]

theorem done_occur {e : Occurrence} (hQ : Queued P s R) (hE : Ends s R) (hj : (s.jobs j).done)
    (h : occur P e s = some (s', p)) : (s'.jobs j).done := by
  rw [(same_occur (hQ.lt_jobNum (enqueued_of_finished (finished_of_done hE hj))) h).done]
  exact hj

namespace Reports

theorem exec (hI : Reports s (a ::ₘ R)) (h : Rknpu.exec P a x s = some (s', p)) :
    Reports s' ((p : Multiset Stmt) + R) := by
  have hself := Multiset.mem_cons_self a R
  constructor
  case async =>
    intro j hm
    rcases Multiset.mem_add.mp hm with hm | hm
    · exact nonblock_exec h (exec_submitAsync h (by simpa using hm))
    · exact nonblock_exec h (hI.async j (Multiset.mem_cons_of_mem hm))
  case noted =>
    intro j r q hm
    rcases Multiset.mem_add.mp hm with hm | hm
    · obtain rfl := exec_doneRet h (by simpa using hm)
      rw [(exec_done h j).2]
      simp [stage]
    · exact exec_done_mono h (hI.noted j r q (Multiset.mem_cons_of_mem hm))
  case waited =>
    intro j hm
    rcases Multiset.mem_add.mp hm with hm | hm
    · exact exec_done_mono h (exec_waitReturn h (by simpa using hm))
    · exact exec_done_mono h (hI.waited j (Multiset.mem_cons_of_mem hm))
  case result =>
    intro j hm hpc
    rw [exec_pc h] at hpc
    have hend : ∀ r, a = .waitReturn j r → (s'.jobs j).ret = r →
        (s'.jobs j).ret ≠ 0 ∨ (s'.jobs j).done := by
      rintro r rfl hr
      by_cases hz : r = 0
      · subst hz
        exact .inr (exec_done_mono h (hI.waited j hself))
      · exact .inl (hr ▸ hz)
    rcases Multiset.mem_add.mp hm with hm | hm
    · rcases exec_submitResult h (by simpa using hm) with ⟨-, hn⟩ | ⟨r, rfl⟩
      · exact absurd hpc hn
      · refine hend r rfl ?_
        cases h
        rw [setJob_jobs, if_pos rfl]
    · rcases exec_ret h j with hr | hr | ⟨r, q, rfl⟩ | ⟨r, ha, hr⟩
      · rw [hr]
        exact (hI.result j (Multiset.mem_cons_of_mem hm) hpc).imp_right (exec_done_mono h)
      · exact .inl hr
      · exact .inr (exec_done_mono h (hI.noted j r q hself))
      · exact hend r ha hr

theorem occur {e : Occurrence} (hlt : ∀ a ∈ R, ∀ j, a.submitter = some j → j < s.jobNum)
    (hQ : Queued P s R) (hE : Ends s R) (hI : Reports s R)
    (h : Rknpu.occur P e s = some (s', p)) : Reports s' ((p : Multiset Stmt) + R) := by
  constructor
  case async =>
    intro j hm
    have hm := pending_occur h hm rfl
    exact (same_occur (hlt _ hm j rfl) h).nonblock.mpr (hI.async j hm)
  case noted =>
    intro j r q hm
    have hm := pending_occur h hm rfl
    exact done_occur hQ hE (hI.noted j r q hm) h
  case waited =>
    intro j hm
    have hm := pending_occur h hm rfl
    exact done_occur hQ hE (hI.waited j hm) h
  case result =>
    intro j hm hpc
    have hm := pending_occur h hm rfl
    have hsame := same_occur (hlt _ hm j rfl) h
    rw [hsame.ret, hsame.done]
    exact hI.result j hm (hsame.pc.mp hpc)

theorem init : Reports Dev.init 0 := by
  constructor <;> simp

theorem reach (hG : Honest P G) (hC : Reach (driver P) G Dev.init C) :
    Reports C.shared C.pending :=
  hC.invariant_with (fun s B => Queued P s B ∧ Ends s B ∧
      ∀ a ∈ B, ∀ j, a.submitter = some j → j < s.jobNum) Reports
    (fun _ hC => ⟨Queued.reach hC, Ends.reach hG hC, fun _ ha _ hj => submitter_lt hC ha hj⟩) init
    (fun _ _ _ _ _ _ _ hI _ h => hI.exec h)
    (fun _ _ _ _ _ hJ hI _ h => hI.occur hJ.2.2 hJ.1 hJ.2.1 h)

end Reports

/-- A job without `RKNPU_JOB_PC` is never committed. -/
structure PcOnly (s : Dev) (B : Multiset Stmt) : Prop where
  commit : ∀ j c, .commitPc j c ∈ B → s.pc j
  stages : ∀ g j c k, .pc g j c k ∈ B → s.pc j
  lastTask : ∀ j, (s.jobs j).lastTask.isSome → s.pc j

theorem exec_commitPc (h : exec P a x s = some (s', p)) (hm : .commitPc j c ∈ p) : s.pc j := by
  by_cases ha : ∃ i d, a = .subcoreCommit i d
  · obtain ⟨i, d, rfl⟩ := ha
    simp only [exec, subcoreCommit, Option.some.injEq] at h
    split at h <;> cases h <;> simp at hm
    obtain ⟨rfl, rfl⟩ := hm
    assumption
  · push Not at ha
    cases exec_flow h with
    | subcoreCommit | subcoreCommitError => exact absurd rfl (ha _ _)
    | _ => simp at hm

theorem exec_pcStage (h : exec P a x s = some (s', p)) {g : PcStage} {n : Nat}
    (hm : .pc g j c n ∈ p) : a = .commitPc j c ∨ ∃ g', a = .pc g' j c n := by
  cases exec_flow h with
  | commitPc i d m => simp_all
  | pc g₁ g₂ i d m => simp_all
  | _ => simp at hm

namespace PcOnly

theorem exec (hI : PcOnly s (a ::ₘ R)) (h : Rknpu.exec P a x s = some (s', p)) :
    PcOnly s' ((p : Multiset Stmt) + R) := by
  have hself := Multiset.mem_cons_self a R
  constructor
  case commit =>
    intro j c hm
    rw [exec_pc h]
    rcases Multiset.mem_add.mp hm with hm | hm
    · exact exec_commitPc h (by simpa using hm)
    · exact hI.commit j c (Multiset.mem_cons_of_mem hm)
  case stages =>
    intro g j c k hm
    rw [exec_pc h]
    rcases Multiset.mem_add.mp hm with hm | hm
    · rcases exec_pcStage h (by simpa using hm) with rfl | ⟨g', rfl⟩
      · exact hI.commit j c hself
      · exact hI.stages g' j c k hself
    · exact hI.stages g j c k (Multiset.mem_cons_of_mem hm)
  case lastTask =>
    intro j hj
    rw [exec_pc h]
    by_cases hw : a.writes j .lastTask
    · cases a with
      | pc g i c k =>
        cases g <;> simp only [Stmt.writes, Bool.false_eq_true, beq_iff_eq] at hw
        exact hw ▸ hI.stages _ i c k hself
      | _ => cases hw
    · have hsame : (s'.jobs j).lastTask = (s.jobs j).lastTask :=
        exec_get (f := .lastTask) (by simpa using hw) h
      exact hI.lastTask j (hsame ▸ hj)

theorem occur {e : Occurrence} (hQ : Queued P s R) (hC : Counts s R) (hI : PcOnly s R)
    (h : Rknpu.occur P e s = some (s', p)) : PcOnly s' ((p : Multiset Stmt) + R) := by
  have hold : ∀ {b : Stmt} {j : JobId} (c : Nat), b ∈ R → commitW j c b = 1 → Same s s' j := by
    intro b j c hb hw
    have hpos := le_load (commitW j c) hb
    have hlive := (hC.live (j := j) (c := c) (by simp only [tokens]; omega)).1
    exact same_occur (hQ.lt_jobNum hlive) h
  constructor
  case commit =>
    intro j c hm
    have hm := pending_occur h hm rfl
    exact (hold c hm (by simp [commitW])).pc.mpr (hI.commit j c hm)
  case stages =>
    intro g j c k hm
    have hm := pending_occur h hm rfl
    exact (hold c hm (by simp [commitW])).pc.mpr (hI.stages g j c k hm)
  case lastTask =>
    intro j hj
    by_cases hn : e.spawns ∧ j = s.jobNum
    · obtain ⟨he, rfl⟩ := hn
      obtain rfl | ⟨args, hb⟩ := spawn_get he h
      · exact hI.lastTask _ hj
      · have hnone : (s'.jobs s.jobNum).lastTask = none := hb .lastTask (by simp) (by simp)
        rw [hnone] at hj
        cases hj
    · have hne : e.spawns → j ≠ s.jobNum := fun he hj => hn ⟨he, hj⟩
      have hsame : (s'.jobs j).lastTask = (s.jobs j).lastTask :=
        occur_get (f := .lastTask) hne (by simp) h
      have hflags : (s'.jobs j).args.flags = (s.jobs j).args.flags :=
        congrArg Prod.fst (occur_get (f := .args) hne (by simp) h)
      show (s'.jobs j).args.flags.testBit 0 = true
      rw [hflags]
      exact hI.lastTask j (hsame ▸ hj)

theorem init : PcOnly Dev.init 0 := by
  constructor <;> simp [Dev.init, jobAlloc]

theorem reach (hG : Honest P G) (hC : Reach (driver P) G Dev.init C) :
    PcOnly C.shared C.pending :=
  hC.invariant_with (fun s B => Queued P s B ∧ Counts s B) PcOnly
    (fun _ hC => ⟨Queued.reach hC, hG.counts hC⟩) init
    (fun _ _ _ _ _ _ _ hI _ h => hI.exec h)
    (fun _ _ _ _ _ hJ hI _ h => hI.occur hJ.1 hJ.2 h)

end PcOnly

theorem blocking_success_iff (hC : Reach (driver P) genuineGuard Dev.init C)
    (hm : .submitResult j ∈ C.pending) :
    ((C.shared.jobs j).ret = 0 → Ran P C.shared j ∧ Detached C.shared j) ↔
      C.shared.pc j ∨ (C.shared.jobs j).ret ≠ 0 := by
  have hG : Honest P genuineGuard := honest_of_genuine fun _ _ _ _ h => h
  constructor
  · intro h
    by_cases hret : (C.shared.jobs j).ret = 0
    · exact .inl ((PcOnly.reach hG hC).lastTask j (lastTask_of_done hG hC (h hret).1.done))
    · exact .inr hret
  · rintro (hpc | hne) hret
    · have hdone := ((Reports.reach hG hC).result j hm hpc).resolve_left (not_not.mpr hret)
      have hQ := Queued.reach hC
      have hE := Ends.reach hG hC
      exact ⟨ran_of_done hQ (hG.counts hC) hE (Chunks.reach hG hC) hdone,
        detached_of_done hQ (hG.counts hC) hE hdone⟩
    · exact absurd hret hne

end Rknpu

import Rknpu.Interleaving.Termination
import Rknpu.Nodes
import Rknpu.Recommits

namespace Rknpu

open Interleaving

/-- How many statements one statement of a driver with `n` cores may still lead to, when a job
on a list is worth 77 of them, a chunk on the hardware 13 and a chunk that is due 14. -/
def weight (n : Nat) : Stmt → Nat
  | .fenceIn _ => 35 + 91 * n
  | .fenceWait _ _ => 34 + 91 * n
  | .fenceOut _ => 33 + 91 * n
  | .fenceFd _ => 32 + 91 * n
  | .dispatch _ => 31 + 91 * n
  | .submitAsync _ => 12
  | .submitWait _ => 24
  | .submitResult _ => 12
  | .submitReturn _ _ => 1
  | .jobSchedule _ => 5 + 81 * n
  | .selectCore _ i _ _ => 4 + 80 * n + (n - i)
  | .domainGet _ => 3 + 80 * n
  | .enqueue _ => 2 + 80 * n
  | .nextLoop _ i => 1 + 3 * (n - i)
  | .jobNext _ => 2
  | .pickUp _ => 1
  | .runDec _ => 77
  | .jobCommit _ => 76
  | .subcoreCommit _ _ => 25
  | .commitPc _ _ => 24
  | .pc .pcDataAddr _ _ _ => 23
  | .pc .pcDataAmount _ _ _ => 22
  | .pc .pcIntMask _ _ _ => 21
  | .pc .pcIntClear _ _ _ => 20
  | .pc .pcTaskControl _ _ _ => 19
  | .pc .pcDmaBaseAddr _ _ _ => 18
  | .pc .firstTask _ _ _ => 17
  | .pc .lastTask _ _ _ => 16
  | .pc .jobIntMask _ _ _ => 15
  | .pc .pcOpEn _ _ _ => 14
  | .jobDone _ _ _ => 12
  | .releaseCore _ _ _ => 11
  | .interruptDec _ _ _ => 8
  | .doneWidth _ _ _ => 7
  | .donePut _ _ _ => 6
  | .doneFlag _ _ _ => 5
  | .doneRet _ _ _ => 4
  | .doneFence _ _ => 3
  | .doneAsync _ _ => 2
  | .wakeUp _ => 1
  | .irqEnter _ => 17
  | .irqStatus _ _ => 16
  | .irqCheck _ _ _ => 15
  | .irqClear _ _ => 14
  | .irqReturn _ => 1
  | .waitEvent _ k => 17 + 2 * (3 - k)
  | .waitElapsed _ k => 18 + 2 * (3 - k)
  | .waitLastTask _ _ => 16
  | .waitUnlink _ _ => 14
  | .waitStatus _ _ => 15
  | .waitFlags _ => 14
  | .waitReturn _ _ => 13
  | .jobAbort _ => 10
  | .abortCores _ => 9
  | .abortReset _ => 8
  | .jobFree _ => 1
  | .timeoutClean _ i => 1 + 10 * (n - i)
  | .cancel _ _ => 3
  | .cancelWork _ _ => 2
  | .drain _ => 1
  | .drainWork _ _ => 2
  | .softReset => 6
  | .resetMark => 5
  | .resetHw => 4
  | .resetEnd => 3
  | .stateInit => 2
  | .resetUnlock => 1

/-- The chunks of a job on one core, before `rknpu_job_schedule` has chosen a core for it or after. -/
def Job.share (cfg : Config) (b : Job) (c : Nat) : Nat :=
  max (b.chunkCount cfg c).toNat ((resolveCore b 0).chunkCount cfg c).toNat

/-- Those of them that `rknpu_job_done` has not counted. -/
def Job.due (cfg : Config) (b : Job) (c : Nat) : Nat := b.share cfg c - b.submitCount c

def Engine.busy : Engine → Nat
  | .running _ _ => 1
  | _ => 0

variable (P : Platform)

def queued (s : Dev) : Nat := ∑ c ∈ Finset.range P.config.numIrqs, (s.todoList c).length

def engaged (s : Dev) : Nat := ∑ c ∈ Finset.range 3, (s.engine c).busy

def owed (s : Dev) : Nat :=
  ∑ j ∈ Finset.range s.jobNum, ∑ c ∈ Finset.range 3, (s.jobs j).due P.config c

/-- A bound on the steps that the driver and its hardware can still take on their own. -/
def rank (s : Dev) (B : Multiset Stmt) : Nat :=
  load (weight P.config.numIrqs) B + 77 * queued P s + 13 * engaged s + 14 * owed P s

variable {P} {s s' : Dev} {R : Multiset Stmt} {a : Stmt} {x : Int} {p : List Stmt} {j : JobId}
  {c : Nat} {r : Int}

section Parts

theorem queued_exec (ha : ∀ j, a ≠ .enqueue j) (h : exec P a x s = some (s', p)) :
    queued P s' ≤ queued P s :=
  Finset.sum_le_sum fun c _ => (exec_todo ha h c).length_le

theorem queued_enqueue (h : exec P (.enqueue j) x s = some (s', p)) :
    queued P s' ≤ queued P s + P.config.numIrqs := by
  obtain ⟨-, -, -, -, ht⟩ := enqueue_effect h
  have hle : ∀ c ∈ Finset.range P.config.numIrqs,
      (s'.todoList c).length ≤ (s.todoList c).length + 1 := fun c _ => by
    rw [ht]
    split <;> simp
  refine (Finset.sum_le_sum hle).trans ?_
  rw [Finset.sum_add_distrib, Finset.sum_const, Finset.card_range, smul_eq_mul, mul_one]
  rfl

theorem queued_lt (hle : ∀ d, (s'.todoList d).length ≤ (s.todoList d).length)
    (hc : c < P.config.numIrqs) (hlt : (s'.todoList c).length < (s.todoList c).length) :
    queued P s' + 1 ≤ queued P s :=
  Finset.sum_lt_sum (fun d _ => hle d) ⟨c, Finset.mem_range.mpr hc, hlt⟩

theorem lt_numIrqs_of_todo {B : Multiset Stmt} (hQ : Queued P s B) (hj : j ∈ s.todoList c) :
    c < P.config.numIrqs := by
  have hle := hQ.listed j c
  rw [← List.count_pos_iff] at hj
  split at hle
  · rename_i hn
    exact of_decide_eq_true (Bool.and_eq_true_iff.mp hn).1
  · omega

theorem engaged_exec (ha : ∀ j c k, a ≠ .pc .pcOpEn j c k) (h : exec P a x s = some (s', p)) :
    engaged s' ≤ engaged s :=
  Finset.sum_le_sum fun c _ => by
    rcases exec_engine ha h c with he | he <;> rw [he]
    exact Nat.zero_le _

theorem Engine.busy_le_one (e : Engine) : e.busy ≤ 1 := by cases e <;> simp [busy]

theorem engaged_pcOpEn {k : Nat} (h : exec P (.pc .pcOpEn j c k) x s = some (s', p)) :
    engaged s' ≤ engaged s + 1 := by
  obtain ⟨-, -, -, -, he, -⟩ := pcOpEn_effect h
  have hle : ∀ d ∈ Finset.range 3,
      (s'.engine d).busy ≤ (s.engine d).busy + if d = c then 1 else 0 := fun d _ => by
    rw [he, Function.update_apply]
    split
    · exact (Engine.busy_le_one _).trans (Nat.le_add_left _ _)
    · exact Nat.le_add_right _ _
  refine (Finset.sum_le_sum hle).trans ?_
  rw [Finset.sum_add_distrib, Finset.sum_ite_eq']
  refine Nat.add_le_add_left ?_ _
  split <;> simp

theorem resolveCore_args (b : Job) (c : Nat) :
    Field.args.get (resolveCore b c) = Field.args.get b := rfl

theorem resolveCore_chunkCount (cfg : Config) {b b' : Job}
    (h : Field.args.get b' = Field.args.get b) (c c' d : Nat) :
    (resolveCore b' c').chunkCount cfg d = (resolveCore b c).chunkCount cfg d := by
  have hargs : Field.args.get (resolveCore b' c') = Field.args.get (resolveCore b c) := by
    rw [resolveCore_args, resolveCore_args, h]
  have hwidth : (resolveCore b' c').useCoreNum = (resolveCore b c).useCoreNum := rfl
  exact chunkCount_congr cfg hargs hwidth d

theorem share_exec (h : exec P a x s = some (s', p)) (j : JobId) (c : Nat) :
    (s'.jobs j).share P.config c ≤ (s.jobs j).share P.config c := by
  have hargs := exec_args h j
  have hresolved := resolveCore_chunkCount P.config hargs 0 0 c
  by_cases hs : ∃ i n t ci, a = .selectCore i n t ci
  · obtain ⟨i, n, t, ci, rfl⟩ := hs
    obtain ⟨rfl, -⟩ | ⟨rfl, -⟩ := selectCore_effect h
    · exact le_rfl
    · rw [setJob_jobs]
      split
      · rename_i hij
        subst hij
        rw [Job.share, Job.share, resolveCore_chunkCount P.config (b := s.jobs j) rfl 0 ci c,
          resolveCore_chunkCount P.config (resolveCore_args (s.jobs j) ci) 0 0 c]
        exact max_le (le_max_right _ _) (le_max_right _ _)
      · exact le_rfl
  · push Not at hs
    have hwidth : (s'.jobs j).useCoreNum = (s.jobs j).useCoreNum := by
      by_cases hc : a.counts = false
      · exact (counters_fields (exec_counters hc h j)).2.1
      cases a with
      | selectCore i n t ci => exact absurd rfl (hs i n t ci)
      | runDec | jobDone | interruptDec =>
        cases h
        exact field_setJob Job.useCoreNum rfl j
      | _ => exact absurd rfl hc
    rw [Job.share, Job.share, hresolved, chunkCount_congr P.config hargs hwidth]

theorem submitCount_exec (h : exec P a x s = some (s', p)) (j : JobId) (c : Nat) :
    (s.jobs j).submitCount c ≤ (s'.jobs j).submitCount c := by
  by_cases hc : a.counts = false
  · rw [(counters_fields (exec_counters hc h j)).2.2.2.2]
  cases a with
  | jobDone i q d =>
    obtain ⟨rfl, -⟩ := jobDone_effect h
    rw [setJob_jobs]
    split
    · rename_i hij
      subst hij
      dsimp only
      rw [Function.update_apply]
      split
      · rename_i hcd
        subst hcd
        exact Nat.le_succ _
      · exact le_rfl
    · exact le_rfl
  | selectCore i n t ci =>
    obtain ⟨rfl, -⟩ | ⟨rfl, -⟩ := selectCore_effect h
    · exact le_rfl
    · rw [field_setJob Job.submitCount rfl j]
  | runDec | interruptDec =>
    cases h
    rw [field_setJob Job.submitCount rfl j]
  | _ => exact absurd rfl hc

theorem due_exec (h : exec P a x s = some (s', p)) (j : JobId) (c : Nat) :
    (s'.jobs j).due P.config c ≤ (s.jobs j).due P.config c :=
  tsub_le_tsub (share_exec h j c) (submitCount_exec h j c)

theorem owed_exec (h : exec P a x s = some (s', p)) : owed P s' ≤ owed P s := by
  rw [owed, owed, exec_jobNum h]
  exact Finset.sum_le_sum fun j _ => Finset.sum_le_sum fun c _ => due_exec h j c

theorem chunkCount_eq_zero (b : Job) (hc : 3 ≤ c) : b.chunkCount P.config c = 0 := by
  have hM := P.config.maxSubmitNumber_eq
  have hbits : 2 ^ P.config.pcTaskNumberBits ≤ 2 ^ 16 :=
    Nat.pow_le_pow_right (by decide) P.config.pcTaskNumberBits_le
  have hpos : 2 ^ 1 ≤ 2 ^ P.config.pcTaskNumberBits :=
    Nat.pow_le_pow_right (by decide) P.config.pcTaskNumberBits_pos
  rw [Job.chunkCount, Job.getTaskNumber, if_pos hc, toInt,
    Int.bmod_eq_of_le (by omega) (by omega)]
  exact Int.tdiv_eq_zero_of_lt (by omega) (by omega)

theorem owed_jobDone (hj : j < s.jobNum) (h : exec P (.jobDone j r c) x s = some (s', p))
    (hm : (((s.jobs j).submitCount c + 1 : Nat) : Int) < (s.jobs j).chunkCount P.config c) :
    owed P s' + 1 ≤ owed P s := by
  have hc : c < 3 := by
    by_contra hc
    rw [chunkCount_eq_zero _ (by omega)] at hm
    omega
  have hshare : (s.jobs j).submitCount c + 1 < (s.jobs j).share P.config c := by
    rw [Job.share, lt_max_iff]
    omega
  have hlt : (s'.jobs j).due P.config c < (s.jobs j).due P.config c := by
    have hle := share_exec h j c
    have hsub : (s'.jobs j).submitCount c = (s.jobs j).submitCount c + 1 := by
      rw [(jobDone_effect h).1, setJob_jobs, if_pos rfl]
      exact Function.update_self ..
    rw [Job.due, Job.due, hsub]
    omega
  rw [owed, owed, exec_jobNum h]
  refine Finset.sum_lt_sum (fun i _ => Finset.sum_le_sum fun d _ => due_exec h i d)
    ⟨j, Finset.mem_range.mpr hj, ?_⟩
  exact Finset.sum_lt_sum (fun d _ => due_exec h j d) ⟨c, Finset.mem_range.mpr hc, hlt⟩

end Parts

/-- Statements that lead to more than they weigh themselves. -/
def Stmt.heavy : Stmt → Bool
  | .enqueue _ | .pickUp _ | .drain _ | .jobDone _ _ _ => true
  | _ => false

theorem loop_weight (ha : (∃ j i t ci, a = .selectCore j i t ci) ∨ (∃ j i, a = .nextLoop j i) ∨
      (∃ m i, a = .timeoutClean m i) ∨ (∃ j n, a = .waitEvent j n) ∨ (∃ j n, a = .waitElapsed j n))
    (h : exec P a x s = some (s', p)) :
    load (weight P.config.numIrqs) (p : Multiset Stmt) < weight P.config.numIrqs a := by
  rcases ha with ⟨j, i, t, ci, rfl⟩ | ⟨j, i, rfl⟩ | ⟨m, i, rfl⟩ | ⟨j, n, rfl⟩ | ⟨j, n, rfl⟩ <;>
    simp only [exec, selectCore, nextLoop, timeoutClean, waitEvent, waitElapsed,
      Option.some.injEq] at h
  all_goals
    repeat' split at h
    all_goals
      cases h
      try split
      all_goals
        simp only [load_coe_cons, load_coe_nil, weight]
        omega

theorem load_commits_weight (n : Nat) (j : JobId) (m : Nat) :
    load (weight n) (((commitCores m).map (Stmt.subcoreCommit j ·) : List Stmt) : Multiset Stmt) ≤
      75 := by
  have hload : ∀ l : List Nat,
      load (weight n) ((l.map (Stmt.subcoreCommit j ·) : List Stmt) : Multiset Stmt) =
        25 * l.length := fun l => by
    induction l with
    | nil => rfl
    | cons c l ih =>
      rw [List.map_cons, load_coe_cons, ih, List.length_cons, weight]
      ring
  have hlen : (commitCores m).length ≤ 3 := by
    unfold commitCores
    split <;> simp
  rw [hload]
  omega

theorem load_weight_lt (ha : a.heavy = false) (h : exec P a x s = some (s', p)) :
    load (weight P.config.numIrqs) (p : Multiset Stmt) < weight P.config.numIrqs a := by
  by_cases hl : (∃ j i t ci, a = .selectCore j i t ci) ∨ (∃ j i, a = .nextLoop j i) ∨
      (∃ m i, a = .timeoutClean m i) ∨ (∃ j n, a = .waitEvent j n) ∨ (∃ j n, a = .waitElapsed j n)
  · exact loop_weight hl h
  by_cases hp : ∃ g j c k, a = .pc g j c k
  · obtain ⟨g, j, c, k, rfl⟩ := hp
    cases g <;> cases h <;> simp [weight]
  by_cases hj : ∃ j, a = .jobCommit j
  · obtain ⟨j, rfl⟩ := hj
    cases h
    have := load_commits_weight P.config.numIrqs j (s.jobs j).args.coreMask
    simp only [weight]
    omega
  push Not at hl hp hj
  cases exec_flow h
  case jobCommit i l => exact absurd rfl (hj i)
  case pc g g' i c k => exact absurd rfl (hp g i c k)
  case pcOpEn i c k => exact absurd rfl (hp .pcOpEn i c k)
  case selectCore i n t t' c c' => exact absurd rfl (hl.1 i n t c)
  case selectCoreEnd i n t c => exact absurd rfl (hl.1 i n t c)
  case nextLoopCore i n => exact absurd rfl (hl.2.1 i n)
  case nextLoop i n => exact absurd rfl (hl.2.1 i n)
  case nextLoopEnd i n => exact absurd rfl (hl.2.1 i n)
  case timeoutCleanJob m i k => exact absurd rfl (hl.2.2.1 m i)
  case timeoutClean m i => exact absurd rfl (hl.2.2.1 m i)
  case timeoutCleanEnd m i => exact absurd rfl (hl.2.2.1 m i)
  case waitEvent i n r => exact absurd rfl (hl.2.2.2.1 i n)
  case waitEventTimeout i n => exact absurd rfl (hl.2.2.2.1 i n)
  case waitElapsedAgain i n => exact absurd rfl (hl.2.2.2.2 i n)
  case waitElapsed i n => exact absurd rfl (hl.2.2.2.2 i n)
  all_goals
    first
    | cases ha; done
    | simp only [load_coe_cons, load_coe_nil, weight]
      omega

/-- The job and the core that a statement of a commit or of an interrupt handler works for. -/
def Stmt.served : Stmt → Option (JobId × Nat)
  | .runDec j | .jobCommit j => some (j, 0)
  | .subcoreCommit j c | .commitPc j c | .pc _ j c _ => some (j, c)
  | .irqStatus j c | .irqCheck j c _ | .irqClear c (.done j) | .jobDone j _ c => some (j, c)
  | _ => none

structure Placed (s : Dev) (B : Multiset Stmt) : Prop where
  served : ∀ a ∈ B, ∀ j c, a.served = some (j, c) → j < s.jobNum ∧ c < 3
  engine : ∀ c j k, s.engine c = .running j k → c < 3

theorem commitCores_lt {m : Nat} (hc : c ∈ commitCores m) : c < 3 := by
  unfold commitCores at hc
  split at hc <;> simp at hc <;> omega

theorem exec_served {b : Stmt} (h : exec P a x s = some (s', p)) (hb : b ∈ p)
    (hj : b.served = some (j, c)) : a.served = some (j, c) ∨ s.slot c = some j ∨
      (∃ d, j ∈ s.todoList d) ∧ c = 0 ∨ a = .jobCommit j ∧ c < 3 := by
  cases a with
  | irqEnter d =>
    simp only [exec, irqEnter, Option.some.injEq] at h
    split at h <;> cases h <;> obtain rfl := List.mem_singleton.mp hb
    · cases hj
    · cases hj
      exact .inr (.inl ‹_›)
  | pickUp d =>
    obtain ⟨-, rfl, -⟩ | ⟨i, rest, -, ht, -, rfl, -⟩ := pickUp_effect h
    · cases hb
    · obtain rfl := List.mem_singleton.mp hb
      cases hj
      exact .inr (.inr (.inl ⟨⟨d, ht ▸ List.mem_cons_self⟩, rfl⟩))
  | jobCommit i =>
    cases h
    obtain ⟨d, hd, rfl⟩ := List.mem_map.mp hb
    cases hj
    exact .inr (.inr (.inr ⟨rfl, commitCores_lt hd⟩))
  | _ =>
    left
    cases exec_flow h <;>
      rcases hb with _ | ⟨_, _ | ⟨_, _ | ⟨_, ⟨⟩⟩⟩⟩ <;> first | exact hj | cases hj

theorem Placed.exec (hQ : Queued P s (a ::ₘ R)) (hI : Placed s (a ::ₘ R))
    (h : Rknpu.exec P a x s = some (s', p)) : Placed s' ((p : Multiset Stmt) + R) := by
  have ha := hI.served a (Multiset.mem_cons_self a R)
  refine ⟨fun b hb j c hj => ?_, fun c j k he => ?_⟩
  · rw [exec_jobNum h]
    rcases Multiset.mem_add.mp hb with hb | hb
    · rcases exec_served h (Multiset.mem_coe.mp hb) hj with hs | hs | ⟨⟨d, ht⟩, rfl⟩ | ⟨rfl, hc⟩
      · exact ha j c hs
      · exact ⟨hQ.lt_jobNum (hQ.enqueued_of_slot hs),
          inMask_lt (Bool.and_eq_true_iff.mp (hQ.needs_of_picked (hQ.slots j c hs))).2⟩
      · exact ⟨hQ.lt_jobNum (hQ.enqueued_of_todo ht), by decide⟩
      · exact ⟨(ha j 0 rfl).1, hc⟩
    · exact hI.served b (Multiset.mem_cons_of_mem hb) j c hj
  · by_cases hop : ∃ i d n, a = .pc .pcOpEn i d n
    · obtain ⟨i, d, n, rfl⟩ := hop
      obtain ⟨-, -, -, -, heng, -⟩ := pcOpEn_effect h
      rw [heng, Function.update_apply] at he
      split at he
      · rename_i hcd
        exact hcd ▸ (ha i d rfl).2
      · exact hI.engine c j k he
    · push Not at hop
      rcases exec_engine hop h c with heng | heng <;> rw [heng] at he
      · exact hI.engine c j k he
      · cases he

theorem occur_served {e : Occurrence} {b : Stmt} (h : occur P e s = some (s', p)) (hb : b ∈ p)
    (hj : b.served = some (j, c)) : s.slot c = some j := by
  cases e with
  | completion d =>
    obtain ⟨i, k, -, hs, rfl, -⟩ := completion_effect h
    obtain rfl := List.mem_singleton.mp hb
    cases hj
    exact hs
  | _ =>
    simp only [occur, spawn] at h
    repeat' split at h
    all_goals cases h <;> rcases hb with _ | ⟨_, ⟨⟩⟩ <;> cases hj

theorem Placed.occur {e : Occurrence} (hQ : Queued P s R) (hI : Placed s R)
    (h : Rknpu.occur P e s = some (s', p)) : Placed s' ((p : Multiset Stmt) + R) := by
  refine ⟨fun b hb j c hj => ?_, fun c j k he => ?_⟩
  · rcases Multiset.mem_add.mp hb with hb | hb
    · have hs := occur_served h (Multiset.mem_coe.mp hb) hj
      exact ⟨(hQ.lt_jobNum (hQ.enqueued_of_slot hs)).trans_le (occur_jobNum h),
        inMask_lt (Bool.and_eq_true_iff.mp (hQ.needs_of_picked (hQ.slots j c hs))).2⟩
    · obtain ⟨hlt, hc⟩ := hI.served b hb j c hj
      exact ⟨hlt.trans_le (occur_jobNum h), hc⟩
  · rcases occur_report h with ⟨d, i, n, -, heng, -⟩ | ⟨heng, -⟩ <;> rw [heng] at he
    · rw [Function.update_apply] at he
      split at he
      · cases he
      · exact hI.engine c j k he
    · exact hI.engine c j k he

theorem Placed.reach {G : Guard Dev Stmt Int Occurrence} {C : Conf Dev Stmt}
    (hC : Reach (driver P) G Dev.init C) : Placed C.shared C.pending :=
  hC.invariant_with (Queued P) Placed (fun _ hC => Queued.reach hC)
    ⟨by simp, by simp [Dev.init]⟩ (fun _ _ _ _ _ _ hQ hI _ h => hI.exec hQ h)
    (fun _ _ _ _ _ hQ hI _ h => hI.occur hQ h)

/-- The weight of the statements that take the place of one goes down, or the lists or the
chunks that are left make up for it. -/
theorem weight_exec (hQ : Queued P s (a ::ₘ R)) (hN : Nodes P s (a ::ₘ R))
    (hP : Placed s (a ::ₘ R)) (h : exec P a x s = some (s', p)) :
    load (weight P.config.numIrqs) (p : Multiset Stmt) + 77 * queued P s' + 13 * engaged s' +
        14 * owed P s' <
      weight P.config.numIrqs a + 77 * queued P s + 13 * engaged s + 14 * owed P s := by
  have howed := owed_exec h
  by_cases hop : ∃ j c k, a = .pc .pcOpEn j c k
  · obtain ⟨j, c, k, rfl⟩ := hop
    have hq := queued_exec (P := P) (by simp) h
    have he := engaged_pcOpEn h
    obtain ⟨-, -, -, -, -, -, rfl⟩ := pcOpEn_effect h
    simp only [load_coe_nil, weight]
    omega
  push Not at hop
  have he := engaged_exec (P := P) hop h
  by_cases ha : a.heavy = false
  · have hq := queued_exec (P := P) (by rintro j rfl; cases ha) h
    have hw := load_weight_lt ha h
    omega
  cases a with
  | enqueue j =>
    have hq := queued_enqueue h
    obtain ⟨-, rfl, -⟩ := enqueue_effect h
    simp only [load_coe_cons, load_coe_nil, weight]
    omega
  | pickUp c =>
    have hq := queued_exec (P := P) (by simp) h
    obtain ⟨rfl, rfl, -⟩ | ⟨j, rest, -, hj, -, rfl, -, -, ht⟩ := pickUp_effect h
    · simp only [load_coe_nil, weight]
      omega
    · have hlt : queued P s' + 1 ≤ queued P s := by
        refine queued_lt (c := c) (fun d => (exec_todo (by simp) h d).length_le)
          (lt_numIrqs_of_todo hQ (hj ▸ List.mem_cons_self)) ?_
        rw [ht, Function.update_self, hj]
        exact Nat.lt_succ_self _
      simp only [load_coe_cons, load_coe_nil, weight]
      omega
  | drain i =>
    have hlen := fun d => (exec_todo (by simp) h d).length_le
    cases hi : s.todoList i with
    | nil =>
      have hq := queued_exec (P := P) (by simp) h
      simp only [exec, drain, hi] at h
      cases h
      simp only [load_coe_nil, weight]
      omega
    | cons j rest =>
      have hm : j ∈ s.todoList i := hi ▸ List.mem_cons_self
      have hlt : queued P s' + 1 ≤ queued P s := by
        refine queued_lt hlen (lt_numIrqs_of_todo hQ hm) ?_
        have ht := (clears_effect (j := j) (by simp [Dev.clears, hi]) h).1 i
        rw [if_pos ⟨lt_numIrqs_of_todo hQ hm, by rw [hN.linked j i hm]; decide⟩] at ht
        rw [ht, List.length_erase_of_mem hm]
        have := List.length_pos_of_mem hm
        omega
      simp only [exec, drain, hi] at h
      cases h
      simp only [load_coe_cons, load_coe_nil, weight]
      omega
  | jobDone j r c =>
    have hq := queued_exec (P := P) (by simp) h
    have hp := (jobDone_effect h).2
    split at hp
    · have hlt := owed_jobDone (hP.served _ (Multiset.mem_cons_self _ R) j c rfl).1 h ‹_›
      subst hp
      simp only [load_coe_cons, load_coe_nil, weight]
      omega
    · subst hp
      simp only [load_coe_cons, load_coe_nil, weight]
      omega
  | _ => exact absurd rfl ha

theorem rank_exec (hQ : Queued P s (a ::ₘ R)) (hN : Nodes P s (a ::ₘ R))
    (hP : Placed s (a ::ₘ R)) (h : exec P a x s = some (s', p)) :
    rank P s' ((p : Multiset Stmt) + R) < rank P s (a ::ₘ R) := by
  have := weight_exec hQ hN hP h
  rw [rank, rank, load_add, load_cons]
  omega

/-- The hardware completes a chunk, whether the interrupt handler is told at once or not. -/
def Occurrence.completes : Occurrence → Prop
  | .completion _ | .hwComplete _ _ => True
  | _ => False

theorem owed_congr (hn : s'.jobNum = s.jobNum)
    (hj : ∀ j, Field.args.get (s'.jobs j) = Field.args.get (s.jobs j) ∧
      (s'.jobs j).useCoreNum = (s.jobs j).useCoreNum ∧
      (s'.jobs j).submitCount = (s.jobs j).submitCount) : owed P s' = owed P s := by
  rw [owed, owed, hn]
  refine Finset.sum_congr rfl fun j _ => Finset.sum_congr rfl fun c _ => ?_
  obtain ⟨ha, hu, hs⟩ := hj j
  rw [Job.due, Job.due, Job.share, Job.share, hs, chunkCount_congr P.config ha hu,
    resolveCore_chunkCount P.config ha 0 0 c]

theorem completes_effect {e : Occurrence} (he : e.completes) (h : occur P e s = some (s', p)) :
    load (weight P.config.numIrqs) (p : Multiset Stmt) ≤ 12 ∧ s'.todoList = s.todoList ∧
      owed P s' = owed P s ∧
      ∃ c j k, s.engine c = .running j k ∧ s'.engine = Function.update s.engine c (.complete j k) := by
  have hargs : ∀ k, Field.args.get (s'.jobs k) = Field.args.get (s.jobs k) := fun k =>
    occur_get (by cases e <;> simp_all [Occurrence.completes, Occurrence.spawns]) (by simp) h
  cases e with
  | completion c =>
    obtain ⟨j, k, heng, -, rfl, hn, hjob, ht, -, heng', -⟩ := completion_effect h
    refine ⟨by simp [weight], ht, owed_congr hn fun i => ?_, c, j, k, heng, heng'⟩
    exact ⟨hargs i, (counters_fields (hjob i)).2.1, (counters_fields (hjob i)).2.2.2.2⟩
  | hwComplete c bits =>
    obtain ⟨j, k, heng, rfl, hn, hjob, ht, -, heng', -⟩ := hwComplete_effect h
    exact ⟨Nat.zero_le _, ht, owed_congr hn fun i => by simp [hjob], c, j, k, heng, heng'⟩
  | _ => exact absurd he id

theorem rank_occur {e : Occurrence} (hP : Placed s R) (he : e.completes)
    (h : occur P e s = some (s', p)) : rank P s' ((p : Multiset Stmt) + R) < rank P s R := by
  obtain ⟨hw, ht, ho, c, j, k, heng, heng'⟩ := completes_effect he h
  have hlt : engaged s' < engaged s := by
    refine Finset.sum_lt_sum (fun d _ => ?_) ⟨c, Finset.mem_range.mpr (hP.engine c j k heng), ?_⟩
    · rw [heng', Function.update_apply]
      split
      · exact Nat.zero_le _
      · exact le_rfl
    · rw [heng', Function.update_self, heng]
      exact Nat.zero_lt_one
  rw [rank, rank, load_add, queued, queued, ht, ho]
  omega

end Rknpu

import Rknpu.Weights

namespace Rknpu

open Interleaving

def Job.counters (b : Job) : Nat × Nat × Int × Int × (Nat → Nat) :=
  (b.args.coreMask, b.useCoreNum, b.runCount, b.interruptCount, b.submitCount)

def Event.aside : Event → Bool
  | .enqueue _ | .pickup _ _ | .release _ _ => false
  | _ => true

def Event.queues : Event → Bool
  | .enqueue _ | .pickup _ _ => true
  | _ => false

def Dev.mask (s : Dev) (j : JobId) : Nat := (s.jobs j).args.coreMask

/-- A step that moves no job on: lists, slots and engines hold no more than before. -/
structure Calm (s s' : Dev) : Prop where
  jobNum : s'.jobNum = s.jobNum
  job : ∀ j, (s'.jobs j).counters = (s.jobs j).counters
  todo : ∀ c, (s'.todoList c).Sublist (s.todoList c)
  slot : ∀ j c, s'.slot c = some j → s.slot c = some j
  engine : ∀ c, s'.engine c = s.engine c ∨ s'.engine c = .idle
  log : ∃ es, s'.log = s.log ++ es ∧ ∀ e ∈ es, e.aside

/-- A step that enqueues, picks up and resolves no job. -/
structure Quiet (s s' : Dev) : Prop where
  jobNum : s'.jobNum = s.jobNum
  mask : ∀ j, s'.mask j = s.mask j
  useCoreNum : ∀ j, (s'.jobs j).useCoreNum = (s.jobs j).useCoreNum
  runCount : ∀ j, (s'.jobs j).runCount = (s.jobs j).runCount
  todo : ∀ c, (s'.todoList c).Sublist (s.todoList c)
  slot : ∀ j c, s'.slot c = some j → s.slot c = some j
  log : ∃ es, s'.log = s.log ++ es ∧ ∀ e ∈ es, e.queues = false

variable {P : Platform} {s s' : Dev}

theorem field_update {β : Type} {jobs : JobId → Job} {j : JobId} {b : Job} (f : Job → β)
    (h : f b = f (jobs j)) (i : JobId) : f (Function.update jobs j b i) = f (jobs i) := by
  by_cases hi : i = j
  · subst hi; simpa using h
  · simp [hi]

theorem counters_update {jobs : JobId → Job} {j : JobId} {b : Job}
    (h : b.counters = (jobs j).counters) (i : JobId) :
    (Function.update jobs j b i).counters = (jobs i).counters := field_update _ h i

theorem field_setJob {β : Type} (g : Job → β) {j : JobId} {f : Job → Job}
    (h : g (f (s.jobs j)) = g (s.jobs j)) (k : JobId) : g ((s.setJob j f).jobs k) = g (s.jobs k) :=
  field_update g h k

theorem setJob_jobs (s : Dev) (j : JobId) (f : Job → Job) (k : JobId) :
    (s.setJob j f).jobs k = if k = j then f (s.jobs j) else s.jobs k := by
  by_cases hk : k = j <;> simp [Dev.setJob, hk]

theorem counters_fields {b b' : Job} (h : b'.counters = b.counters) :
    b'.args.coreMask = b.args.coreMask ∧ b'.useCoreNum = b.useCoreNum ∧ b'.runCount = b.runCount ∧
      b'.interruptCount = b.interruptCount ∧ b'.submitCount = b.submitCount := by
  simpa only [Job.counters, Prod.mk.injEq] using h

theorem Calm.of_eq (hn : s'.jobNum = s.jobNum) (hj : ∀ j, (s'.jobs j).counters = (s.jobs j).counters)
    (ht : s'.todoList = s.todoList) (hs : s'.slot = s.slot) (he : s'.engine = s.engine)
    (hl : s'.log = s.log) : Calm s s' :=
  ⟨hn, hj, fun c => by rw [ht], fun j c h => by rwa [hs] at h, fun c => .inl (by rw [he]), [],
    by simp [hl], by simp⟩

theorem Calm.refl (s : Dev) : Calm s s := .of_eq rfl (fun _ => rfl) rfl rfl rfl rfl

theorem Calm.trans {s₁ s₂ s₃ : Dev} (h : Calm s₁ s₂) (h' : Calm s₂ s₃) : Calm s₁ s₃ := by
  obtain ⟨es, he, ha⟩ := h.log
  obtain ⟨es', he', ha'⟩ := h'.log
  refine ⟨h'.jobNum.trans h.jobNum, fun j => (h'.job j).trans (h.job j),
    fun c => (h'.todo c).trans (h.todo c), fun j c hc => h.slot j c (h'.slot j c hc),
    fun c => ?_, es ++ es', by rw [he', he, List.append_assoc], ?_⟩
  · rcases h'.engine c with hc | hc
    · rw [hc]; exact h.engine c
    · exact .inr hc
  · intro e he
    rcases List.mem_append.mp he with he | he
    · exact ha e he
    · exact ha' e he

theorem calm_setJob (s : Dev) (j : JobId) (f : Job → Job)
    (h : (f (s.jobs j)).counters = (s.jobs j).counters) : Calm s (s.setJob j f) :=
  .of_eq rfl (counters_update h) rfl rfl rfl rfl

theorem calm_record (s : Dev) (e : Event) (h : e.aside) : Calm s (s.record e) :=
  ⟨rfl, fun _ => rfl, fun _ => .refl _, fun _ _ h => h, fun _ => .inl rfl, [e], rfl, by simpa⟩

theorem calm_write (s : Dev) (c : Nat) (r : Reg) (v : Word) : Calm s (s.write c r v) :=
  .of_eq rfl (fun _ => rfl) rfl rfl rfl rfl

theorem calm_scheduleWork (s : Dev) (j : JobId) : Calm s (s.scheduleWork j) :=
  ⟨rfl, fun _ => rfl, fun _ => .refl _, fun _ _ h => h, fun _ => .inl rfl, _, rfl, by
    simp [Event.aside]⟩

theorem aside_unlinkEvents (b : Job) (j : JobId) (c : Nat) : ∀ e ∈ unlinkEvents b j c, e.aside := by
  unfold unlinkEvents
  split <;> simp [Event.aside]

theorem calm_unlinkAll (s : Dev) (j : JobId) : Calm s (unlinkAll P s j) := by
  refine ⟨rfl, counters_update rfl, fun c => ?_, fun _ _ h => h, fun _ => .inl rfl, _, rfl, ?_⟩
  · simp only [unlinkAll]
    split
    · exact List.erase_sublist
    · exact .refl _
  · intro e he
    obtain ⟨c, -, he⟩ := List.mem_flatMap.mp he
    exact aside_unlinkEvents _ _ _ e he

theorem calm_cancel (s : Dev) (j : JobId) (i : Nat) : Calm s (cancel P s j i).1 := by
  refine (calm_unlinkAll (P := P) s j).trans ⟨rfl, fun _ => rfl, fun _ => .refl _, fun k c h => ?_,
    fun _ => .inl rfl, [], by simp [cancel], by simp⟩
  simp only [cancel] at h
  split at h
  · cases h
  · exact h

theorem calm_waitUnlink (s : Dev) (j : JobId) (ret : Int) : Calm s (waitUnlink s j ret).1 := by
  refine ⟨rfl, counters_update rfl, fun c => ?_, fun _ _ h => h, fun _ => .inl rfl, [],
    by simp [waitUnlink, Dev.setJob], by simp⟩
  simp only [waitUnlink]
  split
  · exact List.erase_sublist
  · exact .refl _

theorem calm_abortCores (s : Dev) (j : JobId) : Calm s (abortCores P s j).1 := by
  refine ⟨rfl, fun _ => rfl, fun _ => .refl _, fun k c h => ?_, fun _ => .inl rfl, [],
    by simp [abortCores], by simp⟩
  simp only [abortCores] at h
  split at h
  · cases h
  · exact h

theorem calm_resetHw (s : Dev) (x : Int) : Calm s (resetHw s x).1 := by
  unfold resetHw
  split
  · exact ⟨rfl, fun _ => rfl, fun _ => .refl _, fun _ _ h => h, fun _ => .inr rfl, [],
      by simp, by simp⟩
  · exact .of_eq rfl (fun _ => rfl) rfl rfl rfl rfl

/-- Statements that no count is about. -/
def Stmt.light : Stmt → Bool
  | .fenceIn _ | .fenceWait _ _ | .fenceOut _ | .fenceFd _ | .dispatch _ | .jobSchedule _
  | .selectCore _ _ _ _ | .domainGet _ | .enqueue _ | .runDec _ | .jobCommit _
  | .subcoreCommit _ _ | .commitPc _ _ | .pc _ _ _ _ | .jobDone _ _ _ | .releaseCore _ _ _
  | .interruptDec _ _ _ => false
  | _ => true

/-- Those of them that lead only to such and move no job on. -/
def Stmt.plain : Stmt → Bool
  | .pickUp _ | .irqClear _ (.done _) => false
  | a => a.light

theorem light_of_plain {a : Stmt} (h : a.plain) : a.light := by
  cases a with
  | irqClear => rfl
  | pickUp => rfl
  | _ => exact h

theorem calm_recovery {a : Stmt} {x : Int} {p : List Stmt}
    (h : exec P a x s = some (s', p))
    (ha : ∃ j i, a = .cancel j i ∨ a = .cancelWork j i ∨ a = .drain i ∨ a = .drainWork j i ∨
      a = .timeoutClean j i ∨ a = .softReset ∨ a = .resetMark ∨ a = .resetHw ∨ a = .resetEnd ∨
      a = .stateInit ∨ a = .resetUnlock) :
    Calm s s' ∧ ∀ b ∈ p, b.light := by
  obtain ⟨j, i, ha⟩ := ha
  rcases ha with rfl | rfl | rfl | rfl | rfl | rfl | rfl | rfl | rfl | rfl | rfl <;>
    simp only [exec, Option.some.injEq] at h
  · cases h
    exact ⟨calm_cancel s j i, by simp [Stmt.light]⟩
  · cases h
    exact ⟨calm_scheduleWork s j, by simp [Stmt.light]⟩
  · unfold drain at h
    split at h
    · cases h; exact ⟨.refl s, by simp⟩
    · cases h; exact ⟨calm_unlinkAll s _, by simp [Stmt.light]⟩
  · cases h
    exact ⟨calm_scheduleWork s j, by simp [Stmt.light]⟩
  · unfold timeoutClean at h
    repeat' split at h
    all_goals
      cases h
      exact ⟨.refl s, by simp [Stmt.light]⟩
  · unfold softReset at h
    split at h
    · cases h; exact ⟨.refl s, by simp⟩
    · cases h; exact ⟨.of_eq rfl (fun _ => rfl) rfl rfl rfl rfl, by simp [Stmt.light]⟩
  · cases h
    exact ⟨.of_eq rfl (fun _ => rfl) rfl rfl rfl rfl, by simp [Stmt.light]⟩
  · refine ⟨?_, ?_⟩
    · have hc := calm_resetHw s x
      rwa [h] at hc
    · unfold resetHw at h
      split at h <;> cases h <;> simp [Stmt.light]
  · cases h
    exact ⟨.of_eq rfl (fun _ => rfl) rfl rfl rfl rfl, by simp [Stmt.light]⟩
  · cases h
    refine ⟨?_, by simp [Stmt.light]⟩
    split
    · exact (calm_write _ _ _ _).trans (calm_write _ _ _ _)
    · exact .refl s
  · cases h
    exact ⟨.of_eq rfl (fun _ => rfl) rfl rfl rfl rfl, by simp⟩

theorem calm_wait {a : Stmt} {x : Int} {p : List Stmt}
    (h : exec P a x s = some (s', p))
    (ha : ∃ j n r, a = .waitEvent j n ∨ a = .waitElapsed j n ∨ a = .waitLastTask j r ∨
      a = .waitUnlink j r ∨ a = .waitStatus j r ∨ a = .waitFlags j ∨ a = .waitReturn j r ∨
      a = .jobAbort j ∨ a = .abortCores j ∨ a = .abortReset j ∨ a = .jobFree j ∨
      a = .submitAsync j ∨ a = .submitWait j ∨ a = .submitResult j ∨ a = .submitReturn j r) :
    Calm s s' ∧ ∀ b ∈ p, b.light := by
  obtain ⟨j, n, r, ha⟩ := ha
  rcases ha with rfl | rfl | rfl | rfl | rfl | rfl | rfl | rfl | rfl | rfl | rfl | rfl | rfl |
    rfl | rfl <;> simp only [exec, Option.some.injEq] at h
  · simp only [waitEvent] at h
    repeat' split at h
    all_goals
      cases h
      try exact ⟨.refl s, by simp [Stmt.light]⟩
  · cases h
    exact ⟨.refl s, by split <;> simp [Stmt.light]⟩
  · cases h
    exact ⟨.refl s, by split <;> simp [Stmt.light]⟩
  · cases h
    exact ⟨calm_waitUnlink s j r, by simp [Stmt.light]⟩
  · simp only [waitStatus] at h
    split at h
    · cases h; exact ⟨calm_setJob _ _ _ rfl, by simp [Stmt.light]⟩
    · cases h; exact ⟨.refl s, by simp [Stmt.light]⟩
  · simp only [waitFlags] at h
    split at h
    · cases h; exact ⟨calm_setJob _ _ _ rfl, by simp [Stmt.light]⟩
    · cases h; exact ⟨.refl s, by simp [Stmt.light]⟩
  · cases h
    exact ⟨calm_setJob _ _ _ rfl, by simp [Stmt.light]⟩
  · cases h
    exact ⟨calm_record _ _ rfl, by simp [Stmt.light]⟩
  · cases h
    exact ⟨calm_abortCores s j, by simp [Stmt.light]⟩
  · cases h
    exact ⟨.refl s, by split <;> simp [Stmt.light]⟩
  · cases h
    exact ⟨⟨rfl, fun _ => rfl, fun _ => .refl _, fun _ _ h => h, fun _ => .inl rfl, _, rfl, by
      simp [Event.aside]⟩, by simp⟩
  · cases h
    exact ⟨.refl s, by split <;> simp [Stmt.light]⟩
  · cases h
    exact ⟨.refl s, by split <;> simp [Stmt.light]⟩
  · cases h
    exact ⟨.refl s, by split <;> simp [Stmt.light]⟩
  · cases h
    exact ⟨calm_record _ _ rfl, by simp⟩

theorem exec_calm {a : Stmt} {x : Int} {p : List Stmt} (ha : a.plain)
    (h : exec P a x s = some (s', p)) : Calm s s' ∧ ∀ b ∈ p, b.light := by
  cases a <;> simp only [Stmt.plain, Stmt.light, Bool.false_eq_true] at ha
  case cancel | cancelWork | drain | drainWork | timeoutClean | softReset | resetMark | resetHw
      | resetEnd | stateInit | resetUnlock =>
    exact calm_recovery h (by simp)
  case waitEvent | waitElapsed | waitLastTask | waitUnlink | waitStatus | waitFlags | waitReturn
      | jobAbort | abortCores | abortReset | jobFree | submitAsync | submitWait | submitResult
      | submitReturn =>
    exact calm_wait h (by simp)
  all_goals simp only [exec, Option.some.injEq] at h
  case nextLoop j i =>
    simp only [nextLoop] at h
    repeat' split at h
    all_goals
      cases h
      exact ⟨.refl s, by simp [Stmt.light]⟩
  case jobNext c =>
    simp only [jobNext] at h
    split at h <;> cases h <;> exact ⟨.refl s, by simp [Stmt.light]⟩
  case doneWidth | wakeUp => cases h; exact ⟨.refl s, by simp [Stmt.light]⟩
  case donePut => cases h; exact ⟨calm_record _ _ rfl, by simp [Stmt.light]⟩
  case doneFlag j r q =>
    cases h
    exact ⟨(calm_setJob s j _ rfl).trans (calm_record _ _ rfl), by simp [Stmt.light]⟩
  case doneRet => cases h; exact ⟨calm_setJob _ _ _ rfl, by simp [Stmt.light]⟩
  case doneFence j q =>
    cases h
    refine ⟨?_, by simp [Stmt.light]⟩
    split
    · exact ⟨rfl, fun _ => rfl, fun _ => .refl _, fun _ _ h => h, fun _ => .inl rfl, _, rfl, by
        simp [Event.aside]⟩
    · exact .refl s
  case doneAsync j q =>
    cases h
    refine ⟨?_, by simp [Stmt.light]⟩
    split
    · exact calm_scheduleWork s j
    · exact .refl s
  case irqEnter c =>
    simp only [irqEnter] at h
    split at h
    · cases h; exact ⟨.refl s, by simp [Stmt.light]⟩
    · cases h; exact ⟨calm_setJob _ _ _ rfl, by simp [Stmt.light]⟩
  case irqStatus => cases h; exact ⟨calm_setJob _ _ _ rfl, by simp [Stmt.light]⟩
  case irqCheck j c st =>
    simp only [irqCheck] at h
    split at h <;> cases h <;> exact ⟨.refl s, by simp [Stmt.light]⟩
  case irqClear c e =>
    cases h
    refine ⟨calm_write _ _ _ _, ?_⟩
    cases e <;> simp_all [Stmt.light]
  case irqReturn c =>
    cases h
    exact ⟨.of_eq rfl (fun _ => rfl) rfl rfl rfl rfl, by simp⟩

theorem Calm.fields (hs : Calm s s') (j : JobId) : s'.mask j = s.mask j ∧
    (s'.jobs j).useCoreNum = (s.jobs j).useCoreNum ∧ (s'.jobs j).runCount = (s.jobs j).runCount ∧
    (s'.jobs j).interruptCount = (s.jobs j).interruptCount ∧
    (s'.jobs j).submitCount = (s.jobs j).submitCount := counters_fields (hs.job j)

theorem Calm.quiet (hs : Calm s s') : Quiet s s' := by
  obtain ⟨es, hlog, hes⟩ := hs.log
  refine ⟨hs.jobNum, fun j => (hs.fields j).1, fun j => (hs.fields j).2.1,
    fun j => (hs.fields j).2.2.1, hs.todo, hs.slot, es, hlog, fun e he => ?_⟩
  have := hes e he
  cases e <;> simp_all [Event.aside, Event.queues]

def Stmt.settled : Stmt → Bool
  | .fenceIn _ | .fenceWait _ _ | .fenceOut _ | .fenceFd _ | .dispatch _ | .jobSchedule _
  | .selectCore _ _ _ _ | .domainGet _ | .enqueue _ | .runDec _ => false
  | _ => true

theorem settled_of_light {a : Stmt} (h : a.light) : a.settled := by
  cases a <;> first | rfl | exact h

theorem quiet_setJob (s : Dev) (j : JobId) (f : Job → Job)
    (hm : (f (s.jobs j)).args.coreMask = (s.jobs j).args.coreMask)
    (hu : (f (s.jobs j)).useCoreNum = (s.jobs j).useCoreNum)
    (hr : (f (s.jobs j)).runCount = (s.jobs j).runCount) : Quiet s (s.setJob j f) := by
  refine ⟨rfl, fun i => ?_, fun i => ?_, fun i => ?_, fun _ => .refl _, fun _ _ h => h, [],
    by simp [Dev.setJob], by simp⟩ <;>
  · by_cases hi : i = j
    · subst hi
      simpa [Dev.mask, Dev.setJob] using ‹_›
    · simp [Dev.mask, Dev.setJob, hi]

theorem light_weights {a : Stmt} (h : a.light) (j : JobId) (c : Nat) :
    interruptDecW j a = 0 ∧ jobCommitW j a = 0 ∧ commitW j c a = 0 ∧ jobDoneW j c a = 0 ∧
      releaseW j c a = 0 := by
  cases a <;> first | (cases h; done) | exact ⟨rfl, rfl, rfl, rfl, rfl⟩

theorem settled_weights {a : Stmt} (h : a.settled) (j : JobId) :
    preW j a = 0 ∧ resolvedW j a = 0 ∧ runDecW j a = 0 := by
  cases a <;> first | (cases h; done) | exact ⟨rfl, rfl, rfl⟩

theorem load_light {f : Stmt → Nat} (hf : ∀ a : Stmt, a.light → f a = 0) {B : Multiset Stmt}
    (hB : ∀ b ∈ B, b.light) : load f B = 0 :=
  load_eq_zero f fun b hb => hf b (hB b hb)

theorem load_settled {f : Stmt → Nat} (hf : ∀ a : Stmt, a.settled → f a = 0) {B : Multiset Stmt}
    (hB : ∀ b ∈ B, b.settled) : load f B = 0 :=
  load_eq_zero f fun b hb => hf b (hB b hb)

theorem Lighter.of_light {A B : Multiset Stmt} (hA : ∀ a ∈ A, a.light) (hB : ∀ b ∈ B, b.light) :
    Lighter A B := by
  have hr : ∀ D : Multiset Stmt, (∀ a ∈ D, a.light) → ∀ j, load (runDecW j) D = 0 :=
    fun D hD j => load_light (fun _ h => (settled_weights (settled_of_light h) j).2.2) hD
  have hi : ∀ D : Multiset Stmt, (∀ a ∈ D, a.light) → ∀ j, load (interruptDecW j) D = 0 :=
    fun D hD j => load_light (fun _ h => (light_weights h j 0).1) hD
  constructor
  · exact fun j => (load_light (fun _ h => (settled_weights (settled_of_light h) j).1) hB).le.trans
      (Nat.zero_le _)
  · exact fun j => (hr B hB j).trans (hr A hA j).symm
  · exact fun j => (hi B hB j).trans (hi A hA j).symm
  · exact fun j => (load_light (fun _ h => (light_weights h j 0).2.1) hB).le.trans (Nat.zero_le _)
  · exact fun j c => (load_light (fun _ h => (light_weights h j c).2.2.1) hB).le.trans
      (Nat.zero_le _)
  · exact fun j c => (load_light (fun _ h => (light_weights h j c).2.2.2.1) hB).le.trans
      (Nat.zero_le _)
  · exact fun j c => (load_light (fun _ h => (light_weights h j c).2.2.2.2) hB).le.trans
      (Nat.zero_le _)

/-- The statements of `rknpu_submit` before it schedules the job. -/
def Stmt.submits (j : JobId) : Stmt → Bool
  | .fenceIn i | .fenceWait i _ | .fenceOut i | .fenceFd i | .dispatch i => i == j
  | _ => false

theorem exec_submits {j : JobId} {a : Stmt} {x : Int} {p : List Stmt} (ha : a.submits j)
    (h : exec P a x s = some (s', p)) : Calm s s' ∧
      (p = [.jobSchedule j, .submitWait j] ∨
        (∃ m, p = [.timeoutClean m 0, .jobSchedule j, .submitAsync j]) ∨
        (∃ b, p = [b] ∧ b.submits j) ∨ ∃ r, p = [.jobFree j, .submitReturn j r]) := by
  cases a <;> simp only [Stmt.submits, beq_iff_eq, Bool.false_eq_true] at ha <;> subst ha <;>
    simp only [exec, Option.some.injEq] at h
  case fenceIn j =>
    simp only [fenceIn] at h
    repeat' split at h
    · cases h; exact ⟨.refl s, by simp⟩
    · cases h; exact ⟨calm_setJob _ _ _ rfl, by simp [Stmt.submits]⟩
    · cases h; exact ⟨calm_setJob _ _ _ rfl, by simp [Stmt.submits]⟩
    · cases h; exact ⟨.refl s, by simp [Stmt.submits]⟩
  case fenceWait j f =>
    simp only [fenceWait] at h
    repeat' split at h
    · cases h
    · cases h; exact ⟨.refl s, by simp⟩
    · cases h; exact ⟨.refl s, by simp [Stmt.submits]⟩
  case fenceOut j =>
    simp only [fenceOut] at h
    repeat' split at h
    · cases h; exact ⟨.refl s, by simp⟩
    · cases h
      exact ⟨.of_eq rfl (counters_update rfl) rfl rfl rfl rfl, by simp [Stmt.submits]⟩
    · cases h; exact ⟨.refl s, by simp [Stmt.submits]⟩
  case fenceFd j =>
    cases h
    refine ⟨?_, by simp [Stmt.submits]⟩
    split
    · exact .of_eq rfl (counters_update rfl) rfl rfl rfl rfl
    · exact .of_eq rfl (counters_update rfl) rfl rfl rfl rfl
  case dispatch j =>
    simp only [dispatch] at h
    split at h
    · cases h; exact ⟨calm_setJob _ _ _ rfl, by simp⟩
    · cases h; exact ⟨.refl s, by simp⟩

theorem submits_weights {j : JobId} {a : Stmt} (h : a.submits j) (i : JobId) (c : Nat) :
    preW i a = (if j = i then 1 else 0) ∧ resolvedW i a = 0 ∧ runDecW i a = 0 ∧
      interruptDecW i a = 0 ∧ jobCommitW i a = 0 ∧ commitW i c a = 0 ∧ jobDoneW i c a = 0 ∧
      releaseW i c a = 0 := by
  cases a <;> simp only [Stmt.submits, beq_iff_eq, Bool.false_eq_true] at h <;> subst h <;>
    exact ⟨rfl, rfl, rfl, rfl, rfl, rfl, rfl, rfl⟩

theorem Lighter.of_submits {j : JobId} {a : Stmt} {p : List Stmt} (ha : a.submits j)
    (hp : p = [.jobSchedule j, .submitWait j] ∨
      (∃ m, p = [.timeoutClean m 0, .jobSchedule j, .submitAsync j]) ∨
      (∃ b, p = [b] ∧ b.submits j) ∨ ∃ r, p = [.jobFree j, .submitReturn j r]) :
    Lighter {a} p := by
  have hz := fun i => submits_weights ha i 0
  rcases hp with rfl | ⟨m, rfl⟩ | ⟨b, rfl, hb⟩ | ⟨r, rfl⟩
  case inr.inr.inl =>
    have hw := fun i => submits_weights hb i 0
    have hc := fun i c => (submits_weights hb i c).2.2.2.2.2
    constructor <;> intros <;> simp [hz, hw, hc]
  all_goals
    constructor <;> intros <;> (try simp only [load_singleton, hz]) <;>
      simp [preW, runDecW, interruptDecW, jobCommitW, commitW, jobDoneW, releaseW]

end Rknpu

import Rknpu.CountsStep
import Rknpu.Dispatch
import Rknpu.Interleaving.Line

namespace Rknpu

open Interleaving

variable (P : Platform)

/-- Arguments that `rknpu_job_commit` can work with on every core of the mask. -/
def gangArgs (a : Submit) : Prop :=
  a.pc ∧ a.taskObjAddr ≠ 0 ∧ a.coreMask ∈ [0x0, 0x1, 0x2, 0x4, 0x3, 0x7] ∧
    a.coreMask ≤ P.config.coreMask

/-- Runs of `rknpu_job_schedule`, `rknpu_job_next` and `rknpu_job_done`. -/
def gangWorld : Guard Dev Stmt Int Occurrence where
  run _ _ a x := ∀ j, a = .domainGet j → x = 0
  env _ _ e := match e with
    | .schedule args _ => gangArgs P args
    | .next _ | .completion _ | .tick _ => True
    | _ => False

def Stmt.gang : Stmt → Bool
  | .jobSchedule _ | .selectCore _ _ _ _ | .domainGet _ | .enqueue _ | .nextLoop _ _ | .jobNext _
  | .pickUp _ | .runDec _ | .jobCommit _ | .subcoreCommit _ _ | .commitPc _ _ | .pc _ _ _ _
  | .jobDone _ _ _ | .releaseCore _ _ _ | .interruptDec _ _ _ | .doneWidth _ _ _
  | .donePut _ _ _ | .doneFlag _ _ _ | .doneRet _ _ _ | .doneFence _ _ | .doneAsync _ _
  | .wakeUp _ => true
  | _ => false

variable {P} {s s' : Dev} {B B' R : Multiset Stmt} {a : Stmt} {x : Int} {p : List Stmt}
  {j : JobId} {c : Nat} {r : Int}

theorem exec_gang (ha : a.gang) (h : exec P a x s = some (s', p)) : ∀ b ∈ p, b.gang := by
  cases a <;> simp only [Stmt.gang, Bool.false_eq_true] at ha <;>
    simp only [exec, jobSchedule, selectCore, domainGet, enqueue, nextLoop, jobNext, pickUp,
      runDec, jobCommit, subcoreCommit, commitPc, jobDone, releaseCore, interruptDec, doneWidth,
      donePut, doneFlag, doneRet, doneFence, doneAsync, Option.some.injEq] at h
  case pc g j c k => cases g <;> cases h <;> simp [Stmt.gang]
  all_goals
    repeat' split at h
    all_goals
      cases h
      try simp [Stmt.gang]

theorem gangWorld_gang {C : Conf Dev Stmt} (hC : Reach (driver P) (gangWorld P) Dev.init C) :
    ∀ a ∈ C.pending, a.gang := by
  refine hC.pending_all (fun a => a.gang) (fun s B a x s' p ha _ h => exec_gang ha h) ?_
  intro s B e s' p hG h
  cases e with
  | schedule args fence => cases h; simp [Stmt.gang]
  | next c =>
    simp only [driver, occur] at h
    split at h <;> cases h
    simp [Stmt.gang]
  | completion c =>
    obtain ⟨j, k, -, -, rfl, -⟩ := completion_effect (P := P) h
    simp [Stmt.gang]
  | tick d => cases h; simp
  | _ => exact absurd hG id

structure Neutral (s s' : Dev) : Prop where
  jobNum : s'.jobNum = s.jobNum
  job : ∀ k, (s'.jobs k).args = (s.jobs k).args ∧ (s'.jobs k).runCount = (s.jobs k).runCount ∧
    (s'.jobs k).submitCount = (s.jobs k).submitCount
  todo : s'.todoList = s.todoList
  slot : s'.slot = s.slot
  engine : s'.engine = s.engine
  softReseting : s'.softReseting = s.softReseting
  log : ∃ es, s'.log = s.log ++ es ∧ ∀ e ∈ es, e.aside ∧ ∀ c j k, e ≠ .start c j k

theorem Neutral.refl (s : Dev) : Neutral s s :=
  ⟨rfl, fun _ => ⟨rfl, rfl, rfl⟩, rfl, rfl, rfl, rfl, [], by simp, by simp⟩

theorem neutral_setJob (s : Dev) (j : JobId) (f : Job → Job)
    (ha : (f (s.jobs j)).args = (s.jobs j).args) (hr : (f (s.jobs j)).runCount = (s.jobs j).runCount)
    (hs : (f (s.jobs j)).submitCount = (s.jobs j).submitCount) : Neutral s (s.setJob j f) := by
  refine ⟨rfl, fun k => ?_, rfl, rfl, rfl, rfl, [], by simp [Dev.setJob], by simp⟩
  by_cases hk : k = j
  · subst hk
    simpa [Dev.setJob] using ⟨ha, hr, hs⟩
  · simp [Dev.setJob, hk]

theorem neutral_record (s : Dev) (e : Event) (h : e.aside) (hs : ∀ c j k, e ≠ .start c j k) :
    Neutral s (s.record e) :=
  ⟨rfl, fun _ => ⟨rfl, rfl, rfl⟩, rfl, rfl, rfl, rfl, [e], rfl, by
    simpa using ⟨h, hs⟩⟩

/-- Gang statements that move no job on. -/
def Stmt.neutral : Stmt → Bool
  | .jobSchedule _ | .domainGet _ | .nextLoop _ _ | .jobNext _ | .interruptDec _ _ _
  | .doneWidth _ _ _ | .donePut _ _ _ | .doneFlag _ _ _ | .doneRet _ _ _ | .doneFence _ _
  | .doneAsync _ _ | .wakeUp _ => true
  | _ => false

theorem exec_neutral (ha : a.neutral) (hd : ∀ j, a = .domainGet j → x = 0)
    (h : exec P a x s = some (s', p)) : Neutral s s' := by
  cases a <;> simp only [Stmt.neutral, Bool.false_eq_true] at ha <;>
    simp only [exec, Option.some.injEq] at h
  case jobSchedule j =>
    simp only [jobSchedule] at h
    split at h <;> cases h <;> exact .refl s
  case domainGet j =>
    obtain rfl := hd j rfl
    cases h
    exact neutral_record _ _ rfl (by simp)
  case nextLoop j i =>
    simp only [nextLoop] at h
    repeat' split at h
    all_goals
      cases h
      exact .refl s
  case jobNext c =>
    simp only [jobNext] at h
    split at h <;> cases h <;> exact .refl s
  case interruptDec j r c => cases h; exact neutral_setJob _ _ _ rfl rfl rfl
  case doneWidth | wakeUp => cases h; exact .refl s
  case donePut => cases h; exact neutral_record _ _ rfl (by simp)
  case doneFlag j r q =>
    cases h
    have hs := neutral_setJob s j (fun b => { b with done := true }) rfl rfl rfl
    exact ⟨rfl, hs.job, rfl, rfl, rfl, rfl, _, rfl, by simp [Event.aside]⟩
  case doneRet => cases h; exact neutral_setJob _ _ _ rfl rfl rfl
  case doneFence j q =>
    cases h
    split
    · exact ⟨rfl, fun _ => ⟨rfl, rfl, rfl⟩, rfl, rfl, rfl, rfl, _, rfl, by simp [Event.aside]⟩
    · exact .refl s
  case doneAsync j q =>
    cases h
    split
    · exact ⟨rfl, fun _ => ⟨rfl, rfl, rfl⟩, rfl, rfl, rfl, rfl, _, rfl, by simp [Event.aside]⟩
    · exact .refl s

theorem neutral_weights (ha : a.neutral) (k : JobId) (d : Nat) : jobCommitW k a = 0 ∧
    commitW k d a = 0 ∧ jobDoneW k d a = 0 ∧ releaseW k d a = 0 := by
  cases a <;> first | (cases ha; done) | exact ⟨rfl, rfl, rfl, rfl⟩

section Masks

theorem mem_commitCores {m : Nat} (hm : m ∈ [0x0, 0x1, 0x2, 0x4, 0x3, 0x7]) (hc : inMask m c) :
    c ∈ commitCores m := by
  have h : ∀ m ∈ [0x0, 0x1, 0x2, 0x4, 0x3, 0x7], ∀ c < 3, inMask m c → c ∈ commitCores m := by
    decide
  exact h m hm c (inMask_lt hc) hc

theorem lt_numIrqs {m : Nat} (hm : m ≤ P.config.coreMask) (hc : inMask m c) :
    c < P.config.numIrqs := by
  have h : ∀ n < 4, ∀ m < 2 ^ n, ∀ c < 3, inMask m c → c < n := by decide
  have h₁ := P.config.numIrqs_le
  have h₂ := P.config.coreMask_eq
  have h₃ : 0 < 2 ^ P.config.numIrqs := Nat.two_pow_pos _
  exact h _ (by omega) m (by omega) c (inMask_lt hc) hc

theorem coreMaskOf_args (hc : c < P.config.numIrqs) :
    coreMaskOf c ∈ [0x0, 0x1, 0x2, 0x4, 0x3, 0x7] ∧ coreMaskOf c ≤ P.config.coreMask := by
  have h : ∀ n < 4, ∀ c < n, coreMaskOf c ∈ [0x0, 0x1, 0x2, 0x4, 0x3, 0x7] ∧
    coreMaskOf c ≤ 2 ^ n - 1 := by decide
  rw [P.config.coreMask_eq]
  exact h _ (by have := P.config.numIrqs_le; omega) c hc

end Masks

/-- What the cores hold in every state of a gang run. -/
structure Gang (P : Platform) (s : Dev) (B : Multiset Stmt) : Prop where
  args : ∀ j < s.jobNum, gangArgs P (s.jobs j).args
  line : Line (enqueued s.log) (s.needs P) (released s.log) s.slot s.todoList
  token : ∀ j c, 0 < s.log.count (.enqueue j) → (s.jobs j).runCount = 0 →
    inMask (s.mask j) c → 0 < tokens s B j c
  reports : ∀ c j, s.engine c = .complete j ((s.jobs j).submitCount c) → 0 < load (jobDoneW j c) B
  awake : s.softReseting = false

theorem tokens_mono (he : s'.engine c = s.engine c)
    (hs : (s'.jobs j).submitCount c = (s.jobs j).submitCount c)
    (hr : s.log.count (.release c j) ≤ s'.log.count (.release c j))
    (hj : load (jobCommitW j) B ≤ load (jobCommitW j) B')
    (hc : load (commitW j c) B ≤ load (commitW j c) B')
    (hd : load (jobDoneW j c) B ≤ load (jobDoneW j c) B')
    (hw : load (releaseW j c) B ≤ load (releaseW j c) B') : tokens s B j c ≤ tokens s' B' j c := by
  simp only [tokens, onEngine, reported, he, hs]
  omega

theorem released_aside {es : List Event} (h : ∀ e ∈ es, e.aside) (c : Nat) :
    released es c = [] := by
  rw [released, List.filterMap_eq_nil_iff]
  intro e he
  have := h e he
  cases e <;> simp_all [Event.aside]

theorem quiet_of_aside {es : List Event} (h : ∀ e ∈ es, e.aside) : ∀ e ∈ es, e.queues = false := by
  intro e he
  have := h e he
  cases e <;> simp_all [Event.aside, Event.queues]

theorem needs_congr (h : ∀ k, s'.mask k = s.mask k) : s'.needs P = s.needs P := by
  funext c k
  simp only [Dev.needs, h]

namespace Gang

/-- A job with work under way on a core is in the slot of that core. -/
theorem slot_of_active (hQ : Queued P s B) (hC : Counts s B) (hI : Gang P s B)
    (h : 0 < load (commitW j c) B + onEngine s j c + reported s B j c + load (releaseW j c) B) :
    s.slot c = some j := by
  have hone := hC.tokens_le_one j c
  obtain ⟨henq, hrun⟩ := hC.live (j := j) (c := c) (by simp only [tokens]; omega)
  have hin : inMask (s.mask j) c := by
    by_cases hr : 0 < load (commitW j c) B + onEngine s j c + load (jobDoneW j c) B +
        load (releaseW j c) B
    · exact hC.onCore j c hr
    · simp only [reported] at h
      split at h
      · exact (hC.complete c j _ ‹_›).2.2
      · omega
  have hpick := hQ.all_picked henq hrun hin
  have hlist := hQ.listed j c
  have honce := hQ.once j
  have hcnt : s.log.count (.release c j) = 0 := by
    simp only [tokens] at hone
    omega
  rcases hI.line.mem_station ((mem_enqueued _).mpr henq) (hQ.needs_of_picked hpick) with h | h | h
  · rw [← List.count_pos_iff, count_released] at h
    omega
  · exact h
  · rw [← List.count_pos_iff] at h
    split at hlist <;> omega

theorem neutral (hI : Gang P s B) (hs : Neutral s s')
    (hj : ∀ k, load (jobCommitW k) B ≤ load (jobCommitW k) B')
    (hl : ∀ k d, load (commitW k d) B ≤ load (commitW k d) B' ∧
      load (jobDoneW k d) B ≤ load (jobDoneW k d) B' ∧
      load (releaseW k d) B ≤ load (releaseW k d) B') : Gang P s' B' := by
  obtain ⟨es, hlog, hes⟩ := hs.log
  have hes : ∀ e ∈ es, e.aside := fun e he => (hes e he).1
  have hmask : ∀ k, s'.mask k = s.mask k := fun k => by rw [Dev.mask, (hs.job k).1, Dev.mask]
  have henq : enqueued s'.log = enqueued s.log := by
    rw [hlog, enqueued_append, enqueued_quiet (quiet_of_aside hes), List.append_nil]
  have hcnt : ∀ k, s'.log.count (.enqueue k) = s.log.count (.enqueue k) := fun k => by
    rw [← count_enqueued, henq, count_enqueued]
  have hrel : released s'.log = released s.log := by
    funext c
    rw [hlog, released_append, released_aside hes, List.append_nil]
  refine ⟨fun k hk => ?_, ?_, fun k d hk hr hm => ?_, fun d k he => ?_, ?_⟩
  · rw [(hs.job k).1]
    exact hI.args k (hs.jobNum ▸ hk)
  · rw [henq, hrel, hs.todo, hs.slot, needs_congr hmask]
    exact hI.line
  · refine (hI.token k d (hcnt k ▸ hk) ((hs.job k).2.1 ▸ hr) (hmask k ▸ hm)).trans_le ?_
    refine tokens_mono (by rw [hs.engine]) (by rw [(hs.job k).2.2]) ?_ (hj k) (hl k d).1
      (hl k d).2.1 (hl k d).2.2
    rw [hlog, List.count_append]
    omega
  · rw [hs.engine, (hs.job k).2.2] at he
    exact (hI.reports d k he).trans_le (hl k d).2.1
  · rw [hs.softReseting]
    exact hI.awake

theorem neutral_run (hI : Gang P s (a ::ₘ R)) (ha : a.neutral) (hs : Neutral s s') :
    Gang P s' ((p : Multiset Stmt) + R) := by
  have hw := fun k d => neutral_weights ha k d
  refine hI.neutral hs (fun k => ?_) fun k d => ⟨?_, ?_, ?_⟩
  · rw [load_cons, load_add, (hw k 0).1]
    omega
  · rw [load_cons, load_add, (hw k d).2.1]
    omega
  · rw [load_cons, load_add, (hw k d).2.2.1]
    omega
  · rw [load_cons, load_add, (hw k d).2.2.2]
    omega

theorem selectCore {i : Nat} {t : Int} {ci : Nat} (hQ : Queued P s (.selectCore j i t ci ::ₘ R))
    (hI : Gang P s (.selectCore j i t ci ::ₘ R))
    (h : exec P (.selectCore j i t ci) x s = some (s', p)) :
    Gang P s' ((p : Multiset Stmt) + R) := by
  have hci := hQ.chosen j i t ci (Multiset.mem_cons_self _ _)
  have henq := hQ.not_enqueued (j := j) (by simp [preW])
  have hw : ∀ k d, jobCommitW k (.selectCore j i t ci) = 0 ∧ commitW k d (.selectCore j i t ci) = 0 ∧
      jobDoneW k d (.selectCore j i t ci) = 0 ∧ releaseW k d (.selectCore j i t ci) = 0 :=
    fun _ _ => ⟨rfl, rfl, rfl, rfl⟩
  have hload : ∀ (f : Stmt → Nat), f (.selectCore j i t ci) = 0 →
      load f (.selectCore j i t ci ::ₘ R) ≤ load f ((p : Multiset Stmt) + R) := fun f hf => by
    rw [load_cons, load_add, hf]
    omega
  obtain ⟨rfl, t', c', rfl, -, -⟩ | ⟨rfl, rfl⟩ := selectCore_effect h
  · exact hI.neutral (.refl s') (fun k => hload _ (hw k 0).1)
      fun k d => ⟨hload _ (hw k d).2.1, hload _ (hw k d).2.2.1, hload _ (hw k d).2.2.2⟩
  have hjob : ∀ k, (s.setJob j (resolveCore · ci)).jobs k =
      if k = j then resolveCore (s.jobs j) ci else s.jobs k := fun k => by
    by_cases hk : k = j <;> simp [Dev.setJob, hk]
  have hother : ∀ k, 0 < s.log.count (.enqueue k) →
      (s.setJob j (resolveCore · ci)).jobs k = s.jobs k := fun k hk => by
    rw [hjob, if_neg (by rintro rfl; omega)]
  refine ⟨fun k hk => ?_, ?_, fun k d hk hr hm => ?_, fun d k he => ?_, hI.awake⟩
  · have ha := hI.args k hk
    rw [hjob]
    split
    · rename_i hkj
      subst hkj
      exact ⟨ha.1, ha.2.1, coreMaskOf_args hci⟩
    · exact ha
  · refine ⟨hI.line.nodup, fun c => ?_⟩
    rw [Queued.filter_needs_congr (s := s)]
    · exact hI.line.split c
    · intro k hk
      rw [Dev.mask, hother k ((mem_enqueued _).mp hk), Dev.mask]
  · rw [hother k hk] at hr
    rw [Dev.mask, hother k hk] at hm
    refine (hI.token k d hk hr hm).trans_le ?_
    exact tokens_mono rfl (by rw [hother k hk]) le_rfl (hload _ (hw k d).1) (hload _ (hw k d).2.1)
      (hload _ (hw k d).2.2.1) (hload _ (hw k d).2.2.2)
  · have hsub : ((s.setJob j (resolveCore · ci)).jobs k).submitCount = (s.jobs k).submitCount := by
      rw [hjob]
      split
      · rename_i hkj
        subst hkj
        rfl
      · rfl
    rw [hsub] at he
    exact (hI.reports d k he).trans_le (hload _ (hw k d).2.2.1)

theorem load_le {f : Stmt → Nat} (h : f a ≤ load f (p : Multiset Stmt)) :
    load f (a ::ₘ R) ≤ load f ((p : Multiset Stmt) + R) := by
  rw [load_cons, load_add]
  omega

theorem released_append_of {e : Event} (he : ∀ c j, e ≠ .release c j) (l : List Event) :
    released (l ++ [e]) = released l := by
  funext c
  have hn : released [e] c = [] := by
    cases e <;> simp_all [released]
  rw [released_append, hn, List.append_nil]

theorem enqueue (hQ : Queued P s (.enqueue j ::ₘ R))
    (hI : Gang P s (.enqueue j ::ₘ R)) (h : exec P (.enqueue j) x s = some (s', p)) :
    Gang P s' ((p : Multiset Stmt) + R) := by
  have hnew := hQ.not_enqueued (j := j) (by simp [preW])
  have hmask := hQ.resolved j (by rw [load_cons, resolvedW, if_pos rfl]; omega)
  have hwidth : 0 < (s.jobs j).useCoreNum := by
    rw [hQ.width]
    have h : ∀ m ∈ [0x0, 0x1, 0x2, 0x4, 0x3, 0x7], m ≠ 0 → 0 < maskBits m := by decide
    refine h _ ?_ hmask
    have hlt : j < s.jobNum := Nat.lt_of_not_le fun hc => by
      have := hQ.fresh j hc
      rw [load_cons, preW, if_pos rfl] at this
      omega
    exact (hI.args j hlt).2.2.1
  have hrun := hQ.initial j hnew hmask
  obtain ⟨hs, rfl, hslot, hlog, htodo⟩ := enqueue_effect h
  have hjob := hs.fields
  have hload : ∀ k d, load (jobCommitW k) (.enqueue j ::ₘ R) ≤
        load (jobCommitW k) (([.nextLoop j 0] : List Stmt) + R) ∧
      load (commitW k d) (.enqueue j ::ₘ R) ≤
        load (commitW k d) (([.nextLoop j 0] : List Stmt) + R) ∧
      load (jobDoneW k d) (.enqueue j ::ₘ R) ≤
        load (jobDoneW k d) (([.nextLoop j 0] : List Stmt) + R) ∧
      load (releaseW k d) (.enqueue j ::ₘ R) ≤
        load (releaseW k d) (([.nextLoop j 0] : List Stmt) + R) := fun k d =>
    ⟨load_le (Nat.zero_le _), load_le (Nat.zero_le _), load_le (Nat.zero_le _),
      load_le (Nat.zero_le _)⟩
  refine ⟨fun k hk => ?_, ?_, fun k d hk hr hm => ?_, fun d k he => ?_, ?_⟩
  · rw [hs.args]
    exact hI.args k (hs.jobNum ▸ hk)
  · have hj : j ∉ enqueued s.log := fun hm => by
      rw [mem_enqueued] at hm
      omega
    have ht : s'.todoList = fun c => if s.needs P c j then s.todoList c ++ [j] else s.todoList c :=
      funext htodo
    rw [hlog, enqueued_append, released_append_of (by simp), hslot, ht,
      needs_congr fun k => (hjob k).1]
    exact hI.line.join hj
  · rw [hlog, List.count_append, List.count_singleton] at hk
    rw [(hjob k).2.2.1] at hr
    rw [(hjob k).1] at hm
    have hkj : j ≠ k := by
      rintro rfl
      omega
    rw [beq_eq_false_iff_ne.mpr (by simpa using hkj)] at hk
    refine (hI.token k d (by simpa using hk) hr hm).trans_le ?_
    refine tokens_mono (by rw [hs.engine]) (by rw [(hjob k).2.2.2.2]) ?_ (hload k d).1
      (hload k d).2.1 (hload k d).2.2.1 (hload k d).2.2.2
    rw [hlog, List.count_append]
    omega
  · rw [hs.engine, (hjob k).2.2.2.2] at he
    exact (hI.reports d k he).trans_le (hload k d).2.2.1
  · rw [hs.softReseting]
    exact hI.awake

theorem pickUp (hI : Gang P s (.pickUp c ::ₘ R))
    (h : exec P (.pickUp c) x s = some (s', p)) : Gang P s' ((p : Multiset Stmt) + R) := by
  have hload : ∀ (f : Stmt → Nat), f (.pickUp c) = 0 →
      load f (.pickUp c ::ₘ R) ≤ load f ((p : Multiset Stmt) + R) := fun f hf =>
    load_le (hf.trans_le (Nat.zero_le _))
  obtain ⟨rfl, rfl, -⟩ | ⟨j, rest, hnone, hj, hs, rfl, hslot, hlog, htodo⟩ := pickUp_effect h
  · exact hI.neutral (.refl s') (fun k => hload _ rfl)
      fun k d => ⟨hload _ rfl, hload _ rfl, hload _ rfl⟩
  have hjob := hs.fields
  have hcnt : ∀ k, s'.log.count (.enqueue k) = s.log.count (.enqueue k) := fun k => by
    simp [hlog, List.count_append]
  refine ⟨fun k hk => ?_, ?_, fun k d hk hr hm => ?_, fun d k he => ?_, ?_⟩
  · rw [hs.args]
    exact hI.args k (hs.jobNum ▸ hk)
  · have he : enqueued s'.log = enqueued s.log := by
      rw [hlog, enqueued_append]
      exact List.append_nil _
    rw [he, hlog, released_append_of (by simp), hslot, htodo, needs_congr fun k => (hjob k).1]
    exact hI.line.call hnone hj
  · rw [hcnt] at hk
    rw [(hjob k).2.2.1] at hr
    rw [(hjob k).1] at hm
    refine (hI.token k d hk hr hm).trans_le ?_
    refine tokens_mono (by rw [hs.engine]) (by rw [(hjob k).2.2.2.2]) ?_ (hload _ rfl) (hload _ rfl)
      (hload _ rfl) (hload _ rfl)
    rw [hlog, List.count_append]
    omega
  · rw [hs.engine, (hjob k).2.2.2.2] at he
    exact (hI.reports d k he).trans_le (hload _ rfl)
  · rw [hs.softReseting]
    exact hI.awake

theorem releaseCore (hQ : Queued P s (.releaseCore j r c ::ₘ R))
    (hC : Counts s (.releaseCore j r c ::ₘ R)) (hI : Gang P s (.releaseCore j r c ::ₘ R))
    (h : exec P (.releaseCore j r c) x s = some (s', p)) :
    Gang P s' ((p : Multiset Stmt) + R) := by
  have hin : s.slot c = some j := slot_of_active hQ hC hI (by
    simp only [load_cons, releaseW, and_self, if_true]
    omega)
  have hload : ∀ (f : Stmt → Nat), f (.releaseCore j r c) = 0 →
      load f (.releaseCore j r c ::ₘ R) ≤ load f ((p : Multiset Stmt) + R) := fun f hf =>
    load_le (hf.trans_le (Nat.zero_le _))
  obtain ⟨hs, rfl, htodo, hslot, hlog⟩ := releaseCore_effect h
  have hjob := hs.fields
  have hcnt : ∀ k, s'.log.count (.enqueue k) = s.log.count (.enqueue k) := fun k => by
    simp [hlog, List.count_append]
  refine ⟨fun k hk => ?_, ?_, fun k d hk hr hm => ?_, fun d k he => ?_, ?_⟩
  · rw [hs.args]
    exact hI.args k (hs.jobNum ▸ hk)
  · have he : enqueued s'.log = enqueued s.log := by
      rw [hlog, enqueued_append]
      exact List.append_nil _
    have hrel : released s'.log = Function.update (released s.log) c (released s.log c ++ [j]) := by
      funext d
      rw [hlog, released_append]
      by_cases hd : d = c
      · subst hd
        simp [released]
      · simp [released, hd, Ne.symm hd]
    rw [he, hrel, hslot, htodo, needs_congr fun k => (hjob k).1]
    exact hI.line.leave hin
  · rw [hcnt] at hk
    rw [(hjob k).2.2.1] at hr
    rw [(hjob k).1] at hm
    by_cases hkd : j = k ∧ c = d
    · obtain ⟨rfl, rfl⟩ := hkd
      have : 0 < s'.log.count (.release c j) := by simp [hlog]
      simp only [tokens]
      omega
    · refine (hI.token k d hk hr hm).trans_le ?_
      refine tokens_mono (by rw [hs.engine]) (by rw [(hjob k).2.2.2.2]) ?_ (hload _ rfl)
        (hload _ rfl) (hload _ rfl) (load_le ?_)
      · rw [hlog, List.count_append]
        omega
      · rw [releaseW, if_neg hkd]
        exact Nat.zero_le _
  · rw [hs.engine, (hjob k).2.2.2.2] at he
    exact (hI.reports d k he).trans_le (hload _ rfl)
  · rw [hs.softReseting]
    exact hI.awake

theorem runDec (hI : Gang P s (.runDec j ::ₘ R)) (h : exec P (.runDec j) x s = some (s', p)) :
    Gang P s' ((p : Multiset Stmt) + R) := by
  have hload : ∀ (f : Stmt → Nat), f (.runDec j) = 0 →
      load f (.runDec j ::ₘ R) ≤ load f ((p : Multiset Stmt) + R) := fun f hf =>
    load_le (hf.trans_le (Nat.zero_le _))
  obtain ⟨rfl, hp⟩ := runDec_effect h
  have hjob : ∀ k, (s.setJob j fun b => { b with runCount := b.runCount - 1 }).jobs k =
      { s.jobs k with runCount := (s.jobs k).runCount - if j = k then 1 else 0 } := fun k => by
    by_cases hk : j = k
    · subst hk; simp [Dev.setJob]
    · simp [Dev.setJob, hk, Ne.symm hk]
  have hmask : ∀ k, (s.setJob j fun b => { b with runCount := b.runCount - 1 }).mask k =
      s.mask k := fun k => by rw [Dev.mask, hjob]; rfl
  refine ⟨fun k hk => ?_, ?_, fun k d hk hr hm => ?_, fun d k he => ?_, hI.awake⟩
  · rw [hjob]
    exact hI.args k hk
  · rw [needs_congr hmask]
    exact hI.line
  · rw [hjob] at hr
    rw [hmask] at hm
    by_cases hkj : j = k
    · subst hkj
      rw [if_pos rfl] at hr
      have hone : (s.jobs j).runCount = 1 := by simp only at hr; omega
      rw [if_pos hone] at hp
      simp only [tokens, hp, load_add, load_coe_cons, load_coe_nil, jobCommitW, if_true]
      omega
    · rw [if_neg hkj] at hr
      refine (hI.token k d hk (by simpa using hr) hm).trans_le ?_
      exact tokens_mono rfl (by rw [hjob]) le_rfl (hload _ rfl) (hload _ rfl) (hload _ rfl)
        (hload _ rfl)
  · rw [hjob] at he
    exact (hI.reports d k he).trans_le (hload _ rfl)

theorem jobCommit (hQ : Queued P s (.jobCommit j ::ₘ R))
    (hI : Gang P s (.jobCommit j ::ₘ R)) (h : exec P (.jobCommit j) x s = some (s', p)) :
    Gang P s' ((p : Multiset Stmt) + R) := by
  have hload : ∀ (f : Stmt → Nat), f (.jobCommit j) = 0 →
      load f (.jobCommit j ::ₘ R) ≤ load f ((p : Multiset Stmt) + R) := fun f hf =>
    load_le (hf.trans_le (Nat.zero_le _))
  cases h
  refine ⟨hI.args, hI.line, fun k d hk hr hm => ?_, fun d k he => ?_, hI.awake⟩
  · by_cases hkj : j = k
    · subst hkj
      have hlt := hQ.lt_jobNum hk
      have hin : 0 < (commitCores (s.jobs j).args.coreMask).count d :=
        List.count_pos_iff.mpr (mem_commitCores (hI.args j hlt).2.2.1 hm)
      simp only [tokens, load_add, load_map_subcoreCommit, if_true]
      omega
    · refine (hI.token k d hk hr hm).trans_le ?_
      refine tokens_mono rfl rfl le_rfl (load_le ?_) (hload _ rfl) (hload _ rfl) (hload _ rfl)
      rw [jobCommitW, if_neg hkj]
      exact Nat.zero_le _
  · exact (hI.reports d k he).trans_le (hload _ rfl)

/-- A commit goes on until the chunk is started: nothing in the arguments stops it. -/
theorem commit_step (hargs : gangArgs P (s.jobs j).args)
    (ha : (a = .subcoreCommit j c ∨ a = .commitPc j c) ∨ ∃ g k, g ≠ .pcOpEn ∧ a = .pc g j c k)
    (h : exec P a x s = some (s', p)) :
    Neutral s s' ∧ ∀ k d, load (commitW k d) (p : Multiset Stmt) = commitW k d a := by
  rcases ha with (rfl | rfl) | ⟨g, k, hg, rfl⟩
  · simp only [exec, subcoreCommit, Dev.write, hargs.1, if_true, Option.some.injEq] at h
    cases h
    exact ⟨⟨rfl, fun _ => ⟨rfl, rfl, rfl⟩, rfl, rfl, rfl, rfl, [], by simp, by simp⟩,
      fun _ _ => by simp [commitW]⟩
  · simp only [exec, commitPc, hargs.2.1, if_false, Option.some.injEq] at h
    cases h
    refine ⟨?_, fun _ _ => by simp [commitW]⟩
    split
    · exact ⟨rfl, fun _ => ⟨rfl, rfl, rfl⟩, rfl, rfl, rfl, rfl, [], by simp [Dev.write], by simp⟩
    · exact .refl s
  · cases g with
    | pcOpEn => exact absurd rfl hg
    | firstTask | lastTask | jobIntMask =>
      cases h
      exact ⟨neutral_setJob _ _ _ rfl rfl rfl, fun _ _ => by simp [commitW]⟩
    | _ =>
      cases h
      exact ⟨⟨rfl, fun _ => ⟨rfl, rfl, rfl⟩, rfl, rfl, rfl, rfl, [],
        by simp [Dev.writeIntClear, Dev.write], by simp⟩, fun _ _ => by simp [commitW]⟩

theorem commits (hC : Counts s (a ::ₘ R)) (hQ : Queued P s (a ::ₘ R)) (hI : Gang P s (a ::ₘ R))
    (ha : (a = .subcoreCommit j c ∨ a = .commitPc j c) ∨ ∃ g k, g ≠ .pcOpEn ∧ a = .pc g j c k)
    (h : exec P a x s = some (s', p)) : Gang P s' ((p : Multiset Stmt) + R) := by
  have hw : (∀ k, jobCommitW k a = 0) ∧ (∀ k d, jobDoneW k d a = 0 ∧ releaseW k d a = 0) ∧
      commitW j c a = 1 := by
    rcases ha with (rfl | rfl) | ⟨g, k, -, rfl⟩ <;>
      exact ⟨fun _ => rfl, fun _ _ => ⟨rfl, rfl⟩, by simp [commitW]⟩
  obtain ⟨henq, -⟩ := hC.live (j := j) (c := c) (by
    simp only [tokens, load_cons, hw.2.2]
    omega)
  obtain ⟨hs, hc⟩ := commit_step (hI.args j (hQ.lt_jobNum henq)) ha h
  refine hI.neutral hs (fun k => load_le ?_) fun k d => ⟨load_le (hc k d).ge, load_le ?_, load_le ?_⟩
  · rw [hw.1]
    exact Nat.zero_le _
  · rw [(hw.2.1 k d).1]
    exact Nat.zero_le _
  · rw [(hw.2.1 k d).2]
    exact Nat.zero_le _

theorem pcOpEn {k : Nat} (hC : Counts s (.pc .pcOpEn j c k ::ₘ R))
    (hQ : Queued P s (.pc .pcOpEn j c k ::ₘ R)) (hI : Gang P s (.pc .pcOpEn j c k ::ₘ R))
    (h : exec P (.pc .pcOpEn j c k) x s = some (s', p)) : Gang P s' ((p : Multiset Stmt) + R) := by
  have hk := hC.pcIndex _ _ _ _ (Multiset.mem_cons_self _ _)
  have hslot : s.slot c = some j := slot_of_active hQ hC hI (by
    simp only [load_cons, commitW, and_self, if_true]
    omega)
  have hother : ∀ i, i ≠ j → ∀ n, s.engine c ≠ .running i ((s.jobs i).submitCount c) ∧
      (n = (s.jobs i).submitCount c → s.engine c ≠ .complete i n) := fun i hi n => by
    refine ⟨fun he => hi ?_, fun hn he => hi ?_⟩
    · have := slot_of_active (j := i) (c := c) hQ hC hI (by rw [onEngine, if_pos he]; omega)
      rw [hslot] at this
      cases this
      rfl
    · subst hn
      have := slot_of_active (j := i) (c := c) hQ hC hI (by rw [reported, if_pos he]; omega)
      rw [hslot] at this
      cases this
      rfl
  have hload : ∀ (f : Stmt → Nat), f (.pc .pcOpEn j c k) = 0 →
      load f (.pc .pcOpEn j c k ::ₘ R) ≤ load f ((p : Multiset Stmt) + R) := fun f hf =>
    load_le (hf.trans_le (Nat.zero_le _))
  obtain ⟨hn, hj, ht, hs, he, hlog, rfl⟩ := pcOpEn_effect h
  have hmask : ∀ i, s'.mask i = s.mask i := fun i => by rw [Dev.mask, hj]; rfl
  have hcnt : ∀ i, s'.log.count (.enqueue i) = s.log.count (.enqueue i) := fun i => by
    simp [hlog, List.count_append]
  have hr : ∀ i d, s.log.count (.release d i) ≤ s'.log.count (.release d i) := fun i d => by
    rw [hlog, List.count_append]
    omega
  have haw : s'.softReseting = s.softReseting := by cases h; rfl
  refine ⟨fun i hi => ?_, ?_, fun i d hi hri hm => ?_, fun d i hd => ?_, ?_⟩
  · rw [hj]
    exact hI.args i (hn ▸ hi)
  · have henq : enqueued s'.log = enqueued s.log := by
      rw [hlog, enqueued_append]
      exact List.append_nil _
    rw [henq, hlog, released_append_of (by simp), ht, hs, needs_congr hmask]
    exact hI.line
  · have hold := hI.token i d (hcnt i ▸ hi) (by rwa [hj] at hri) (hmask i ▸ hm)
    by_cases hd : d = c
    · subst hd
      by_cases hij : i = j
      · subst hij
        simp only [tokens, onEngine, he, Function.update_self, hj, hk, if_true]
        omega
      · have h₁ := (hother i hij 0).1
        have h₂ := (hother i hij _).2 rfl
        have hre := hr i d
        simp only [tokens, onEngine, reported, he, Function.update_self, hj, h₁, h₂, if_false,
          load_cons, commitW, jobCommitW, jobDoneW, releaseW, Ne.symm hij, false_and,
          Multiset.coe_nil, zero_add] at hold ⊢
        omega
    · refine hold.trans_le (tokens_mono (by rw [he, Function.update_of_ne hd]) (by rw [hj]) (hr i d)
        (hload _ rfl) (load_le ?_) (hload _ rfl) (hload _ rfl))
      simp [commitW, Ne.symm hd]
  · by_cases hdc : d = c
    · subst hdc
      rw [he, Function.update_self] at hd
      cases hd
    · rw [he, Function.update_of_ne hdc, hj] at hd
      exact (hI.reports d i hd).trans_le (hload _ rfl)
  · rw [haw]
    exact hI.awake

theorem jobDone (hC : Counts s (.jobDone j r c ::ₘ R)) (hI : Gang P s (.jobDone j r c ::ₘ R))
    (h : exec P (.jobDone j r c) x s = some (s', p)) : Gang P s' ((p : Multiset Stmt) + R) := by
  obtain ⟨rfl, hp⟩ := jobDone_effect h
  set s' := s.setJob j fun b =>
    { b with submitCount := Function.update b.submitCount c (b.submitCount c + 1) } with hs'
  have hjob : ∀ k, s'.jobs k = { s.jobs k with
      submitCount := if j = k then Function.update (s.jobs k).submitCount c
        ((s.jobs k).submitCount c + 1) else (s.jobs k).submitCount } := fun k => by
    by_cases hk : j = k
    · subst hk; simp [hs', Dev.setJob]
    · simp [hs', Dev.setJob, hk, Ne.symm hk]
  have hsub : ∀ k d, ¬(j = k ∧ c = d) → (s'.jobs k).submitCount d = (s.jobs k).submitCount d :=
    fun k d hkd => by
      rw [hjob]
      by_cases hk : j = k
      · have hd : d ≠ c := fun hd => hkd ⟨hk, hd.symm⟩
        simp [hk, hd]
      · simp [hk]
  have hmask : ∀ k, s'.mask k = s.mask k := fun k => by rw [Dev.mask, hjob]; rfl
  have hload : ∀ (f : Stmt → Nat), f (.jobDone j r c) = 0 →
      load f (.jobDone j r c ::ₘ R) ≤ load f ((p : Multiset Stmt) + R) := fun f hf =>
    load_le (hf.trans_le (Nat.zero_le _))
  refine ⟨fun k hk => ?_, ?_, fun k d hk hr hm => ?_, fun d k he => ?_, hI.awake⟩
  · rw [hjob]
    exact hI.args k hk
  · rw [needs_congr hmask]
    exact hI.line
  · rw [hjob] at hr
    rw [hmask] at hm
    by_cases hkd : j = k ∧ c = d
    · obtain ⟨rfl, rfl⟩ := hkd
      have hw : load (commitW j c) (p : Multiset Stmt) + load (releaseW j c) (p : Multiset Stmt) =
          1 := by
        rw [hp]
        split <;> simp [commitW, releaseW]
      simp only [tokens, load_add]
      omega
    · refine (hI.token k d hk hr hm).trans_le (tokens_mono rfl (hsub k d hkd) le_rfl
        (hload _ rfl) (hload _ rfl) (load_le ?_) (hload _ rfl))
      rw [jobDoneW, if_neg hkd]
      exact Nat.zero_le _
  · by_cases hkd : j = k ∧ c = d
    · obtain ⟨rfl, rfl⟩ := hkd
      have := (hC.complete c j _ he).1
      rw [hjob] at this
      simp at this
    · rw [hsub k d hkd] at he
      have := hI.reports d k he
      rw [load_cons, jobDoneW, if_neg hkd] at this
      rw [load_add]
      omega

theorem completion (hI : Gang P s R) (hC : Counts s R)
    (h : occur P (.completion c) s = some (s', p)) : Gang P s' ((p : Multiset Stmt) + R) := by
  have haw : s'.softReseting = s.softReseting ∧ ∀ k, (s'.jobs k).args = (s.jobs k).args := by
    simp only [occur, Option.map_eq_some_iff] at h
    obtain ⟨r, -, he⟩ := h
    cases he
    exact ⟨rfl, field_update Job.args rfl⟩
  obtain ⟨j, n, he, -, rfl, hn, hjob, ht, hs, hengine, hlog⟩ := completion_effect h
  have hsc := hC.running c j n he
  simp only [Job.counters, Prod.mk.injEq] at hjob
  have hmask : ∀ i, s'.mask i = s.mask i := fun i => by rw [Dev.mask, haw.2, Dev.mask]
  have hcnt : ∀ i, s'.log.count (.enqueue i) = s.log.count (.enqueue i) := fun i => by
    simp [hlog, List.count_append]
  have hr : ∀ i d, s.log.count (.release d i) ≤ s'.log.count (.release d i) := fun i d => by
    rw [hlog, List.count_append]
    omega
  have hload : ∀ (f : Stmt → Nat), load f R ≤ load f (([.jobDone j 0 c] : List Stmt) + R) :=
    fun f => by
      rw [load_add]
      omega
  refine ⟨fun i hi => ?_, ?_, fun i d hi hri hm => ?_, fun d i hd => ?_, ?_⟩
  · rw [haw.2]
    exact hI.args i (hn ▸ hi)
  · have henq : enqueued s'.log = enqueued s.log := by
      rw [hlog, enqueued_append]
      exact List.append_nil _
    rw [henq, hlog, released_append_of (by simp), ht, hs, needs_congr hmask]
    exact hI.line
  · have hold := hI.token i d (hcnt i ▸ hi) ((hjob i).2.2.1 ▸ hri) (hmask i ▸ hm)
    by_cases hd : d = c
    · subst hd
      by_cases hij : j = i
      · subst hij
        simp only [tokens, reported, load_add, load_coe_cons, jobDoneW, and_self, if_true]
        omega
      · have h₁ := hr i d
        simp only [tokens, onEngine, reported, he, hengine, Function.update_self, reduceCtorEq,
          if_false, load_add, Engine.running.injEq, hij, false_and] at hold ⊢
        omega
    · exact hold.trans_le (tokens_mono (by rw [hengine, Function.update_of_ne hd])
        (by rw [(hjob i).2.2.2.2]) (hr i d) (hload _) (hload _) (hload _) (hload _))
  · by_cases hdc : d = c
    · subst hdc
      rw [hengine, Function.update_self] at hd
      cases hd
      simp [jobDoneW]
    · rw [hengine, Function.update_of_ne hdc, (hjob i).2.2.2.2] at hd
      exact (hI.reports d i hd).trans_le (hload _)
  · rw [haw.1]
    exact hI.awake

theorem exec (hQ : Queued P s (a ::ₘ R)) (hC : Counts s (a ::ₘ R)) (hI : Gang P s (a ::ₘ R))
    (ha : a.gang) (hd : ∀ j, a = .domainGet j → x = 0) (h : Rknpu.exec P a x s = some (s', p)) :
    Gang P s' ((p : Multiset Stmt) + R) := by
  by_cases hn : a.neutral
  · exact hI.neutral_run hn (exec_neutral hn hd h)
  cases a with
  | selectCore j i t ci => exact hI.selectCore hQ h
  | enqueue j => exact hI.enqueue hQ h
  | pickUp c => exact hI.pickUp h
  | runDec j => exact hI.runDec h
  | jobCommit j => exact hI.jobCommit hQ h
  | subcoreCommit j c => exact hI.commits hC hQ (.inl (.inl rfl)) h
  | commitPc j c => exact hI.commits hC hQ (.inl (.inr rfl)) h
  | pc g j c k =>
    by_cases hg : g = .pcOpEn
    · subst hg
      exact hI.pcOpEn hC hQ h
    · exact hI.commits hC hQ (.inr ⟨g, k, hg, rfl⟩) h
  | jobDone j r c => exact hI.jobDone hC h
  | releaseCore j r c => exact hI.releaseCore hQ hC h
  | _ => first | exact absurd rfl hn | cases ha

theorem schedule {args : Submit} {fence : Bool} (hQ : Queued P s R) (hC : Counts s R)
    (hI : Gang P s R) (hg : gangArgs P args) (h : occur P (.schedule args fence) s = some (s', p)) :
    Gang P s' ((p : Multiset Stmt) + R) := by
  have hzero := hQ.fresh s.jobNum le_rfl
  cases h
  have hold : ∀ k, k ≠ s.jobNum → ∀ b : Job, Function.update s.jobs s.jobNum b k = s.jobs k :=
    fun k hk b => Function.update_of_ne hk _ _
  have hload : ∀ (f : Stmt → Nat), load f R ≤ load f (([.jobSchedule s.jobNum] : List Stmt) + R) :=
    fun f => by
      rw [load_add]
      omega
  refine ⟨fun k hk => ?_, ?_, fun k d hk hr hm => ?_, fun d k he => ?_, hI.awake⟩
  · by_cases hkn : k = s.jobNum
    · subst hkn
      simpa [jobAlloc] using hg
    · simp only [hold k hkn]
      refine hI.args k (Nat.lt_of_le_of_ne ?_ hkn)
      exact Nat.lt_succ_iff.mp hk
  · refine ⟨hI.line.nodup, fun c => ?_⟩
    rw [Queued.filter_needs_congr (s := s)]
    · exact hI.line.split c
    · intro k hk
      rw [mem_enqueued] at hk
      have hkn : k ≠ s.jobNum := by
        rintro rfl
        simp only at hk
        omega
      simp only [Dev.mask, hold k hkn]
  · have hkn : k ≠ s.jobNum := by
      rintro rfl
      simp only at hk
      omega
    simp only [Dev.mask, hold k hkn] at hk hr hm
    refine (hI.token k d hk hr hm).trans_le (tokens_mono rfl ?_ le_rfl (hload _) (hload _) (hload _)
      (hload _))
    simp only [hold k hkn]
  · have := hload (jobDoneW k d)
    by_cases hkn : k = s.jobNum
    · subst hkn
      have := (hC.complete d _ _ he).2.1
      omega
    · simp only [hold k hkn] at he
      exact (hI.reports d k he).trans_le this

theorem occur {e : Occurrence} (hQ : Queued P s R) (hC : Counts s R) (hI : Gang P s R)
    (he : (gangWorld P).env s R e) (h : Rknpu.occur P e s = some (s', p)) :
    Gang P s' ((p : Multiset Stmt) + R) := by
  have hload : ∀ (f : Stmt → Nat), load f R ≤ load f ((p : Multiset Stmt) + R) := fun f => by
    rw [load_add]
    omega
  cases e with
  | schedule args fence => exact hI.schedule hQ hC he h
  | completion c => exact hI.completion hC h
  | next c =>
    simp only [Rknpu.occur] at h
    split at h <;> cases h
    exact hI.neutral (.refl s) (fun _ => hload _) fun _ _ => ⟨hload _, hload _, hload _⟩
  | tick d =>
    cases h
    exact hI.neutral ⟨rfl, fun _ => ⟨rfl, rfl, rfl⟩, rfl, rfl, rfl, rfl, [], by simp, by simp⟩
      (fun _ => hload _) fun _ _ => ⟨hload _, hload _, hload _⟩
  | _ => exact absurd he id

theorem init : Gang P Dev.init 0 := by
  refine ⟨by simp [Dev.init], ⟨by simp [Dev.init, enqueued], fun c => rfl⟩, ?_, ?_, rfl⟩
  · simp [Dev.init]
  · simp [Dev.init]

end Gang

theorem gangWorld_honest : Honest P (gangWorld P) := by
  rintro C hC _ R x hB - c j rfl
  have hk := gangWorld_gang hC (.irqClear c (.done j)) (by simp [hB])
  cases hk

section Reach

variable {C : Conf Dev Stmt} (hC : Reach (driver P) (gangWorld P) Dev.init C)
include hC

theorem gangWorld_cores : Gang P C.shared C.pending :=
  hC.invariant_with (fun s B => Queued P s B ∧ Counts s B ∧ ∀ a ∈ B, a.gang) (Gang P)
    (fun _ hC => ⟨Queued.reach hC, gangWorld_honest.counts hC, gangWorld_gang hC⟩) Gang.init
    (fun _ _ a _ _ _ hJ hI hG h => hI.exec hJ.1 hJ.2.1
      (hJ.2.2 a (Multiset.mem_cons_self _ _)) hG h)
    (fun _ _ _ _ _ hJ hI hG h => hI.occur hJ.1 hJ.2.1 hG h)

/-- No reset is ever under way, so every free core with a queued job is attended to. -/
theorem gangWorld_attended : Attended P C.shared C.pending := by
  refine Attended.reach (hC.restrict ?_ fun _ _ _ _ => trivial)
  intro C hC a x ha _
  have hk := gangWorld_gang hC a ha
  refine ⟨fun c _ hr => ?_, fun j h => ?_, fun j i h => ?_⟩
  · rw [(gangWorld_cores hC).awake] at hr
    cases hr
  · subst h
    cases hk
  · subst h
    cases hk

end Reach

end Rknpu

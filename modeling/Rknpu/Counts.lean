import Rknpu.Queued

namespace Rknpu

open Interleaving

/-- The cores that `rknpu_job_done` has released from job `j`. -/
def releaseCores (l : List Event) (j : JobId) : List Nat :=
  l.filterMap fun | .release c i => if i = j then some c else none | _ => none

def onEngine (s : Dev) (j : JobId) (c : Nat) : Nat :=
  if s.engine c = .running j ((s.jobs j).submitCount c) then 1 else 0

/-- The hardware has reported the chunk, and `rknpu_job_done` has not counted it yet. -/
def reported (s : Dev) (B : Multiset Stmt) (j : JobId) (c : Nat) : Nat :=
  max (load (jobDoneW j c) B) (if s.engine c = .complete j ((s.jobs j).submitCount c) then 1 else 0)

/-- Everything that can lead to a chunk of job `j` on core `c`, or to its release. -/
def tokens (s : Dev) (B : Multiset Stmt) (j : JobId) (c : Nat) : Nat :=
  load (jobCommitW j) B + load (commitW j c) B + onEngine s j c + reported s B j c +
    load (releaseW j c) B + s.log.count (.release c j)

/-- What holds of every job and core as long as no completion is invented, recoveries
and aborts included: a core of a job is at one place of its way at a time. -/
structure Counts (s : Dev) (B : Multiset Stmt) : Prop where
  initial : ∀ j, s.log.count (.enqueue j) = 0 → s.mask j ≠ 0 →
    (s.jobs j).interruptCount = (s.jobs j).useCoreNum
  idle : ∀ j, s.log.count (.enqueue j) = 0 → load (interruptDecW j) B = 0
  held : ∀ j c, (if s.slot c = some j then 1 else 0) + s.log.count (.release c j) ≤
    s.log.count (.pickup c j)
  ints : ∀ j, 0 < s.log.count (.enqueue j) →
    (s.jobs j).interruptCount + (releaseCores s.log j).length =
      (s.jobs j).useCoreNum + load (interruptDecW j) B
  token : ∀ j c, tokens s B j c ≤
    if 0 < s.log.count (.enqueue j) ∧ (s.jobs j).runCount = 0 then 1 else 0
  onCore : ∀ j c, 0 < load (commitW j c) B + onEngine s j c + load (jobDoneW j c) B +
    load (releaseW j c) B → inMask (s.mask j) c
  pcIndex : ∀ g j c k, .pc g j c k ∈ B → k = (s.jobs j).submitCount c
  running : ∀ c j k, s.engine c = .running j k → k = (s.jobs j).submitCount c
  complete : ∀ c j k, s.engine c = .complete j k →
    k ≤ (s.jobs j).submitCount c ∧ 0 < s.log.count (.enqueue j) ∧ inMask (s.mask j) c

section Log

variable (l l' : List Event)

theorem releaseCores_append (j : JobId) :
    releaseCores (l ++ l') j = releaseCores l j ++ releaseCores l' j := List.filterMap_append

theorem count_releaseCores (c : Nat) (j : JobId) :
    (releaseCores l j).count c = l.count (.release c j) :=
  count_filterMap_event l fun e => by cases e <;> simp [and_comm]

variable {l}

theorem count_aside (h : ∀ e ∈ l, e.aside) {e : Event} (he : e.aside = false) :
    l.count e = 0 := by
  rw [List.count_eq_zero]
  intro hm
  have := h e hm
  simp_all

theorem releaseCores_aside (h : ∀ e ∈ l, e.aside) (j : JobId) : releaseCores l j = [] := by
  rw [releaseCores, List.filterMap_eq_nil_iff]
  intro e he
  have := h e he
  cases e <;> simp_all [Event.aside]

end Log

structure Steady (s s' : Dev) (B B' : Multiset Stmt) : Prop where
  engine : s'.engine = s.engine
  submitCount : ∀ k, (s'.jobs k).submitCount = (s.jobs k).submitCount
  release : ∀ d k, s'.log.count (.release d k) = s.log.count (.release d k)
  interruptDec : ∀ k, load (interruptDecW k) B' = load (interruptDecW k) B
  jobCommit : ∀ k, load (jobCommitW k) B' = load (jobCommitW k) B
  commit : ∀ k d, load (commitW k d) B' = load (commitW k d) B
  jobDone : ∀ k d, load (jobDoneW k d) B' = load (jobDoneW k d) B
  releasing : ∀ k d, load (releaseW k d) B' = load (releaseW k d) B
  pc : ∀ g k d n, .pc g k d n ∈ B' → .pc g k d n ∈ B

namespace Steady

variable {s s' : Dev} {B B' : Multiset Stmt}

theorem tokens (h : Steady s s' B B') (k : JobId) (d : Nat) :
    Rknpu.tokens s' B' k d = Rknpu.tokens s B k d := by
  simp only [Rknpu.tokens, onEngine, reported, h.engine, h.submitCount, h.release, h.jobCommit,
    h.commit, h.jobDone, h.releasing]

theorem onCore (h : Steady s s' B B') (k : JobId) (d : Nat) :
    load (commitW k d) B' + onEngine s' k d + load (jobDoneW k d) B' + load (releaseW k d) B' =
      load (commitW k d) B + onEngine s k d + load (jobDoneW k d) B +
        load (releaseW k d) B := by
  simp only [onEngine, h.engine, h.submitCount, h.commit, h.jobDone, h.releasing]

theorem running (h : Steady s s' B B') (hI : Counts s B) {k : JobId} {d n : Nat}
    (he : s'.engine d = .running k n) : n = (s'.jobs k).submitCount d := by
  rw [h.submitCount]
  exact hI.running d k n (h.engine ▸ he)

theorem pcIndex (h : Steady s s' B B') (hI : Counts s B) {g : PcStage} {k : JobId}
    {d n : Nat} (hm : .pc g k d n ∈ B') : n = (s'.jobs k).submitCount d := by
  rw [h.submitCount]
  exact hI.pcIndex g k d n (h.pc g k d n hm)

end Steady

namespace Counts

variable {P : Platform} {s s' : Dev} {B B' R : Multiset Stmt} {a : Stmt} {x : Int} {p : List Stmt}
  {j : JobId} {c : Nat} {r : Int}

theorem calm (hI : Counts s B) (hs : Calm s s') (hp : Lighter B B')
    (pcIndex : ∀ g j c k, .pc g j c k ∈ B' → k = (s.jobs j).submitCount c) : Counts s' B' := by
  obtain ⟨es, hlog, hes⟩ := hs.log
  have hcnt : ∀ e : Event, e.aside = false → s'.log.count e = s.log.count e := fun e he => by
    rw [hlog, List.count_append, count_aside hes he, Nat.add_zero]
  have henq : ∀ j, s'.log.count (.enqueue j) = s.log.count (.enqueue j) := fun j => hcnt _ rfl
  have hrel : ∀ c j, s'.log.count (.release c j) = s.log.count (.release c j) :=
    fun c j => hcnt _ rfl
  have hjob := hs.fields
  have hon : ∀ j c, onEngine s' j c ≤ onEngine s j c := fun j c => by
    simp only [onEngine, (hjob j).2.2.2.2]
    rcases hs.engine c with h | h <;> simp [h]
  have hrep : ∀ j c, reported s' B' j c ≤ reported s B j c := fun j c => by
    simp only [reported, (hjob j).2.2.2.2]
    have hd := hp.jobDone j c
    rcases hs.engine c with h | h
    · rw [h]; omega
    · simp only [h, reduceCtorEq, if_false]; omega
  constructor
  case initial =>
    intro j hj hm
    rw [(hjob j).2.1, (hjob j).2.2.2.1]
    exact hI.initial j (henq j ▸ hj) ((hjob j).1 ▸ hm)
  case idle => exact fun j hj => by rw [hp.interruptDec]; exact hI.idle j (henq j ▸ hj)
  case held =>
    intro j c
    have h := hI.held j c
    rw [hrel, hcnt _ rfl]
    by_cases hc : s'.slot c = some j
    · rw [if_pos hc]
      rwa [if_pos (hs.slot j c hc)] at h
    · rw [if_neg hc]; omega
  case ints =>
    intro j hj
    rw [(hjob j).2.1, (hjob j).2.2.2.1, hp.interruptDec, hlog, releaseCores_append,
      releaseCores_aside hes, List.append_nil]
    exact hI.ints j (henq j ▸ hj)
  case token =>
    intro j c
    have h := hI.token j c
    have h₁ := hp.jobCommit j
    have h₂ := hp.commit j c
    have h₃ := hp.release j c
    have h₄ := hon j c
    have h₅ := hrep j c
    rw [henq, (hjob j).2.2.1]
    simp only [tokens, hrel] at h ⊢
    omega
  case onCore =>
    intro j c hpos
    rw [(hjob j).1]
    apply hI.onCore j c
    have h₂ := hp.commit j c
    have h₃ := hp.release j c
    have h₄ := hon j c
    have h₅ := hp.jobDone j c
    omega
  case pcIndex =>
    intro g j c k hm
    rw [(hjob j).2.2.2.2]
    exact pcIndex g j c k hm
  case running =>
    intro c j k he
    rw [(hjob j).2.2.2.2]
    rcases hs.engine c with h | h
    · exact hI.running c j k (h ▸ he)
    · rw [h] at he; cases he
  case complete =>
    intro c j k he
    rw [(hjob j).1, (hjob j).2.2.2.2, henq]
    rcases hs.engine c with h | h
    · exact hI.complete c j k (h ▸ he)
    · rw [h] at he; cases he

theorem calm_run (hI : Counts s (a ::ₘ R)) (hs : Calm s s') (hp : Lighter {a} p)
    (pcIndex : ∀ g j c k, .pc g j c k ∈ p → k = (s.jobs j).submitCount c) :
    Counts s' ((p : Multiset Stmt) + R) := by
  refine hI.calm hs (by rw [← Multiset.singleton_add]; exact hp.add R) ?_
  intro g j c k hm
  rcases Multiset.mem_add.mp hm with hm | hm
  · exact pcIndex g j c k (by simpa using hm)
  · exact hI.pcIndex g j c k (Multiset.mem_cons_of_mem hm)

theorem light_run (hI : Counts s (a ::ₘ R)) (hs : Calm s s') (ha : a.light)
    (hp : ∀ b ∈ p, b.light) : Counts s' ((p : Multiset Stmt) + R) := by
  refine hI.calm_run hs (.of_light (by simpa using ha) (by simpa using hp)) ?_
  exact fun _ _ _ _ hm => absurd (hp _ hm) (by simp [Stmt.light])

theorem light_env (hI : Counts s R) (hs : Calm s s') (hp : ∀ b ∈ p, b.light) :
    Counts s' ((p : Multiset Stmt) + R) := by
  have hl : Lighter 0 (p : Multiset Stmt) := .of_light (by simp) (by simpa using hp)
  refine hI.calm hs (by simpa using hl.add R) ?_
  intro g j c k hm
  rcases Multiset.mem_add.mp hm with hm | hm
  · exact absurd (hp _ (by simpa using hm)) (by simp [Stmt.light])
  · exact hI.pcIndex g j c k hm

theorem submits (hI : Counts s (a ::ₘ R)) (ha : a.submits j)
    (h : exec P a x s = some (s', p)) : Counts s' ((p : Multiset Stmt) + R) := by
  obtain ⟨hs, hp⟩ := exec_submits ha h
  refine hI.calm_run hs (.of_submits ha hp) ?_
  rcases hp with rfl | ⟨m, rfl⟩ | ⟨b, rfl, hb⟩ | ⟨r, rfl⟩
  case inr.inr.inl => cases b <;> simp_all [Stmt.submits]
  all_goals simp

theorem tokens_le_one (hI : Counts s B) (j : JobId) (c : Nat) : tokens s B j c ≤ 1 :=
  (hI.token j c).trans (by split <;> omega)

theorem live (hI : Counts s B) (h : 0 < tokens s B j c) :
    0 < s.log.count (.enqueue j) ∧ (s.jobs j).runCount = 0 := by
  by_contra hc
  have ht := hI.token j c
  rw [if_neg hc] at ht
  omega

theorem untouched (hI : Counts s B) (hj : s.log.count (.enqueue j) = 0) (c : Nat) :
    tokens s B j c = 0 := by
  have h := hI.token j c
  rw [if_neg (by omega)] at h
  omega

theorem jobSchedule (hI : Counts s (.jobSchedule j ::ₘ R))
    (h : exec P (.jobSchedule j) x s = some (s', p)) : Counts s' ((p : Multiset Stmt) + R) := by
  simp only [exec, Rknpu.jobSchedule, Option.some.injEq] at h
  split at h <;> cases h <;>
  · refine hI.calm_run (.refl s) ?_ (by simp)
    constructor <;> intros <;>
      simp [preW, runDecW, interruptDecW, jobCommitW, commitW, jobDoneW, releaseW]

theorem domainGet (hI : Counts s (.domainGet j ::ₘ R))
    (h : exec P (.domainGet j) x s = some (s', p)) : Counts s' ((p : Multiset Stmt) + R) := by
  simp only [exec, Rknpu.domainGet, Option.some.injEq] at h
  split at h <;> cases h
  · refine hI.calm_run (calm_record _ _ rfl) ?_ (by simp)
    constructor <;> intros <;>
      simp [preW, runDecW, interruptDecW, jobCommitW, commitW, jobDoneW, releaseW]
  · refine hI.calm_run (calm_setJob _ _ _ rfl) ?_ (by simp)
    constructor <;> intros <;>
      simp [preW, runDecW, interruptDecW, jobCommitW, commitW, jobDoneW, releaseW]

theorem selectCore {i : Nat} {t : Int} {ci : Nat} (hQ : Queued P s (.selectCore j i t ci ::ₘ R))
    (hI : Counts s (.selectCore j i t ci ::ₘ R))
    (h : exec P (.selectCore j i t ci) x s = some (s', p)) :
    Counts s' ((p : Multiset Stmt) + R) := by
  obtain ⟨rfl, t', c', rfl, -, -⟩ | ⟨rfl, rfl⟩ := selectCore_effect h
  · refine hI.calm_run (.refl s') ?_ (by simp)
    constructor <;> intros <;>
      simp [preW, runDecW, interruptDecW, jobCommitW, commitW, jobDoneW, releaseW]
  have henq := hQ.not_enqueued (j := j) (by simp [preW])
  have hst : Steady s (s.setJob j (resolveCore · ci)) (.selectCore j i t ci ::ₘ R)
      (([.domainGet j] : List Stmt) + R) := by
    constructor <;> intros <;>
      simp_all [Dev.setJob, interruptDecW, jobCommitW, commitW, jobDoneW, releaseW]
    rename_i k
    by_cases hk : k = j
    · subst hk; simp [resolveCore]
    · simp [hk]
  have hjob : ∀ k, (s.setJob j (resolveCore · ci)).jobs k =
      if k = j then resolveCore (s.jobs j) ci else s.jobs k := fun k => by
    by_cases hk : k = j <;> simp [Dev.setJob, hk]
  have hlog : (s.setJob j (resolveCore · ci)).log = s.log := rfl
  have hslot : (s.setJob j (resolveCore · ci)).slot = s.slot := rfl
  generalize s.setJob j (resolveCore · ci) = s' at *
  have hother : ∀ k, 0 < s.log.count (.enqueue k) → s'.jobs k = s.jobs k := fun k hk => by
    rw [hjob, if_neg (by rintro rfl; omega)]
  have hzero := hI.untouched henq
  constructor
  case initial =>
    intro k hk hm
    by_cases hkj : k = j
    · rw [hjob, if_pos hkj]
      rfl
    · rw [Dev.mask, hjob, if_neg hkj] at hm
      rw [hjob, if_neg hkj]
      exact hI.initial k (hlog ▸ hk) hm
  case idle => exact fun k hk => by rw [hst.interruptDec]; exact hI.idle k (hlog ▸ hk)
  case held => exact fun k d => by rw [hlog, hslot]; exact hI.held k d
  case ints =>
    intro k hk
    rw [hlog] at hk
    rw [hother k hk, hlog, hst.interruptDec]
    exact hI.ints k hk
  case token =>
    intro k d
    have h := hI.token k d
    rw [hst.tokens, hlog]
    by_cases hk : 0 < s.log.count (.enqueue k)
    · rwa [hother k hk]
    · rw [if_neg (by omega)] at h ⊢
      exact h
  case onCore =>
    intro k d hpos
    rw [hst.onCore] at hpos
    have hkj : k ≠ j := by
      rintro rfl
      have := hzero d
      simp only [tokens, reported] at this
      omega
    rw [Dev.mask, hjob, if_neg hkj]
    exact hI.onCore k d hpos
  case pcIndex => exact fun g k d n hm => hst.pcIndex hI hm
  case running => exact fun d k n he => hst.running hI he
  case complete =>
    intro d k n he
    obtain ⟨h₁, h₂, h₃⟩ := hI.complete d k n (hst.engine ▸ he)
    rw [Dev.mask, hother k h₂, hlog]
    exact ⟨h₁, h₂, h₃⟩

theorem enqueue (hQ : Queued P s (.enqueue j ::ₘ R)) (hI : Counts s (.enqueue j ::ₘ R))
    (h : exec P (.enqueue j) x s = some (s', p)) : Counts s' ((p : Multiset Stmt) + R) := by
  have henq := hQ.not_enqueued (j := j) (by simp [preW])
  have hmask := hQ.resolved j (by rw [load_cons, resolvedW, if_pos rfl]; omega)
  obtain ⟨hs, rfl, hslot, hlog, -⟩ := enqueue_effect h
  have hjob := hs.fields
  have hcnt : ∀ k, s'.log.count (.enqueue k) =
      s.log.count (.enqueue k) + if j = k then 1 else 0 := fun k => by
    simp [hlog, List.count_append, List.count_singleton]
  have hst : Steady s s' (.enqueue j ::ₘ R) (([.nextLoop j 0] : List Stmt) + R) := by
    refine ⟨hs.engine, fun k => (hjob k).2.2.2.2, ?_, ?_, ?_, ?_, ?_, ?_, ?_⟩ <;> intros <;>
      simp_all [interruptDecW, jobCommitW, commitW, jobDoneW, releaseW]
  have hrel : releaseCores s'.log = releaseCores s.log := by
    funext k
    rw [hlog, releaseCores_append]
    exact List.append_nil _
  have hnone : releaseCores s.log j = [] := by
    refine List.eq_nil_iff_forall_not_mem.mpr fun c hc => ?_
    have h := hI.held j c
    rw [← List.count_pos_iff, count_releaseCores] at hc
    rw [hQ.not_picked henq c] at h
    omega
  constructor
  case initial =>
    intro k hk hm
    rw [(hjob k).1] at hm
    rw [(hjob k).2.1, (hjob k).2.2.2.1]
    exact hI.initial k (by rw [hcnt] at hk; omega) hm
  case idle =>
    intro k hk
    rw [hst.interruptDec]
    exact hI.idle k (by rw [hcnt] at hk; omega)
  case held =>
    intro k d
    have h := hI.held k d
    rw [hst.release, hslot, hlog, List.count_append]
    omega
  case ints =>
    intro k hk
    rw [(hjob k).2.1, (hjob k).2.2.2.1, hrel, hst.interruptDec]
    by_cases hkj : j = k
    · subst hkj
      rw [hI.initial j henq hmask, hI.idle j henq, hnone]
      rfl
    · exact hI.ints k (by rw [hcnt, if_neg hkj] at hk; omega)
  case token =>
    intro k d
    have h := hI.token k d
    rw [hst.tokens, (hjob k).2.2.1, hcnt]
    refine h.trans ?_
    split
    · rw [if_pos ⟨by omega, by tauto⟩]
    · exact Nat.zero_le _
  case onCore =>
    intro k d hpos
    rw [hst.onCore] at hpos
    rw [(hjob k).1]
    exact hI.onCore k d hpos
  case pcIndex => exact fun g k d n hm => hst.pcIndex hI hm
  case running => exact fun d k n he => hst.running hI he
  case complete =>
    intro d k n he
    obtain ⟨h₁, h₂, h₃⟩ := hI.complete d k n (hst.engine ▸ he)
    rw [(hjob k).1, (hjob k).2.2.2.2, hcnt]
    exact ⟨h₁, by omega, h₃⟩

theorem pickUp (hI : Counts s (.pickUp c ::ₘ R))
    (h : exec P (.pickUp c) x s = some (s', p)) : Counts s' ((p : Multiset Stmt) + R) := by
  obtain ⟨rfl, rfl, -⟩ | ⟨j, rest, hnone, -, hs, rfl, hslot, hlog, -⟩ := pickUp_effect h
  · exact hI.light_run (.refl s') rfl (by simp)
  have hjob := hs.fields
  have hcnt : ∀ k, s'.log.count (.enqueue k) = s.log.count (.enqueue k) := fun k => by
    simp [hlog, List.count_append]
  have hst : Steady s s' (.pickUp c ::ₘ R) (([.runDec j] : List Stmt) + R) := by
    refine ⟨hs.engine, fun k => (hjob k).2.2.2.2, ?_, ?_, ?_, ?_, ?_, ?_, ?_⟩ <;> intros <;>
      simp_all [interruptDecW, jobCommitW, commitW, jobDoneW, releaseW]
  have hrel : releaseCores s'.log = releaseCores s.log := by
    funext k
    rw [hlog, releaseCores_append]
    exact List.append_nil _
  constructor
  case initial =>
    intro k hk hm
    rw [(hjob k).2.1, (hjob k).2.2.2.1]
    exact hI.initial k (hcnt k ▸ hk) ((hjob k).1 ▸ hm)
  case idle => exact fun k hk => by rw [hst.interruptDec]; exact hI.idle k (hcnt k ▸ hk)
  case held =>
    intro k d
    have hh := hI.held k d
    rw [hst.release, hslot, hlog, List.count_append]
    by_cases hd : d = c
    · subst hd
      rw [hnone] at hh
      rw [Function.update_self]
      by_cases hk : j = k
      · subst hk
        simp at hh ⊢
        omega
      · simp [hk] at hh ⊢
        omega
    · rw [Function.update_of_ne hd]
      omega
  case ints =>
    intro k hk
    rw [(hjob k).2.1, (hjob k).2.2.2.1, hrel, hst.interruptDec]
    exact hI.ints k (hcnt k ▸ hk)
  case token =>
    intro k d
    rw [hst.tokens, (hjob k).2.2.1, hcnt]
    exact hI.token k d
  case onCore =>
    intro k d hpos
    rw [hst.onCore] at hpos
    rw [(hjob k).1]
    exact hI.onCore k d hpos
  case pcIndex => exact fun g k d n hm => hst.pcIndex hI hm
  case running => exact fun d k n he => hst.running hI he
  case complete =>
    intro d k n he
    rw [(hjob k).1, (hjob k).2.2.2.2, hcnt]
    exact hI.complete d k n (hst.engine ▸ he)

end Counts

end Rknpu

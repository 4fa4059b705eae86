import Rknpu.Masks
import Rknpu.Effects

namespace Rknpu

open Interleaving

def pickCores (l : List Event) (j : JobId) : List Nat :=
  l.filterMap fun | .pickup c i => if i = j then some c else none | _ => none

section Log

variable (l l' : List Event)

theorem enqueued_append : enqueued (l ++ l') = enqueued l ++ enqueued l' := List.filterMap_append

theorem picked_append (c : Nat) : picked (l ++ l') c = picked l c ++ picked l' c :=
  List.filterMap_append

theorem released_append (c : Nat) : released (l ++ l') c = released l c ++ released l' c :=
  List.filterMap_append

theorem pickCores_append (j : JobId) : pickCores (l ++ l') j = pickCores l j ++ pickCores l' j :=
  List.filterMap_append

theorem count_filterMap_event {β : Type} [BEq β] [LawfulBEq β] {f : Event → Option β} {b : β}
    {e : Event} (h : ∀ e', f e' = some b ↔ e' = e) : (l.filterMap f).count b = l.count e := by
  rw [List.count_filterMap, List.count]
  exact List.countP_congr fun e' _ => by simp [h]

theorem count_enqueued (j : JobId) : (enqueued l).count j = l.count (.enqueue j) :=
  count_filterMap_event l fun e => by cases e <;> simp

theorem count_picked (c : Nat) (j : JobId) : (picked l c).count j = l.count (.pickup c j) :=
  count_filterMap_event l fun e => by cases e <;> simp

theorem count_released (c : Nat) (j : JobId) : (released l c).count j = l.count (.release c j) :=
  count_filterMap_event l fun e => by cases e <;> simp

theorem count_pickCores (c : Nat) (j : JobId) : (pickCores l j).count c = l.count (.pickup c j) :=
  count_filterMap_event l fun e => by cases e <;> simp [and_comm]

theorem mem_enqueued {j : JobId} : j ∈ enqueued l ↔ 0 < l.count (.enqueue j) := by
  rw [← count_enqueued, List.count_pos_iff]

end Log

section Quiet

variable {es : List Event}

theorem enqueued_quiet (h : ∀ e ∈ es, e.queues = false) : enqueued es = [] := by
  rw [enqueued, List.filterMap_eq_nil_iff]
  intro e he
  have := h e he
  cases e <;> simp_all [Event.queues]

theorem picked_quiet (h : ∀ e ∈ es, e.queues = false) (c : Nat) : picked es c = [] := by
  rw [picked, List.filterMap_eq_nil_iff]
  intro e he
  have := h e he
  cases e <;> simp_all [Event.queues]

theorem pickCores_quiet (h : ∀ e ∈ es, e.queues = false) (j : JobId) : pickCores es j = [] := by
  rw [pickCores, List.filterMap_eq_nil_iff]
  intro e he
  have := h e he
  cases e <;> simp_all [Event.queues]

end Quiet

/-- What holds of the lists in every run, whatever interrupts, aborts and recoveries do:
every core picks its jobs up in the order of their enqueueing. -/
structure Queued (P : Platform) (s : Dev) (B : Multiset Stmt) : Prop where
  fresh : ∀ j, s.jobNum ≤ j → load (preW j) B + s.log.count (.enqueue j) = 0
  once : ∀ j, load (preW j) B + s.log.count (.enqueue j) ≤ 1
  width : ∀ j, (s.jobs j).useCoreNum = maskBits (s.mask j)
  chosen : ∀ j i t c, .selectCore j i t c ∈ B → c < P.config.numIrqs
  resolved : ∀ j, 0 < load (resolvedW j) B → s.mask j ≠ 0
  initial : ∀ j, s.log.count (.enqueue j) = 0 → s.mask j ≠ 0 →
    (s.jobs j).runCount = (s.jobs j).useCoreNum
  order : ∀ c, (picked s.log c ++ s.todoList c).Sublist ((enqueued s.log).filter (s.needs P c))
  slots : ∀ j c, s.slot c = some j → 0 < s.log.count (.pickup c j)
  runs : ∀ j, 0 < s.log.count (.enqueue j) →
    (s.jobs j).runCount + (pickCores s.log j).length =
      (s.jobs j).useCoreNum + load (runDecW j) B
  idle : ∀ j, s.log.count (.enqueue j) = 0 → load (runDecW j) B = 0

namespace Queued

variable {P : Platform} {s s' : Dev} {B R : Multiset Stmt} {a : Stmt} {x : Int} {p : List Stmt}

/-- On every core a job is linked or picked up once at most, and only where its mask is. -/
theorem listed (h : Queued P s B) (j : JobId) (c : Nat) :
    (s.todoList c).count j + s.log.count (.pickup c j) ≤
      if s.needs P c j then s.log.count (.enqueue j) else 0 := by
  have hle := (h.order c).count_le j
  rw [List.count_append, count_picked] at hle
  split
  · rename_i hn
    rw [List.count_filter hn, count_enqueued] at hle
    omega
  · rename_i hn
    rw [List.count_eq_zero.mpr fun hm => hn (List.mem_filter.mp hm).2] at hle
    omega

theorem nodup_pickCores (h : Queued P s B) (j : JobId) : (pickCores s.log j).Nodup := by
  rw [List.nodup_iff_count_le_one]
  intro c
  have h₁ := h.listed j c
  have h₂ := h.once j
  rw [count_pickCores]
  split at h₁ <;> omega

theorem needs_of_picked (h : Queued P s B) {j : JobId} {c : Nat}
    (hc : 0 < s.log.count (.pickup c j)) : s.needs P c j := by
  have h₁ := h.listed j c
  split at h₁
  · assumption
  · omega

theorem useCoreNum_pos (h : Queued P s B) {j : JobId} {c : Nat} (hc : s.needs P c j) :
    0 < (s.jobs j).useCoreNum := by
  have hle := length_le_maskBits (List.nodup_singleton c) (m := s.mask j)
    (by simpa using (Bool.and_eq_true_iff.mp hc).2)
  rw [h.width]
  exact hle

theorem inMask_of_mem_pickCores (h : Queued P s B) {j : JobId} {c : Nat}
    (hc : c ∈ pickCores s.log j) : inMask (s.mask j) c := by
  rw [← List.count_pos_iff, count_pickCores] at hc
  exact (Bool.and_eq_true_iff.mp (h.needs_of_picked hc)).2

theorem runDec_le (h : Queued P s B) {j : JobId} (hj : 0 < s.log.count (.enqueue j)) :
    (load (runDecW j) B : Int) ≤ (s.jobs j).runCount := by
  have h₁ := h.runs j hj
  have h₂ := length_le_maskBits (h.nodup_pickCores j) fun c hc => h.inMask_of_mem_pickCores hc
  rw [h.width] at h₁
  omega

/-- Once the counter is zero, every core of the mask has picked the job up. -/
theorem all_picked (h : Queued P s B) {j : JobId} (hj : 0 < s.log.count (.enqueue j))
    (hr : (s.jobs j).runCount = 0) {c : Nat} (hc : inMask (s.mask j) c) :
    0 < s.log.count (.pickup c j) := by
  have h₁ := h.runs j hj
  have h₂ := mem_of_maskBits_le (h.nodup_pickCores j) (fun c hc => h.inMask_of_mem_pickCores hc)
    (by rw [h.width] at h₁; omega) hc
  rwa [← List.count_pos_iff, count_pickCores] at h₂

theorem runCount_eq_zero (h : Queued P s B) {j : JobId} (hj : 0 < s.log.count (.enqueue j))
    (hp : ∀ c, inMask (s.mask j) c → 0 < s.log.count (.pickup c j))
    (hz : load (runDecW j) B = 0) : (s.jobs j).runCount = 0 := by
  have hruns := h.runs j hj
  have hle := h.runDec_le hj
  have hall : maskBits (s.mask j) ≤ (pickCores s.log j).length := by
    rw [maskBits_eq]
    refine (List.subperm_of_subset (List.nodup_range.filter _) fun c hc => ?_).length_le
    rw [← List.count_pos_iff, count_pickCores]
    exact hp c (List.mem_filter.mp hc).2
  rw [h.width] at hruns
  omega

theorem load_resolved_le_pre (j : JobId) (B : Multiset Stmt) :
    load (resolvedW j) B ≤ load (preW j) B := by
  induction B using Multiset.induction with
  | empty => exact le_rfl
  | cons a B ih =>
    rw [load_cons, load_cons]
    refine Nat.add_le_add ?_ ih
    cases a <;> simp [resolvedW, preW]

theorem filter_needs_congr {l : List JobId} {c : Nat} (h : ∀ j ∈ l, s'.mask j = s.mask j) :
    l.filter (s'.needs P c) = l.filter (s.needs P c) :=
  List.filter_congr fun j hj => by simp only [Dev.needs, h j hj]

/-- A quiet step keeps the invariant as long as the pending statements on the way to a
list and the unfinished pick-ups stay what they were. -/
theorem quiet {B' : Multiset Stmt} (hI : Queued P s B) (hs : Quiet s s')
    (pre : ∀ j, load (preW j) B' ≤ load (preW j) B)
    (runDec : ∀ j, load (runDecW j) B' = load (runDecW j) B)
    (chosen : ∀ j i t c, .selectCore j i t c ∈ B' → c < P.config.numIrqs)
    (resolved : ∀ j, 0 < load (resolvedW j) B' → s.mask j ≠ 0) : Queued P s' B' := by
  obtain ⟨es, hlog, hes⟩ := hs.log
  have henq : enqueued s'.log = enqueued s.log := by
    rw [hlog, enqueued_append, enqueued_quiet hes, List.append_nil]
  have hcnt : ∀ j, s'.log.count (.enqueue j) = s.log.count (.enqueue j) := fun j => by
    rw [← count_enqueued, henq, count_enqueued]
  have hpick : ∀ c, picked s'.log c = picked s.log c := fun c => by
    rw [hlog, picked_append, picked_quiet hes, List.append_nil]
  constructor
  case fresh =>
    intro j hj
    have h := hI.fresh j (hs.jobNum ▸ hj)
    have := pre j
    rw [hcnt]
    omega
  case once =>
    intro j
    have h := hI.once j
    have := pre j
    rw [hcnt]
    omega
  case width => exact fun j => by rw [hs.mask, hs.useCoreNum]; exact hI.width j
  case chosen => exact chosen
  case resolved => exact fun j hj => by rw [hs.mask]; exact resolved j hj
  case initial =>
    intro j hj hm
    rw [hs.runCount, hs.useCoreNum]
    exact hI.initial j (hcnt j ▸ hj) (hs.mask j ▸ hm)
  case order =>
    intro c
    rw [hpick, henq, filter_needs_congr fun j _ => hs.mask j]
    exact ((hs.todo c).append_left _).trans (hI.order c)
  case slots =>
    intro j c hc
    have h := hI.slots j c (hs.slot j c hc)
    rw [← count_picked] at h ⊢
    rwa [hpick]
  case runs =>
    intro j hj
    rw [hs.runCount, hs.useCoreNum, runDec, hlog, pickCores_append, pickCores_quiet hes,
      List.append_nil]
    exact hI.runs j (hcnt j ▸ hj)
  case idle => exact fun j hj => by rw [runDec]; exact hI.idle j (hcnt j ▸ hj)

theorem quiet_run (hI : Queued P s (a ::ₘ R)) (hs : Quiet s s')
    (pre : ∀ j, load (preW j) (p : Multiset Stmt) ≤ load (preW j) {a})
    (runDec : ∀ j, load (runDecW j) (p : Multiset Stmt) = load (runDecW j) {a})
    (chosen : ∀ j i t c, .selectCore j i t c ∈ p → c < P.config.numIrqs)
    (resolved : ∀ j, 0 < load (resolvedW j) (p : Multiset Stmt) → s.mask j ≠ 0) :
    Queued P s' ((p : Multiset Stmt) + R) := by
  simp only [load_singleton] at pre runDec
  refine hI.quiet hs ?_ ?_ ?_ ?_
  · intro j
    rw [load_add, load_cons]
    exact Nat.add_le_add_right (pre j) _
  · intro j
    rw [load_add, load_cons, runDec]
  · intro j i t c hm
    rcases Multiset.mem_add.mp hm with hm | hm
    · exact chosen j i t c (by simpa using hm)
    · exact hI.chosen j i t c (Multiset.mem_cons_of_mem hm)
  · intro j hpos
    rw [load_add] at hpos
    by_cases hz : 0 < load (resolvedW j) (p : Multiset Stmt)
    · exact resolved j hz
    · exact hI.resolved j (by rw [load_cons]; omega)

theorem settled_run (hI : Queued P s (a ::ₘ R)) (hs : Quiet s s') (ha : a.settled)
    (hp : ∀ b ∈ p, b.settled) : Queued P s' ((p : Multiset Stmt) + R) := by
  have hB : ∀ b ∈ (p : Multiset Stmt), b.settled := fun b hb => hp b (by simpa using hb)
  refine hI.quiet_run hs ?_ ?_ ?_ ?_
  · exact fun j => (load_settled (fun _ h => (settled_weights h j).1) hB).le.trans (Nat.zero_le _)
  · exact fun j => (load_settled (fun _ h => (settled_weights h j).2.2) hB).trans
      ((load_singleton _ _).trans (settled_weights ha j).2.2).symm
  · exact fun _ _ _ _ hm => absurd (hp _ hm) (by simp [Stmt.settled])
  · intro j hpos
    rw [load_settled (fun _ h => (settled_weights h j).2.1) hB] at hpos
    omega

theorem settled_env (hI : Queued P s R) (hs : Quiet s s') (hp : ∀ b ∈ p, b.settled) :
    Queued P s' ((p : Multiset Stmt) + R) := by
  have hB : ∀ b ∈ (p : Multiset Stmt), b.settled := fun b hb => hp b (by simpa using hb)
  refine hI.quiet hs ?_ ?_ ?_ ?_
  · intro j
    rw [load_add, load_settled (fun _ h => (settled_weights h j).1) hB]
    omega
  · intro j
    rw [load_add, load_settled (fun _ h => (settled_weights h j).2.2) hB, Nat.zero_add]
  · intro j i t c hm
    rcases Multiset.mem_add.mp hm with hm | hm
    · exact absurd (hB _ hm) (by simp [Stmt.settled])
    · exact hI.chosen j i t c hm
  · intro j hpos
    rw [load_add, load_settled (fun _ h => (settled_weights h j).2.1) hB] at hpos
    exact hI.resolved j (by omega)

theorem submits (hI : Queued P s (a ::ₘ R)) {j : JobId} (ha : a.submits j)
    (h : exec P a x s = some (s', p)) : Queued P s' ((p : Multiset Stmt) + R) := by
  obtain ⟨hs, hp⟩ := exec_submits ha h
  have hl := Lighter.of_submits ha hp
  refine hI.quiet_run hs.quiet hl.pre hl.runDec ?_ ?_
  · rcases hp with rfl | ⟨m, rfl⟩ | ⟨b, rfl, hb⟩ | ⟨r, rfl⟩
    case inr.inr.inl => cases b <;> simp_all [Stmt.submits]
    all_goals simp
  · rcases hp with rfl | ⟨m, rfl⟩ | ⟨b, rfl, hb⟩ | ⟨r, rfl⟩
    case inr.inr.inl => simp [(submits_weights hb _ 0).2.1]
    all_goals simp [resolvedW]

theorem jobSchedule {j : JobId} (hI : Queued P s (.jobSchedule j ::ₘ R))
    (h : exec P (.jobSchedule j) x s = some (s', p)) : Queued P s' ((p : Multiset Stmt) + R) := by
  simp only [exec, Rknpu.jobSchedule, Option.some.injEq] at h
  split at h <;> cases h
  · refine hI.quiet_run (Calm.refl s).quiet (by simp [preW]) (by simp [runDecW]) ?_
      (by simp [resolvedW])
    simp only [List.mem_singleton, Stmt.selectCore.injEq]
    rintro i k t c ⟨-, -, -, rfl⟩
    exact P.config.numIrqs_pos
  · rename_i hm
    refine hI.quiet_run (Calm.refl s).quiet (by simp [preW]) (by simp [runDecW]) (by simp) ?_
    intro i hi
    have : j = i := by
      by_contra hne
      simp [resolvedW, hne] at hi
    exact this ▸ hm

theorem domainGet {j : JobId} (hI : Queued P s (.domainGet j ::ₘ R))
    (h : exec P (.domainGet j) x s = some (s', p)) : Queued P s' ((p : Multiset Stmt) + R) := by
  simp only [exec, Rknpu.domainGet, Option.some.injEq] at h
  split at h <;> cases h
  · refine hI.quiet_run (calm_record _ _ rfl).quiet (by simp [preW]) (by simp [runDecW]) (by simp) ?_
    intro i hi
    exact hI.resolved i (by simpa [resolvedW] using Nat.lt_add_right _ hi)
  · exact hI.quiet_run (calm_setJob _ _ _ rfl).quiet (by simp) (by simp [runDecW]) (by simp)
      (by simp)

/-- The way to the lists is short: only the job's own thread is on it. -/
theorem not_enqueued (hI : Queued P s (a ::ₘ R)) {j : JobId} (ha : 0 < preW j a) :
    s.log.count (.enqueue j) = 0 := by
  have h := hI.once j
  rw [load_cons] at h
  omega

theorem not_picked (hI : Queued P s B) {j : JobId} (hj : s.log.count (.enqueue j) = 0) (c : Nat) :
    s.log.count (.pickup c j) = 0 := by
  have h := hI.listed j c
  split at h <;> omega

theorem lt_jobNum (hI : Queued P s B) {j : JobId} (hj : 0 < s.log.count (.enqueue j)) :
    j < s.jobNum :=
  Nat.lt_of_not_le fun hc => by
    have h := hI.fresh j hc
    omega

theorem enqueued_of_slot (hI : Queued P s B) {j : JobId} {c : Nat} (hj : s.slot c = some j) :
    0 < s.log.count (.enqueue j) := by
  have h₁ := hI.slots j c hj
  have h₂ := hI.listed j c
  split at h₂ <;> omega

theorem enqueued_of_todo (hI : Queued P s B) {j : JobId} {c : Nat} (hj : j ∈ s.todoList c) :
    0 < s.log.count (.enqueue j) := by
  have h₁ := List.count_pos_iff.mpr hj
  have h₂ := hI.listed j c
  split at h₂ <;> omega

theorem enqueued_of_picked (hI : Queued P s B) {j : JobId} {c : Nat} (hj : j ∈ picked s.log c) :
    0 < s.log.count (.enqueue j) := by
  rw [← mem_enqueued]
  exact (List.mem_filter.mp ((hI.order c).mem (List.mem_append_left _ hj))).1

theorem selectCore {j : JobId} {i : Nat} {t : Int} {ci : Nat}
    (hI : Queued P s (.selectCore j i t ci ::ₘ R))
    (h : exec P (.selectCore j i t ci) x s = some (s', p)) :
    Queued P s' ((p : Multiset Stmt) + R) := by
  have hci := hI.chosen j i t ci (Multiset.mem_cons_self _ _)
  obtain ⟨rfl, t', c', rfl, hi, hc'⟩ | ⟨rfl, rfl⟩ := selectCore_effect h
  · refine hI.quiet_run (Calm.refl s').quiet (by simp [preW]) (by simp [runDecW]) ?_
      (by simp [resolvedW])
    simp only [List.mem_singleton, Stmt.selectCore.injEq]
    rintro _ _ _ c ⟨-, -, -, rfl⟩
    rcases hc' with rfl | rfl
    · exact hi
    · exact hci
  · have hlt : ci < 3 := hci.trans_le P.config.numIrqs_le
    have henq := hI.not_enqueued (j := j) (by simp [preW])
    have hjob : ∀ k, (s.setJob j (resolveCore · ci)).jobs k =
        if k = j then resolveCore (s.jobs j) ci else s.jobs k := fun k => by
      by_cases hk : k = j <;> simp [Dev.setJob, hk]
    have hlog : (s.setJob j (resolveCore · ci)).log = s.log := rfl
    have htodo : (s.setJob j (resolveCore · ci)).todoList = s.todoList := rfl
    have hnum : (s.setJob j (resolveCore · ci)).jobNum = s.jobNum := rfl
    have hslot : (s.setJob j (resolveCore · ci)).slot = s.slot := rfl
    generalize s.setJob j (resolveCore · ci) = s' at *
    have hother : ∀ k, 0 < s.log.count (.enqueue k) → s'.jobs k = s.jobs k := fun k hk => by
      rw [hjob, if_neg (by rintro rfl; omega)]
    constructor
    case fresh =>
      intro k hk
      have := hI.fresh k (hnum ▸ hk)
      simpa [hlog, preW] using this
    case once =>
      intro k
      have := hI.once k
      simpa [hlog, preW] using this
    case width =>
      intro k
      rw [Dev.mask, hjob]
      split
      · simp [resolveCore, maskBits_coreMaskOf hlt]
      · exact hI.width k
    case chosen =>
      intro k i' t' c' hm
      exact hI.chosen k i' t' c' (Multiset.mem_cons_of_mem (by simpa using hm))
    case resolved =>
      intro k hpos
      rw [Dev.mask, hjob]
      split
      · simpa [resolveCore] using coreMaskOf_ne_zero hlt
      · rename_i hk
        exact hI.resolved k (by simpa [resolvedW, Ne.symm hk] using hpos)
    case initial =>
      intro k hk hm
      rw [Dev.mask, hjob] at hm
      rw [hjob]
      split
      · simp [resolveCore]
      · rename_i hkj
        rw [if_neg hkj] at hm
        exact hI.initial k (hlog ▸ hk) hm
    case order =>
      intro c
      rw [hlog, htodo, filter_needs_congr (s := s)]
      · exact hI.order c
      · intro k hk
        rw [Dev.mask, hother k ((mem_enqueued _).mp hk), Dev.mask]
    case slots => exact fun k c hc => by rw [hlog]; exact hI.slots k c (hslot ▸ hc)
    case runs =>
      intro k hk
      rw [hlog] at hk
      have h := hI.runs k hk
      rw [hother k hk, hlog]
      simpa [runDecW] using h
    case idle =>
      intro k hk
      have h := hI.idle k (hlog ▸ hk)
      simpa [runDecW] using h

theorem enqueue {j : JobId} (hI : Queued P s (.enqueue j ::ₘ R))
    (h : exec P (.enqueue j) x s = some (s', p)) : Queued P s' ((p : Multiset Stmt) + R) := by
  have henq := hI.not_enqueued (j := j) (by simp [preW])
  have hmask := hI.resolved j (by rw [load_cons, resolvedW, if_pos rfl]; omega)
  have hnone : pickCores s.log j = [] := by
    refine List.eq_nil_iff_forall_not_mem.mpr fun c hc => ?_
    rw [← List.count_pos_iff, count_pickCores, hI.not_picked henq c] at hc
    omega
  obtain ⟨hs, rfl, hslot, hlog, htodo⟩ := enqueue_effect h
  have hjob := hs.fields
  have hcnt : ∀ k, s'.log.count (.enqueue k) =
      s.log.count (.enqueue k) + if j = k then 1 else 0 := fun k => by
    simp [hlog, List.count_append, List.count_singleton]
  have hpick : pickCores s'.log = pickCores s.log := by
    funext k
    rw [hlog, pickCores_append]
    exact List.append_nil _
  constructor
  case fresh =>
    intro k hk
    have h := hI.fresh k (hs.jobNum ▸ hk)
    have hp : preW k (.enqueue j) = if j = k then 1 else 0 := rfl
    rw [load_cons] at h
    simp only [hcnt, load_add, load_coe_cons, load_coe_nil, preW]
    omega
  case once =>
    intro k
    have h := hI.once k
    have hp : preW k (.enqueue j) = if j = k then 1 else 0 := rfl
    rw [load_cons] at h
    simp only [hcnt, load_add, load_coe_cons, load_coe_nil, preW]
    omega
  case width => exact fun k => by rw [(hjob k).1, (hjob k).2.1]; exact hI.width k
  case chosen =>
    intro k i' t' c' hm
    exact hI.chosen k i' t' c' (Multiset.mem_cons_of_mem (by simpa using hm))
  case resolved =>
    intro k hpos
    rw [(hjob k).1]
    refine hI.resolved k ?_
    simp only [load_add, load_coe_cons, load_coe_nil, load_cons, resolvedW] at hpos ⊢
    omega
  case initial =>
    intro k hk hm
    rw [(hjob k).1] at hm
    rw [(hjob k).2.1, (hjob k).2.2.1]
    exact hI.initial k (by rw [hcnt] at hk; omega) hm
  case order =>
    intro c
    have hp : picked s'.log c = picked s.log c := by
      rw [hlog, picked_append]
      exact List.append_nil _
    have he : enqueued s'.log = enqueued s.log ++ [j] := by
      rw [hlog, enqueued_append]
      rfl
    rw [hp, he, filter_needs_congr fun k _ => (hjob k).1, List.filter_append, htodo]
    split
    · rename_i hn
      rw [List.filter_cons_of_pos hn, ← List.append_assoc]
      exact (hI.order c).append (.refl _)
    · rename_i hn
      rw [List.filter_cons_of_neg hn, List.filter_nil, List.append_nil]
      exact hI.order c
  case slots =>
    intro k c hc
    have h := hI.slots k c (hslot ▸ hc)
    rw [hlog, List.count_append]
    omega
  case runs =>
    intro k hk
    have hd : load (runDecW k) ((([.nextLoop j 0] : List Stmt) : Multiset Stmt) + R) =
        load (runDecW k) (.enqueue j ::ₘ R) := by simp [runDecW]
    rw [(hjob k).2.1, (hjob k).2.2.1, hpick, hd]
    by_cases hkj : j = k
    · subst hkj
      rw [hI.initial j henq hmask, hI.idle j henq, hnone]
      rfl
    · exact hI.runs k (by rw [hcnt, if_neg hkj] at hk; omega)
  case idle =>
    intro k hk
    have h := hI.idle k (by rw [hcnt] at hk; omega)
    simpa [runDecW] using h

theorem pickUp {c : Nat} (hI : Queued P s (.pickUp c ::ₘ R))
    (h : exec P (.pickUp c) x s = some (s', p)) : Queued P s' ((p : Multiset Stmt) + R) := by
  obtain ⟨rfl, rfl, -⟩ | ⟨j, rest, hnone, hj, hs, rfl, hslot, hlog, htodo⟩ := pickUp_effect h
  · exact hI.settled_run (Calm.refl s').quiet rfl (by simp)
  have hjob := hs.fields
  have hcnt : ∀ k, s'.log.count (.enqueue k) = s.log.count (.enqueue k) := fun k => by
    simp [hlog, List.count_append]
  have henq : enqueued s'.log = enqueued s.log := by
    rw [hlog, enqueued_append]
    exact List.append_nil _
  have hin : 0 < s.log.count (.enqueue j) := by
    have h := hI.listed j c
    rw [hj, List.count_cons_self] at h
    split at h <;> omega
  constructor
  case fresh =>
    intro k hk
    have h := hI.fresh k (hs.jobNum ▸ hk)
    rw [hcnt]
    simpa [preW] using h
  case once =>
    intro k
    have h := hI.once k
    rw [hcnt]
    simpa [preW] using h
  case width => exact fun k => by rw [(hjob k).1, (hjob k).2.1]; exact hI.width k
  case chosen =>
    intro k i' t' c' hm
    exact hI.chosen k i' t' c' (Multiset.mem_cons_of_mem (by simpa using hm))
  case resolved =>
    intro k hpos
    rw [(hjob k).1]
    exact hI.resolved k (by simpa [resolvedW] using hpos)
  case initial =>
    intro k hk hm
    rw [(hjob k).2.1, (hjob k).2.2.1]
    exact hI.initial k (hcnt k ▸ hk) ((hjob k).1 ▸ hm)
  case order =>
    intro d
    have ho := hI.order d
    rw [hlog, picked_append, ← hlog, henq, htodo, filter_needs_congr fun k _ => (hjob k).1]
    by_cases hd : d = c
    · subst hd
      rw [hj] at ho
      simpa [picked] using ho
    · have hnil : picked [.pickup c j] d = [] := by simp [picked, Ne.symm hd]
      rwa [hnil, List.append_nil, Function.update_of_ne hd]
  case slots =>
    intro k d hk
    rw [hlog, List.count_append]
    by_cases hd : d = c
    · subst hd
      rw [hslot, Function.update_self, Option.some.injEq] at hk
      subst hk
      simp
    · rw [hslot, Function.update_of_ne hd] at hk
      have := hI.slots k d hk
      omega
  case runs =>
    intro k hk
    have h := hI.runs k (hcnt k ▸ hk)
    have hlen : (pickCores [.pickup c j] k).length = if j = k then 1 else 0 := by
      by_cases hkj : j = k <;> simp [pickCores, hkj]
    rw [(hjob k).2.1, (hjob k).2.2.1, hlog, pickCores_append, List.length_append, hlen]
    simp only [load_cons, load_add, load_coe_cons, load_coe_nil, runDecW] at h ⊢
    push_cast at h ⊢
    omega
  case idle =>
    intro k hk
    have hkj : j ≠ k := by
      rintro rfl
      rw [hcnt] at hk
      omega
    have h := hI.idle k (hcnt k ▸ hk)
    simpa [runDecW, hkj] using h

theorem runDec {j : JobId} (hI : Queued P s (.runDec j ::ₘ R))
    (h : exec P (.runDec j) x s = some (s', p)) : Queued P s' ((p : Multiset Stmt) + R) := by
  obtain ⟨rfl, hp⟩ := runDec_effect h
  have hset : ∀ b ∈ (p : Multiset Stmt), b.settled := by
    rw [hp]
    split <;> simp [Stmt.settled]
  have hpos : 0 < s.log.count (.enqueue j) := by
    by_contra hz
    have h := hI.idle j (by omega)
    rw [load_cons, runDecW, if_pos rfl] at h
    omega
  have hmask : ∀ k, (s.setJob j fun b => { b with runCount := b.runCount - 1 }).mask k =
      s.mask k := fun k => by
    by_cases hk : k = j
    · subst hk; simp [Dev.mask, Dev.setJob]
    · simp [Dev.mask, Dev.setJob, hk]
  have hjob : ∀ k, (s.setJob j fun b => { b with runCount := b.runCount - 1 }).jobs k =
      { s.jobs k with runCount := (s.jobs k).runCount - if j = k then 1 else 0 } := fun k => by
    by_cases hk : j = k
    · subst hk; simp [Dev.setJob]
    · simp [Dev.setJob, hk, Ne.symm hk]
  have hload : ∀ k, load (runDecW k) ((p : Multiset Stmt) + R) + (if j = k then 1 else 0) =
      load (runDecW k) (.runDec j ::ₘ R) := fun k => by
    rw [load_add, load_settled (fun _ h => (settled_weights h k).2.2) hset, load_cons, runDecW]
    omega
  have hpre : ∀ k, load (preW k) ((p : Multiset Stmt) + R) = load (preW k) (.runDec j ::ₘ R) :=
    fun k => by
      rw [load_add, load_settled (fun _ h => (settled_weights h k).1) hset, load_cons]
      rfl
  constructor
  case fresh => exact fun k hk => by rw [hpre]; exact hI.fresh k hk
  case once => exact fun k => by rw [hpre]; exact hI.once k
  case width => exact fun k => by rw [hmask, hjob]; exact hI.width k
  case chosen =>
    intro k i t c hm
    rcases Multiset.mem_add.mp hm with hm | hm
    · exact absurd (hset _ hm) (by simp [Stmt.settled])
    · exact hI.chosen k i t c (Multiset.mem_cons_of_mem hm)
  case resolved =>
    intro k hk
    rw [hmask]
    rw [load_add, load_settled (fun _ h => (settled_weights h k).2.1) hset] at hk
    exact hI.resolved k (by rw [load_cons]; omega)
  case initial =>
    intro k hk hm
    have hkj : j ≠ k := by
      rintro rfl
      exact absurd hk (by simpa [Dev.setJob] using hpos.ne')
    rw [hmask] at hm
    have h := hI.initial k hk hm
    rw [hjob, if_neg hkj]
    simpa using h
  case order =>
    intro c
    rw [filter_needs_congr fun k _ => hmask k]
    exact hI.order c
  case slots => exact hI.slots
  case runs =>
    intro k hk
    have h := hI.runs k hk
    have hl := hload k
    rw [hjob]
    simp only [Dev.setJob] at h ⊢
    split at hl
    · simp_all
      omega
    · simp_all
  case idle =>
    intro k hk
    have h := hI.idle k hk
    have hl := hload k
    omega

theorem exec (hI : Queued P s (a ::ₘ R)) (h : exec P a x s = some (s', p)) :
    Queued P s' ((p : Multiset Stmt) + R) := by
  by_cases ha : a.settled
  · by_cases hp : ∃ c, a = .pickUp c
    · obtain ⟨c, rfl⟩ := hp
      exact hI.pickUp h
    · obtain ⟨hs, hl⟩ := exec_quiet ha (by simpa using hp) h
      exact hI.settled_run hs ha hl
  cases a with
  | fenceIn j | fenceWait j _ | fenceOut j | fenceFd j | dispatch j =>
    exact hI.submits (j := j) (by simp [Stmt.submits]) h
  | jobSchedule j => exact hI.jobSchedule h
  | selectCore j i t ci => exact hI.selectCore h
  | domainGet j => exact hI.domainGet h
  | enqueue j => exact hI.enqueue h
  | runDec j => exact hI.runDec h
  | _ => exact absurd rfl ha

theorem spawn {e : Occurrence} (hI : Queued P s R) (he : e.spawns)
    (h : occur P e s = some (s', p)) : Queued P s' ((p : Multiset Stmt) + R) := by
  obtain ⟨rfl, rfl⟩ | ⟨b, args, hb, hp, hn, hj, ht, hs, -, hl⟩ := spawn_effect he h
  · simpa using hI
  have hw : ∀ k, load (preW k) (p : Multiset Stmt) = (if s.jobNum = k then 1 else 0) ∧
      load (resolvedW k) (p : Multiset Stmt) = 0 ∧ load (runDecW k) (p : Multiset Stmt) = 0 := by
    rcases hp with rfl | rfl <;> simp [preW, resolvedW, runDecW]
  have hold : ∀ k, k ≠ s.jobNum → s'.jobs k = s.jobs k := fun k hk => by simp [hj, hk]
  have hnew : s'.jobs s.jobNum = b := by simp [hj]
  simp only [Job.counters, Prod.mk.injEq] at hb
  have hzero := hI.fresh s.jobNum le_rfl
  constructor
  case fresh =>
    intro k hk
    have h := hI.fresh k (by omega)
    rw [load_add, (hw k).1, hl, if_neg (by omega)]
    omega
  case once =>
    intro k
    have h := hI.once k
    rw [load_add, (hw k).1, hl]
    split
    · rename_i hk
      subst hk
      omega
    · omega
  case width =>
    intro k
    by_cases hk : k = s.jobNum
    · subst hk
      rw [Dev.mask, hnew, hb.1, hb.2.1]
      rfl
    · rw [Dev.mask, hold k hk]
      exact hI.width k
  case chosen =>
    intro k i t c hm
    refine hI.chosen k i t c ?_
    rcases hp with rfl | rfl <;> simpa using hm
  case resolved =>
    intro k hpos
    rw [load_add, (hw k).2.1, Nat.zero_add] at hpos
    have hk : k ≠ s.jobNum := by
      rintro rfl
      have : load (resolvedW s.jobNum) R ≤ load (preW s.jobNum) R := load_resolved_le_pre _ _
      omega
    rw [Dev.mask, hold k hk]
    exact hI.resolved k hpos
  case initial =>
    intro k hk hm
    by_cases hkn : k = s.jobNum
    · subst hkn
      rw [hnew, hb.2.1, hb.2.2.1]
      rfl
    · rw [Dev.mask, hold k hkn] at hm
      rw [hold k hkn]
      exact hI.initial k (hl ▸ hk) hm
  case order =>
    intro c
    rw [hl, ht, filter_needs_congr (s := s)]
    · exact hI.order c
    · intro k hk
      rw [mem_enqueued] at hk
      rw [Dev.mask, hold k (by rintro rfl; omega), Dev.mask]
  case slots => exact fun k c hc => by rw [hl]; exact hI.slots k c (hs ▸ hc)
  case runs =>
    intro k hk
    rw [hl] at hk
    rw [hold k (by rintro rfl; omega), load_add, (hw k).2.2, Nat.zero_add, hl]
    exact hI.runs k hk
  case idle =>
    intro k hk
    rw [load_add, (hw k).2.2, Nat.zero_add]
    exact hI.idle k (hl ▸ hk)

theorem occur {e : Occurrence} (hI : Queued P s R) (h : occur P e s = some (s', p)) :
    Queued P s' ((p : Multiset Stmt) + R) := by
  by_cases he : e.spawns
  · exact hI.spawn he h
  · obtain ⟨hs, hl⟩ := occur_quiet (by simpa using he) h
    exact hI.settled_env hs hl

theorem init : Queued P Dev.init 0 := by
  constructor <;> simp [Dev.init, Dev.mask, jobAlloc, emptySubmit, maskBits, picked]

theorem reach {G : Guard Dev Stmt Int Occurrence} {C : Conf Dev Stmt}
    (hC : Reach (driver P) G Dev.init C) : Queued P C.shared C.pending :=
  hC.invariant (Queued P) init (fun _ _ _ _ _ _ hI _ h => hI.exec h)
    (fun _ _ _ _ _ hI _ h => hI.occur h)

theorem mask_exec (hI : Queued P s (a ::ₘ R)) (h : Rknpu.exec P a x s = some (s', p)) {j : JobId}
    (hj : 0 < s.log.count (.enqueue j)) : s'.mask j = s.mask j := by
  by_cases ha : a.counts = false
  · exact (counters_fields (exec_counters ha h j)).1
  cases a with
  | selectCore i n t ci =>
    obtain ⟨rfl, -⟩ | ⟨rfl, -⟩ := selectCore_effect h
    · rfl
    · have hi := hI.not_enqueued (j := i) (by simp [preW])
      have hne : j ≠ i := by rintro rfl; omega
      simp [Dev.mask, Dev.setJob, hne]
  | runDec | jobDone | interruptDec =>
    cases h
    exact field_setJob (fun b => b.args.coreMask) rfl j
  | _ => exact absurd rfl ha

theorem mask_occur {e : Occurrence} (hI : Queued P s R) (h : Rknpu.occur P e s = some (s', p))
    {j : JobId} (hj : 0 < s.log.count (.enqueue j)) : s'.mask j = s.mask j := by
  by_cases he : e.spawns
  · obtain ⟨rfl, -⟩ | ⟨b, args, -, -, -, hjobs, -⟩ := spawn_effect he h
    · rfl
    · have hzero := hI.fresh s.jobNum le_rfl
      have hne : j ≠ s.jobNum := by rintro rfl; omega
      simp [Dev.mask, hjobs, hne]
  · exact (occur_quiet (by simpa using he) h).1.mask j

theorem useCoreNum_exec (hI : Queued P s (a ::ₘ R)) (h : Rknpu.exec P a x s = some (s', p))
    {j : JobId} (hj : 0 < s.log.count (.enqueue j)) :
    (s'.jobs j).useCoreNum = (s.jobs j).useCoreNum := by
  rw [(hI.exec h).width, hI.width, hI.mask_exec h hj]

theorem mask_ne_zero {G : Guard Dev Stmt Int Occurrence} {C : Conf Dev Stmt}
    (hC : Reach (driver P) G Dev.init C) {j : JobId} (hj : 0 < C.shared.log.count (.enqueue j)) :
    C.shared.mask j ≠ 0 := by
  refine hC.invariant_with (Queued P)
    (fun s _ => ∀ j, 0 < s.log.count (.enqueue j) → s.mask j ≠ 0) (fun _ hC => reach hC)
    (by simp [Dev.init]) ?_ ?_ j hj
  · intro s R a x s' p hQ hI _ h k hk
    by_cases ha : a = .enqueue k
    · subst ha
      rw [((enqueue_effect (x := x) h).1.fields k).1]
      exact hQ.resolved k (by rw [load_cons, resolvedW, if_pos rfl]; omega)
    · rw [count_enqueue ha h] at hk
      rw [hQ.mask_exec h hk]
      exact hI k hk
  · intro s R e s' p hQ hI _ h k hk
    rw [occur_count h (by simp)] at hk
    rw [hQ.mask_occur h hk]
    exact hI k hk

end Queued

end Rknpu

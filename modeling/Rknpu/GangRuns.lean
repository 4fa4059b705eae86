import Rknpu.Signals
import Rknpu.Starts

namespace Rknpu

open Interleaving

variable {P : Platform} {C : Conf Dev Stmt} {j : JobId} {c : Nat}

section Station

variable (hC : Reach (driver P) (gangWorld P) Dev.init C)
include hC

theorem gang_needs (hj : j ∈ enqueued C.shared.log) (c : Nat) :
    C.shared.needs P c j = inMask (C.shared.mask j) c := by
  have hlt := (Queued.reach hC).lt_jobNum ((mem_enqueued _).mp hj)
  have hargs := (gangWorld_cores hC).args j hlt
  rw [Dev.needs, Bool.and_eq_right_iff_imp, decide_eq_true_iff]
  exact fun hc => lt_numIrqs hargs.2.2.2 hc

theorem gang_filter (c : Nat) : (enqueued C.shared.log).filter (C.shared.needs P c) =
    (enqueued C.shared.log).filter fun j => inMask (C.shared.mask j) c :=
  List.filter_congr fun _ hj => gang_needs hC hj c

theorem gang_count_needs (c : Nat) (j : JobId) :
    ((enqueued C.shared.log).filter (C.shared.needs P c)).count j =
      if j ∈ enqueued C.shared.log ∧ inMask (C.shared.mask j) c then 1 else 0 := by
  by_cases hj : j ∈ enqueued C.shared.log
  · have hone := List.count_eq_one_of_mem (gangWorld_cores hC).line.nodup hj
    by_cases hc : inMask (C.shared.mask j) c
    · rw [List.count_filter (by rwa [gang_needs hC hj]), hone, if_pos ⟨hj, hc⟩]
    · rw [if_neg fun h => hc h.2, List.count_eq_zero]
      intro hm
      rw [List.mem_filter, gang_needs hC hj] at hm
      exact hc hm.2
  · rw [if_neg fun h => hj h.1, List.count_eq_zero]
    exact fun hm => hj (List.mem_filter.mp hm).1

/-- On every core of its mask an enqueued job is linked once, in the slot, or finished. -/
theorem gang_station (c : Nat) (j : JobId) :
    (C.shared.todoList c).count j + (if C.shared.slot c = some j then 1 else 0) +
        (released C.shared.log c).count j =
      if j ∈ enqueued C.shared.log ∧ inMask (C.shared.mask j) c then 1 else 0 := by
  rw [← gang_count_needs hC, ← (gangWorld_cores hC).line.split c, List.count_append,
    List.count_append]
  cases C.shared.slot c with
  | none =>
    simp
    omega
  | some i =>
    by_cases hi : i = j
    · simp [hi]
      omega
    · simp [hi]
      omega

/-- Every core picks its jobs up in the order of their enqueueing. -/
theorem gang_order (c : Nat) :
    picked C.shared.log c ++ C.shared.todoList c =
      (enqueued C.shared.log).filter fun j => inMask (C.shared.mask j) c := by
  rw [← gang_filter hC]
  refine ((Queued.reach hC).order c).eq_of_length_le (List.Subperm.length_le ?_)
  rw [List.subperm_ext_iff]
  intro j _
  have hheld := (gangWorld_honest.counts hC).held j c
  rw [gang_count_needs hC, ← gang_station hC, List.count_append, count_picked, count_released]
  omega

theorem picked_iff (hj : j ∈ enqueued C.shared.log) (hc : inMask (C.shared.mask j) c) :
    0 < C.shared.log.count (.pickup c j) ↔
      C.shared.slot c = some j ∨ j ∈ released C.shared.log c := by
  have hst := gang_station hC c j
  have hlisted := (Queued.reach hC).listed j c
  have hheld := (gangWorld_honest.counts hC).held j c
  have hone := (Queued.reach hC).once j
  have hboth : j ∈ enqueued C.shared.log ∧ inMask (C.shared.mask j) c := ⟨hj, hc⟩
  rw [if_pos hboth, count_released] at hst
  rw [← List.count_pos_iff, count_released]
  rw [gang_needs hC hj, if_pos hc] at hlisted
  by_cases hs : C.shared.slot c = some j <;> simp only [hs, if_true, if_false] at hst hheld <;>
    simp only [hs, true_or, false_or, iff_true] <;> omega

/-- A job that is `RKNPU_JOB_DONE` has finished on all of its cores. -/
theorem released_of_done (hj : (C.shared.jobs j).done) (hc : inMask (C.shared.mask j) c) :
    j ∈ released C.shared.log c := by
  have hE := Ends.reach gangWorld_honest hC
  have hd := (hE.flag j).mp hj
  have hfin := hE.done j
  rw [← List.count_pos_iff, count_released]
  exact released_of_finished (Queued.reach hC) (gangWorld_honest.counts hC) (by omega) hc

theorem slot_iff_held (c : Nat) (j : JobId) :
    C.shared.slot c = some j ↔ Held C.shared.log c j := by
  have hQ := Queued.reach hC
  have hst := gang_station hC c j
  rw [count_released] at hst
  constructor
  · intro hs
    rw [if_pos hs] at hst
    refine ⟨List.count_pos_iff.mp (hQ.slots j c hs), List.count_eq_zero.mp ?_⟩
    split at hst <;> omega
  · rintro ⟨hp, hr⟩
    rw [← List.count_pos_iff] at hp
    have hn := hQ.needs_of_picked hp
    have hj : j ∈ enqueued C.shared.log := by
      have := hQ.listed j c
      rw [if_pos hn] at this
      exact (mem_enqueued _).mpr (by omega)
    rw [gang_needs hC hj] at hn
    refine ((picked_iff hC hj hn).mp hp).resolve_right fun hm => hr ?_
    rwa [← List.count_pos_iff, count_released, List.count_pos_iff] at hm

theorem count_first_le_one (c : Nat) (j : JobId) : C.shared.log.count (.start c j 0) ≤ 1 := by
  rw [← count_started]
  rcases (Starts.reach gangWorld_honest hC).always j c with h | h <;> rw [h] <;>
    exact List.nodup_iff_count_le_one.mp List.nodup_range 0

end Station

section Idle

variable (hC : Reach (driver P) (gangWorld P) Dev.init C) (hidle : C.pending = 0)
include hC hidle

theorem idle_enqueued (hj : j < C.shared.jobNum) : j ∈ enqueued C.shared.log := by
  have h := Scheduled.reach hC j hj
  rw [hidle, load_zero, Nat.zero_add] at h
  exact (mem_enqueued _).mpr h

/-- A job that all of its cores have picked up runs on each of them, or has finished there. -/
theorem idle_runs (hj : j ∈ enqueued C.shared.log)
    (hp : ∀ c, inMask (C.shared.mask j) c → 0 < C.shared.log.count (.pickup c j))
    (hc : inMask (C.shared.mask j) c) :
    0 < onEngine C.shared j c ∨ j ∈ released C.shared.log c := by
  have hQ := Queued.reach hC
  have hG := gangWorld_cores hC
  rw [mem_enqueued] at hj
  have hrun := hQ.runCount_eq_zero hj hp (by rw [hidle, load_zero])
  have htoken := hG.token j c hj hrun hc
  have hreport := hG.reports c j
  rw [hidle, load_zero] at hreport
  rw [← List.count_pos_iff, count_released]
  simp only [tokens, reported, hidle, load_zero] at htoken
  split at htoken
  · exact absurd (hreport ‹_›) (by omega)
  · omega

theorem idle_started (hj : j ∈ enqueued C.shared.log)
    (hp : ∀ c, inMask (C.shared.mask j) c → 0 < C.shared.log.count (.pickup c j))
    (hc : inMask (C.shared.mask j) c) : 0 ∈ started C.shared.log c j := by
  have hS := Starts.reach gangWorld_honest hC
  rcases idle_runs hC hidle hj hp hc with h | h
  · rw [hS.after j c (by omega)]
    simp
  · rw [← List.count_pos_iff, count_released] at h
    have hpos := hS.leaving j c (by omega)
    rcases hS.always j c with h | h <;> rw [h] <;> simp [hpos]

theorem idle_first (hj : j ∈ enqueued C.shared.log) {before after : List JobId}
    (ho : enqueued C.shared.log = before ++ j :: after) (hb : ∀ i ∈ before, (C.shared.jobs i).done)
    (hc : inMask (C.shared.mask j) c) (hr : j ∉ released C.shared.log c) :
    C.shared.slot c = some j := by
  refine (gangWorld_cores hC).line.first_is_served (fun hs => ?_) ho (fun i hi hn => ?_)
    (gang_needs hC hj c ▸ hc) hr
  · by_contra ht
    obtain ⟨b, hb, -⟩ := (gangWorld_attended hC).core c hs ht
    simp [hidle] at hb
  · exact released_of_done hC (hb i hi) (Bool.and_eq_true_iff.mp hn).2

end Idle

/-- Gang scheduling makes progress: whenever all calls have returned and a job is left, the
earliest such job holds every core that it has not finished, and runs there. -/
theorem gang_progress (hC : Reach (driver P) (gangWorld P) Dev.init C) :
    (C.pending = 0 → (∃ j < C.shared.jobNum, (C.shared.jobs j).done = false) →
      ∃ before j after, enqueued C.shared.log = before ++ j :: after ∧
        (∀ i ∈ before, (C.shared.jobs i).done) ∧ (C.shared.jobs j).done = false ∧
        ∀ c, inMask (C.shared.mask j) c →
          (j ∉ released C.shared.log c → C.shared.slot c = some j ∧
            ∃ k, C.shared.engine c = .running j k) ∧
          0 ∈ started C.shared.log c j) ∧
    ∀ c d i j, ¬(C.shared.slot c = some i ∧ j ∈ C.shared.todoList c ∧
      C.shared.slot d = some j ∧ i ∈ C.shared.todoList d) := by
  refine ⟨fun hidle ⟨j, hj, hnot⟩ => ?_, fun c d i j ⟨hi, hj, hj', hi'⟩ =>
    (gangWorld_cores hC).line.no_cross hi hj hj' hi'⟩
  have hmem := idle_enqueued hC hidle hj
  obtain ⟨first, hfirst⟩ := Option.isSome_iff_exists.mp
    (List.find?_isSome (p := fun i => !(C.shared.jobs i).done).mpr ⟨j, hmem, by simp [hnot]⟩)
  obtain ⟨hfirst, before, after, ho, hb⟩ := List.find?_eq_some_iff_append.mp hfirst
  have hm : first ∈ enqueued C.shared.log := by simp [ho]
  have hb : ∀ i ∈ before, (C.shared.jobs i).done := by simpa using hb
  have hslot : ∀ c, inMask (C.shared.mask first) c → first ∉ released C.shared.log c →
      C.shared.slot c = some first := fun c hc => idle_first hC hidle hm ho hb hc
  have hp : ∀ c, inMask (C.shared.mask first) c →
      0 < C.shared.log.count (.pickup c first) := fun c hc => by
    rw [picked_iff hC hm hc]
    by_cases hr : first ∈ released C.shared.log c
    · exact .inr hr
    · exact .inl (hslot c hc hr)
  refine ⟨before, first, after, ho, hb, by simpa using hfirst, fun c hc => ⟨fun hr => ?_,
    idle_started hC hidle hm hp hc⟩⟩
  refine ⟨hslot c hc hr, ?_⟩
  have hon := (idle_runs hC hidle hm hp hc).resolve_right hr
  simp only [onEngine] at hon
  split at hon
  · exact ⟨_, ‹_›⟩
  · omega

def gangRun : List (Label Int Occurrence) :=
  [Label.env (Occurrence.schedule (oneTask 1 7) false)] ++ List.replicate 53 (Label.run 0 0) ++
    [Label.env (Occurrence.schedule (oneTask 3 3) true)] ++ List.replicate 11 (Label.run 1 0)

theorem gangRun_reaches : ∃ C : Conf Dev Stmt,
    Reach (driver (board rk3588Config)) (gangWorld (board rk3588Config)) Dev.init C ∧
      C.pending = 0 ∧ C.shared.jobNum = 2 ∧ (C.shared.jobs 0).done = false ∧
      C.shared.todoList 1 = [1] := by
  obtain ⟨C, hC, ht⟩ := Reach.exists_of_steps (driver (board rk3588Config))
    (gangWorld (board rk3588Config)) Dev.init gangRun
    (fun _ _ x => x == 0)
    (fun C => C.threads.flatten == [] && C.shared.jobNum == 2 &&
      !(C.shared.jobs 0).done && C.shared.todoList 1 == [1])
    (fun C a x h j _ => by simpa using h)
    (by
      intro e he s B
      simp only [gangRun, List.cons_append, List.nil_append, List.mem_cons, List.mem_append,
        List.mem_replicate, Label.env.injEq, List.not_mem_nil, reduceCtorEq,
        and_false, false_or, or_false] at he
      rcases he with rfl | rfl <;> exact ⟨by decide, by decide, by decide, by decide⟩)
    (by decide +kernel)
  simp only [Bool.and_eq_true, beq_iff_eq, Bool.not_eq_true'] at ht
  exact ⟨C, hC, by rw [Conf.pending, ht.1.1.1]; rfl, ht.1.1.2, ht.1.2, ht.2⟩

theorem gang_progress_gangRun : ∃ C : Conf Dev Stmt, C.shared.todoList 1 = [1] ∧
    ∃ before j after, enqueued C.shared.log = before ++ j :: after ∧
      (∀ i ∈ before, (C.shared.jobs i).done) ∧ (C.shared.jobs j).done = false ∧
      ∀ c, inMask (C.shared.mask j) c →
        (j ∉ released C.shared.log c → C.shared.slot c = some j ∧
          ∃ k, C.shared.engine c = .running j k) ∧
        0 ∈ started C.shared.log c j := by
  obtain ⟨C, hC, hidle, hn, hd, ht⟩ := gangRun_reaches
  exact ⟨C, ht, (gang_progress hC).1 hidle ⟨0, by omega, hd⟩⟩

/-- What the last `rknpu_job_done` of a job leaves behind is there `n` times. -/
structure Completed (s : Dev) (j : JobId) (n : Nat) : Prop where
  done : s.log.count (.done j) = n
  put : s.log.count (.domainPut j) = n
  fence : s.log.count (.fenceSignal j) = if (s.jobs j).fence.isSome then n else 0
  work : (handedOver s.log j).length = if (s.jobs j).async then n else 0

theorem countP_leftBy (l : List Event) (j : JobId) :
    l.countP (leftBy 1 j) = l.count (.domainPut j) ∧ l.countP (leftBy 2 j) = l.count (.done j) ∧
      l.countP (leftBy 4 j) = l.count (.fenceSignal j) ∧
      l.countP (leftBy 5 j) = (handedOver l j).length := by
  refine ⟨?_, ?_, ?_, ?_⟩
  · exact List.countP_congr fun e _ => by cases e <;> simp [leftBy]
  · exact List.countP_congr fun e _ => by cases e <;> simp [leftBy]
  · exact List.countP_congr fun e _ => by cases e <;> simp [leftBy]
  · rw [handedOver, List.length_filterMap_eq_countP]
    refine List.countP_congr fun e _ => ?_
    cases e <;> simp [leftBy]

/-- Where no stage is pending, a job has left behind as much as it is finished. -/
theorem Signals.completed {s : Dev} {B : Multiset Stmt} (h : Signals s B)
    (hB : ∀ n < 6, load (untilW n j) B = 0) : Completed s j (finished s j) := by
  have hl := countP_leftBy s.log j
  have h₁ := h 1 (by omega) j
  have h₂ := h 2 (by omega) j
  have h₄ := h 4 (by omega) j
  have h₅ := h 5 (by omega) j
  rw [hl.1, hB 1 (by omega)] at h₁
  rw [hl.2.1, hB 2 (by omega)] at h₂
  rw [hl.2.2.1, hB 4 (by omega)] at h₄
  rw [hl.2.2.2, hB 5 (by omega)] at h₅
  simp only [Job.leaves, if_true, Nat.zero_add] at h₁ h₂ h₄ h₅
  refine ⟨h₂, h₁, ?_, ?_⟩ <;> split <;> simp_all

theorem Signals.countP_le_one {s : Dev} {B : Multiset Stmt} (h : Signals s B) {n : Nat}
    (hn : n < 6) (j : JobId) : s.log.countP (leftBy n j) ≤ 1 := by
  have hj := h n hn j
  have hone := finished_le_one s j
  split at hj <;> omega

section Completed

variable (hC : Reach (driver P) (gangWorld P) Dev.init C)
include hC

theorem not_completed (hc : inMask (C.shared.mask j) c) (hr : j ∉ released C.shared.log c) :
    Completed C.shared j 0 := by
  have hzero : finished C.shared j = 0 := Nat.eq_zero_of_not_pos fun hf => by
    have := released_of_finished (Queued.reach hC) (gangWorld_honest.counts hC) hf hc
    rw [← count_released, List.count_pos_iff] at this
    exact hr this
  have h := (Signals.reach hC).completed (j := j) fun n hn => by
    have := (Ends.reach gangWorld_honest hC).upto n hn j
    omega
  rwa [hzero] at h

theorem idle_completed (hidle : C.pending = 0) (hj : j ∈ enqueued C.shared.log)
    (hr : ∀ c, inMask (C.shared.mask j) c → j ∈ released C.shared.log c) :
    Completed C.shared j 1 := by
  have hQ := Queued.reach hC
  have hN := gangWorld_honest.counts hC
  have hargs := (gangWorld_cores hC).args j (hQ.lt_jobNum ((mem_enqueued _).mp hj))
  rw [mem_enqueued] at hj
  have hints := hN.ints j hj
  have hpos : 0 < (C.shared.jobs j).useCoreNum := by
    have h : ∀ m ∈ [0x0, 0x1, 0x2, 0x4, 0x3, 0x7], m ≠ 0 → 0 < maskBits m := by decide
    rw [hQ.width]
    exact h _ hargs.2.2.1 (Queued.mask_ne_zero hC hj)
  have hall : maskBits (C.shared.mask j) ≤ (releaseCores C.shared.log j).length := by
    rw [maskBits_eq]
    refine (List.subperm_of_subset (List.nodup_range.filter _) fun c hc => ?_).length_le
    have := hr c (List.mem_filter.mp hc).2
    rw [← List.count_pos_iff, count_released] at this
    rwa [← List.count_pos_iff, count_releaseCores]
  have hle := interruptDec_le hQ hN hj
  rw [hQ.width, hidle, load_zero] at hints
  rw [hQ.width] at hpos
  have hfin : finished C.shared j = 1 := by
    rw [finished, if_pos ⟨hj, by rwa [hQ.width], by omega⟩]
  have h := (Signals.reach hC).completed (j := j) fun n _ => by rw [hidle, load_zero]
  rwa [hfin] at h

end Completed

/-- Gang scheduling loses, doubles and reorders no job, starts none before all of its cores
are gathered, and completes each one once. -/
theorem gang_exactly_once (hC : Reach (driver P) (gangWorld P) Dev.init C) :
    (C.pending = 0 → ∀ j < C.shared.jobNum, j ∈ enqueued C.shared.log) ∧
    (∀ c j, (C.shared.todoList c).count j + (if C.shared.slot c = some j then 1 else 0) +
        (released C.shared.log c).count j =
      if j ∈ enqueued C.shared.log ∧ inMask (C.shared.mask j) c then 1 else 0) ∧
    (∀ c, picked C.shared.log c ++ C.shared.todoList c =
      (enqueued C.shared.log).filter fun j => inMask (C.shared.mask j) c) ∧
    (∀ c j, C.shared.slot c = some j ↔ Held C.shared.log c j) ∧
    (∀ l c j k, l ++ [.start c j k] <+: C.shared.log → Gathered P C.shared l j) ∧
    (∀ c j, C.shared.log.count (.start c j 0) ≤ 1 ∧
      (C.pending = 0 → inMask (C.shared.mask j) c → j ∈ enqueued C.shared.log →
        (∀ d, inMask (C.shared.mask j) d → 0 < C.shared.log.count (.pickup d j)) →
        C.shared.log.count (.start c j 0) = 1)) ∧
    (∀ j, (C.shared.log.count (.done j) ≤ 1 ∧ C.shared.log.count (.domainPut j) ≤ 1 ∧
        C.shared.log.count (.fenceSignal j) ≤ 1 ∧ (handedOver C.shared.log j).length ≤ 1) ∧
      ((C.shared.jobs j).done = true ↔ C.shared.log.count (.done j) = 1) ∧
      (∀ c, inMask (C.shared.mask j) c → j ∉ released C.shared.log c → Completed C.shared j 0) ∧
      (C.pending = 0 → j ∈ enqueued C.shared.log →
        (∀ c, inMask (C.shared.mask j) c → j ∈ released C.shared.log c) →
        Completed C.shared j 1)) := by
  refine ⟨fun hidle j => idle_enqueued hC hidle, gang_station hC, gang_order hC, slot_iff_held hC,
    (Starts.reach gangWorld_honest hC).ordered, fun c j => ⟨count_first_le_one hC c j, ?_⟩,
    fun j => ⟨?_, ?_, fun c => not_completed hC, idle_completed hC⟩⟩
  · intro hidle hc hj hp
    have hpos := idle_started hC hidle hj hp hc
    have hone := count_first_le_one hC c j
    rw [← List.count_pos_iff, count_started] at hpos
    omega
  · obtain ⟨h₁, h₂, h₄, h₅⟩ := countP_leftBy C.shared.log j
    rw [← h₁, ← h₂, ← h₄, ← h₅]
    have hS := fun n hn => (Signals.reach hC).countP_le_one (n := n) hn j
    exact ⟨hS 2 (by omega), hS 1 (by omega), hS 4 (by omega), hS 5 (by omega)⟩
  · have hE := Ends.reach gangWorld_honest hC
    have hd := hE.done j
    have hone := finished_le_one C.shared j
    rw [hE.flag j]
    omega

theorem gang_exactly_once_gangRun : ∃ C : Conf Dev Stmt, C.shared.todoList 1 = [1] ∧
    0 ∈ enqueued C.shared.log ∧ 1 ∈ enqueued C.shared.log := by
  obtain ⟨C, hC, hidle, hn, -, ht⟩ := gangRun_reaches
  have henq := (gang_exactly_once hC).1 hidle
  exact ⟨C, ht, henq 0 (by omega), henq 1 (by omega)⟩

end Rknpu

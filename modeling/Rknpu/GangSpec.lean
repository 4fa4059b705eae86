import Rknpu.Interleaving.Gangs
import Rknpu.Settle

namespace Rknpu

open Interleaving

/-- The turn of a gang that an event of the history is. -/
def Event.turn : Event → Option (Gangs.Turn Nat JobId)
  | .enqueue j => some (.join j)
  | .pickup c j => some (.take c j)
  | .start c j k => some (.start c j k)
  | .complete c j k => some (.finish c j k)
  | .release c j => some (.leave c j)
  | .done j => some (.done j)
  | _ => none

def Engine.chunk : Engine → Option (JobId × Nat)
  | .running j k => some (j, k)
  | _ => none

/-- The jobs that are `RKNPU_JOB_DONE`, in the order in which they became so. -/
def doneJobs (l : List Event) : List JobId :=
  l.filterMap fun | .done j => some j | _ => none

/-- The chunks of job `j` on core `c`; the first one is committed whatever the task number. -/
def Dev.chunks (P : Platform) (s : Dev) (j : JobId) (c : Nat) : Nat :=
  if s.needs P c j then max 1 ((s.jobs j).chunkCount P.config c).toNat else 0

/-- The gangs that a state of the driver stands for. -/
def gangs (P : Platform) (s : Dev) (B : Multiset Stmt) : Gangs Nat JobId where
  order := enqueued s.log
  pieces j c := if 0 < s.log.count (.enqueue j) then s.chunks P j c else 0
  queue := s.todoList
  owner := s.slot
  busy c := (s.engine c).chunk
  count j c := (s.jobs j).submitCount c + load (jobDoneW j c) B
  left := released s.log
  finished := doneJobs s.log

variable {P : Platform} {s s' : Dev} {B R : Multiset Stmt} {a : Stmt} {x : Int} {p : List Stmt}
  {j : JobId} {c : Nat} {r : Int}

structure World (P : Platform) (s : Dev) (B : Multiset Stmt) : Prop where
  queued : Queued P s B
  counts : Counts s B
  gang : Gang P s B
  starts : Starts P s B
  chunks : Chunks P s B
  recommits : Recommits P s B
  ends : Ends s B
  stmts : ∀ a ∈ B, a.gang

theorem World.reach {C : Conf Dev Stmt} (hC : Reach (driver P) (gangWorld P) Dev.init C) :
    World P C.shared C.pending :=
  ⟨Queued.reach hC, gangWorld_honest.counts hC, gangWorld_cores hC, Starts.reach gangWorld_honest hC,
    Chunks.reach gangWorld_honest hC, Recommits.reach gangWorld_honest hC,
    Ends.reach gangWorld_honest hC, gangWorld_gang hC⟩

section Log

variable {es : List Event} (h : ∀ e ∈ es, e.turn = none)
include h

theorem enqueued_none : enqueued es = [] := by
  rw [enqueued, List.filterMap_eq_nil_iff]
  intro e he
  have := h e he
  cases e <;> simp_all [Event.turn]

theorem released_none (c : Nat) : released es c = [] := by
  rw [released, List.filterMap_eq_nil_iff]
  intro e he
  have := h e he
  cases e <;> simp_all [Event.turn]

theorem doneJobs_none : doneJobs es = [] := by
  rw [doneJobs, List.filterMap_eq_nil_iff]
  intro e he
  have := h e he
  cases e <;> simp_all [Event.turn]

end Log

theorem doneJobs_append (l l' : List Event) : doneJobs (l ++ l') = doneJobs l ++ doneJobs l' :=
  List.filterMap_append

theorem count_doneJobs (l : List Event) (j : JobId) : (doneJobs l).count j = l.count (.done j) :=
  count_filterMap_event l fun e => by cases e <;> simp

theorem exec_jobDoneW_eq (ha : a.gang) (hd : ∀ i r d, a ≠ .jobDone i r d)
    (h : exec P a x s = some (s', p)) (j : JobId) (c : Nat) :
    load (jobDoneW j c) (p : Multiset Stmt) = jobDoneW j c a := by
  cases exec_flow h
  case jobCommit => exact load_commits_eq_zero (fun _ => rfl) _
  case jobDoneNext i r d => exact absurd rfl (hd i r d)
  case jobDone i r d => exact absurd rfl (hd i r d)
  all_goals first | rfl | cases ha

theorem exec_gang_engine (ha : a.gang) (hop : ∀ j c k, a ≠ .pc .pcOpEn j c k)
    (h : exec P a x s = some (s', p)) : s'.engine = s.engine := by
  cases a <;> simp only [Stmt.gang, Bool.false_eq_true] at ha <;>
    simp only [exec, jobSchedule, selectCore, domainGet, enqueue, nextLoop, jobNext, pickUp,
      runDec, jobCommit, subcoreCommit, commitPc, jobDone, releaseCore, interruptDec, doneWidth,
      donePut, doneFlag, doneRet, doneFence, doneAsync, Option.some.injEq] at h
  case pc g j c k =>
    cases g <;> cases h <;> first | rfl | exact absurd rfl (hop j c k)
  all_goals
    repeat' split at h
    all_goals
      cases h
      try rfl

def Stmt.turns : Stmt → Bool
  | .enqueue _ | .pickUp _ | .pc .pcOpEn _ _ _ | .releaseCore _ _ _ | .doneFlag _ _ _ => true
  | _ => false

theorem turn_of_logs {e : Event} (ha : a.turns = false) (hl : a.logs e) : e.turn = none := by
  cases a
  case pc g j c k => cases g <;> cases e <;> first | rfl | cases hl | cases ha
  all_goals cases e <;> first | rfl | cases hl | cases ha

def turns (s : Dev) : List (Gangs.Turn Nat JobId) := s.log.filterMap Event.turn

theorem turns_append {es : List Event} (h : s'.log = s.log ++ es) :
    turns s' = turns s ++ es.filterMap Event.turn := by
  rw [turns, h, List.filterMap_append, turns]

theorem gangs_congr {B' : Multiset Stmt} (hlog : ∃ es, s'.log = s.log ++ es ∧ ∀ e ∈ es, e.turn = none)
    (hp : ∀ j c, 0 < s.log.count (.enqueue j) → s'.chunks P j c = s.chunks P j c)
    (ht : s'.todoList = s.todoList) (hs : s'.slot = s.slot) (he : s'.engine = s.engine)
    (hc : ∀ j c, (s'.jobs j).submitCount c + load (jobDoneW j c) B' =
      (s.jobs j).submitCount c + load (jobDoneW j c) B) :
    turns s' = turns s ∧ gangs P s' B' = gangs P s B := by
  obtain ⟨es, hlog, hes⟩ := hlog
  have henq : enqueued s'.log = enqueued s.log := by
    rw [hlog, enqueued_append, enqueued_none hes, List.append_nil]
  have hrel : released s'.log = released s.log := by
    funext c
    rw [hlog, released_append, released_none hes, List.append_nil]
  have hdone : doneJobs s'.log = doneJobs s.log := by
    rw [hlog, doneJobs_append, doneJobs_none hes, List.append_nil]
  refine ⟨?_, ?_⟩
  · rw [turns_append hlog, List.filterMap_eq_nil_iff.mpr hes, List.append_nil]
  · simp only [gangs, henq, hrel, hdone, ht, hs, he, hc, Gangs.mk.injEq, and_true, true_and]
    funext j c
    rw [← count_enqueued, henq, count_enqueued]
    split
    · exact hp j c ‹_›
    · rfl

theorem chunks_congr (h : s'.jobs j = s.jobs j) : s'.chunks P j c = s.chunks P j c := by
  rw [Dev.chunks, Dev.chunks, Dev.needs, Dev.needs, Dev.mask, Dev.mask, h]

theorem chunks_exec (hQ : Queued P s (a ::ₘ R)) (h : exec P a x s = some (s', p))
    (hj : 0 < s.log.count (.enqueue j)) : s'.chunks P j c = s.chunks P j c := by
  rw [Dev.chunks, Dev.chunks, Dev.needs, Dev.needs, hQ.mask_exec h hj, exec_chunkCount hQ hj h]

theorem gangs_other (hW : World P s (a ::ₘ R)) (ht : a.turns = false)
    (h : exec P a x s = some (s', p)) :
    turns s' = turns s ∧ gangs P s' ((p : Multiset Stmt) + R) = gangs P s (a ::ₘ R) := by
  have ha := hW.stmts a (Multiset.mem_cons_self a R)
  have hloads : a.loads = false := by
    cases a <;> first | rfl | (cases ht; done) | cases ha
  obtain ⟨-, htodo, hslot⟩ := exec_loads hloads h
  obtain ⟨es, hlog, hes⟩ := exec_logs h
  refine gangs_congr ⟨es, hlog, fun e he => turn_of_logs ht (hes e he)⟩
    (fun j c hj => chunks_exec hW.queued h hj) htodo hslot
    (exec_gang_engine ha (by rintro j c k rfl; cases ht) h) fun j c => ?_
  rw [load_add, load_cons]
  by_cases hd : ∃ i r d, a = .jobDone i r d
  · obtain ⟨i, r, d, rfl⟩ := hd
    obtain ⟨rfl, hp⟩ := jobDone_effect h
    have hz : load (jobDoneW j c) (p : Multiset Stmt) = 0 := by
      rw [hp]
      split <;> rfl
    have hsub : ((s.setJob i fun b => { b with
          submitCount := Function.update b.submitCount d (b.submitCount d + 1) }).jobs j).submitCount c =
        (s.jobs j).submitCount c + jobDoneW j c (.jobDone i r d) := by
      rw [setJob_jobs, jobDoneW]
      by_cases hij : i = j
      · subst hij
        by_cases hcd : d = c
        · subst hcd
          simp
        · simp [hcd, Ne.symm hcd]
      · rw [if_neg (Ne.symm hij), if_neg fun hn => hij hn.1, Nat.add_zero]
    rw [hsub, hz]
    omega
  · push Not at hd
    rw [exec_submitCount hd h, exec_jobDoneW_eq ha hd h]

theorem World.untouched (hW : World P s B) (hj : s.log.count (.enqueue j) = 0) (c : Nat) :
    (s.jobs j).submitCount c + load (jobDoneW j c) B = 0 := by
  have hsub := (hW.starts.fresh j (fun hn => by omega) c).1
  have := hW.counts.untouched hj c
  simp only [tokens, reported] at this
  omega

theorem gangs_enqueue (hW : World P s (.enqueue j ::ₘ R))
    (h : exec P (.enqueue j) x s = some (s', p)) :
    Gangs.Step (gangs P s (.enqueue j ::ₘ R)) (.join j) (gangs P s' ((p : Multiset Stmt) + R)) := by
  have hnew := hW.queued.not_enqueued (j := j) (by simp [preW])
  obtain ⟨hk, rfl, hslot, hlog, htodo⟩ := enqueue_effect h
  have hchunks : ∀ i c, s'.chunks P i c = s.chunks P i c := fun i c => by
    rw [Dev.chunks, Dev.chunks, Dev.needs, Dev.needs, (hk.fields i).1,
      chunkCount_congr P.config (exec_args h i) (hk.fields i).2.1]
  have heq : gangs P s' (([.nextLoop j 0] : List Stmt) + R) =
      { gangs P s (.enqueue j ::ₘ R) with
        order := enqueued s.log ++ [j]
        pieces := Function.update (gangs P s (.enqueue j ::ₘ R)).pieces j (s.chunks P j)
        queue := fun c => if 0 < s.chunks P j c then s.todoList c ++ [j] else s.todoList c } := by
    simp only [gangs, Gangs.mk.injEq, hslot, hlog, hk.engine]
    refine ⟨by rw [enqueued_append]; rfl, ?_, ?_, trivial, trivial, ?_, ?_, ?_⟩
    · funext i c
      by_cases hi : i = j
      · subst hi
        simp [hchunks]
      · simp [hi, hchunks, List.count_append, Ne.symm hi]
    · funext c
      rw [htodo, Dev.chunks]
      by_cases hn : s.needs P c j <;> simp [hn]
    · funext i c
      rw [(hk.fields i).2.2.2.2]
      simp [jobDoneW]
    · funext c
      rw [released_append]
      exact List.append_nil _
    · rw [doneJobs_append]
      exact List.append_nil _
  rw [heq]
  refine .join _ ?_ ?_
  · rw [gangs, mem_enqueued]
    omega
  · funext c
    exact hW.untouched hnew c

theorem gangs_event {B' : Multiset Stmt} {e : Event} (hlog : s'.log = s.log ++ [e])
    (he : ∀ j, e ≠ .enqueue j)
    (hp : ∀ j c, 0 < s.log.count (.enqueue j) → s'.chunks P j c = s.chunks P j c) :
    gangs P s' B' = { gangs P s B with
      queue := s'.todoList
      owner := s'.slot
      busy := fun c => (s'.engine c).chunk
      count := fun j c => (s'.jobs j).submitCount c + load (jobDoneW j c) B'
      left := fun c => released s.log c ++ released [e] c
      finished := doneJobs s.log ++ doneJobs [e] } := by
  have henq : enqueued s'.log = enqueued s.log := by
    have hn : enqueued [e] = [] := by
      cases e with
      | enqueue j => exact absurd rfl (he j)
      | _ => rfl
    rw [hlog, enqueued_append, hn, List.append_nil]
  simp only [gangs, Gangs.mk.injEq, henq, true_and]
  refine ⟨?_, ?_, ?_⟩
  · funext j c
    rw [← count_enqueued, henq, count_enqueued]
    split
    · exact hp j c ‹_›
    · rfl
  · funext c
    rw [hlog, released_append]
  · rw [hlog, doneJobs_append]

theorem gangs_pickUp (hW : World P s (.pickUp c ::ₘ R)) (h : exec P (.pickUp c) x s = some (s', p)) :
    turns s' = turns s ∧ gangs P s' ((p : Multiset Stmt) + R) = gangs P s (.pickUp c ::ₘ R) ∨
    ∃ j, turns s' = turns s ++ [.take c j] ∧ Gangs.Step (gangs P s (.pickUp c ::ₘ R)) (.take c j)
      (gangs P s' ((p : Multiset Stmt) + R)) := by
  have hchunks := fun j c hj => chunks_exec (j := j) (c := c) hW.queued h hj
  obtain ⟨rfl, rfl, -⟩ | ⟨j, rest, hs, hj, hk, rfl, hslot, hlog, htodo⟩ := pickUp_effect h
  · left
    exact gangs_congr ⟨[], by simp, by simp⟩ hchunks rfl rfl rfl fun i d => by simp [jobDoneW]
  · refine .inr ⟨j, turns_append hlog, ?_⟩
    have hcount : (fun i d => (s'.jobs i).submitCount d +
        load (jobDoneW i d) (([.runDec j] : List Stmt) + R)) =
        (gangs P s (.pickUp c ::ₘ R)).count := by
      funext i d
      rw [(hk.fields i).2.2.2.2]
      simp [gangs, jobDoneW]
    rw [gangs_event hlog (by simp) hchunks, hcount, hslot, htodo, hk.engine]
    have hleft : (fun d => released s.log d ++ released [.pickup c j] d) = released s.log :=
      funext fun d => List.append_nil _
    have hdone : doneJobs s.log ++ doneJobs [.pickup c j] = doneJobs s.log := List.append_nil _
    rw [hleft, hdone]
    exact .take hs hj

theorem World.taken (hW : World P s B) (hj : 0 < s.log.count (.enqueue j))
    (hp : 0 < s.log.count (.pickup c j)) : s.slot c = some j ∨ j ∈ released s.log c := by
  have hn := hW.queued.needs_of_picked hp
  have hlist := hW.queued.listed j c
  have honce := hW.queued.once j
  rw [if_pos hn] at hlist
  rcases hW.gang.line.mem_station ((mem_enqueued _).mpr hj) hn with h | h | h
  · exact .inr h
  · exact .inl h
  · rw [← List.count_pos_iff] at h
    omega

theorem World.not_running (hW : World P s B)
    (h : 0 < load (commitW j c) B + load (releaseW j c) B) : (s.engine c).chunk = none := by
  have hslot := Gang.slot_of_active (j := j) (c := c) hW.queued hW.counts hW.gang (by omega)
  cases he : s.engine c with
  | running i n =>
    exfalso
    have hn := hW.counts.running c i n he
    have hon : onEngine s i c = 1 := by rw [onEngine, he, ← hn, if_pos rfl]
    have hs := Gang.slot_of_active (j := i) (c := c) hW.queued hW.counts hW.gang (by omega)
    rw [hslot] at hs
    cases hs
    have hone := hW.counts.tokens_le_one j c
    simp only [tokens] at hone
    omega
  | _ => rfl

/-- A job at work on a core has been enqueued and picked up by all cores of its mask. -/
theorem World.active (hW : World P s B) (h : 0 < load (jobCommitW j) B + load (commitW j c) B +
      onEngine s j c + reported s B j c + load (releaseW j c) B) :
    0 < s.log.count (.enqueue j) ∧ (gangs P s B).Gathered j := by
  obtain ⟨henq, hrun⟩ := hW.counts.live (j := j) (c := c) (by simp only [tokens]; omega)
  refine ⟨henq, fun d hd => ?_⟩
  have hn : s.needs P d j := by
    by_contra hn
    simp [gangs, Dev.chunks, hn] at hd
  exact hW.taken henq (hW.queued.all_picked henq hrun (Bool.and_eq_true_iff.mp hn).2)

theorem World.needs_of_onCore (hW : World P s B)
    (h : 0 < load (commitW j c) B + onEngine s j c + load (jobDoneW j c) B + load (releaseW j c) B) :
    s.needs P c j ∧ 0 < s.log.count (.enqueue j) := by
  have hin := hW.counts.onCore j c h
  have henq := (hW.counts.live (j := j) (c := c) (by
    simp only [tokens, reported]
    omega)).1
  have hargs := hW.gang.args j (hW.queued.lt_jobNum henq)
  exact ⟨Bool.and_eq_true_iff.mpr ⟨decide_eq_true (lt_numIrqs hargs.2.2.2 hin), hin⟩, henq⟩

theorem gangs_pcOpEn {k : Nat} (hW : World P s (.pc .pcOpEn j c k ::ₘ R))
    (h : exec P (.pc .pcOpEn j c k) x s = some (s', p)) :
    Gangs.Step (gangs P s (.pc .pcOpEn j c k ::ₘ R)) (.start c j k)
      (gangs P s' ((p : Multiset Stmt) + R)) := by
  have hk := hW.counts.pcIndex _ _ _ _ (Multiset.mem_cons_self _ _)
  have hcommit : 0 < load (commitW j c) (.pc .pcOpEn j c k ::ₘ R) := by simp [commitW]
  have hone := hW.counts.tokens_le_one j c
  have hz : load (jobDoneW j c) (.pc .pcOpEn j c k ::ₘ R) = 0 := by
    simp only [tokens, reported] at hone
    omega
  obtain ⟨henq, hgather⟩ := hW.active (j := j) (c := c) (by omega)
  have hneeds := (hW.needs_of_onCore (j := j) (c := c) (by omega)).1
  have hslot := Gang.slot_of_active (j := j) (c := c) hW.queued hW.counts hW.gang (by omega)
  have hdue := hW.recommits.commit j c hcommit
  have hcount : (gangs P s (.pc .pcOpEn j c k ::ₘ R)).count j c = k := by
    change (s.jobs j).submitCount c + load (jobDoneW j c) _ = k
    omega
  have hlt : k < (gangs P s (.pc .pcOpEn j c k ::ₘ R)).pieces j c := by
    rw [← hk] at hdue
    simp only [gangs, Dev.chunks, henq, hneeds, if_true]
    rcases hdue with hd | hd <;> omega
  have hstep := Gangs.Step.start hgather hslot (hW.not_running (j := j) (by omega)) (by rwa [hcount])
  rw [hcount] at hstep
  obtain ⟨-, hj, ht, hs, he, hlog, rfl⟩ := pcOpEn_effect h
  have hbusy : (fun d => (s'.engine d).chunk) =
      Function.update (gangs P s (.pc .pcOpEn j c k ::ₘ R)).busy c (some (j, k)) := by
    funext d
    rw [he, Function.update_apply, Function.update_apply]
    split <;> rfl
  have hcounts : (fun i d => (s'.jobs i).submitCount d + load (jobDoneW i d) (↑([] : List Stmt) + R)) =
      (gangs P s (.pc .pcOpEn j c k ::ₘ R)).count := by
    funext i d
    simp [gangs, hj, jobDoneW]
  have hleft : (fun d => released s.log d ++ released [.start c j k] d) = released s.log :=
    funext fun d => List.append_nil _
  have hdone : doneJobs s.log ++ doneJobs [.start c j k] = doneJobs s.log := List.append_nil _
  rw [gangs_event hlog (by simp) (fun i d hi => chunks_exec hW.queued h hi), hbusy, hcounts, hleft,
    hdone, ht, hs]
  exact hstep

theorem gangs_completion (hW : World P s R) (h : occur P (.completion c) s = some (s', p)) :
    ∃ j k, turns s' = turns s ++ [.finish c j k] ∧
      Gangs.Step (gangs P s R) (.finish c j k) (gangs P s' ((p : Multiset Stmt) + R)) := by
  have hchunks : ∀ i d, 0 < s.log.count (.enqueue i) → s'.chunks P i d = s.chunks P i d := by
    intro i d hi
    have hargs : Field.args.get (s'.jobs i) = Field.args.get (s.jobs i) :=
      occur_get (by simp [Occurrence.spawns]) (by simp) h
    have hwidth := (counters_fields ((completion_effect h).choose_spec.choose_spec.2.2.2.2.1 i)).2.1
    rw [Dev.chunks, Dev.chunks, Dev.needs, Dev.needs, hW.queued.mask_occur h hi,
      chunkCount_congr P.config hargs hwidth]
  obtain ⟨j, k, heng, -, rfl, -, hjob, ht, hs, he, hlog⟩ := completion_effect h
  have hn := hW.counts.running c j k heng
  have hone := hW.counts.tokens_le_one j c
  have hz : load (jobDoneW j c) R = 0 := by
    simp only [tokens, reported, onEngine, heng, ← hn, if_true] at hone
    omega
  have hbusy : (gangs P s R).busy c = some (j, k) := by simp only [gangs, heng, Engine.chunk]
  refine ⟨j, k, turns_append hlog, ?_⟩
  have hbusy' : (fun d => (s'.engine d).chunk) = Function.update (gangs P s R).busy c none := by
    funext d
    rw [he, Function.update_apply, Function.update_apply]
    split <;> rfl
  have hcounts : (fun i d => (s'.jobs i).submitCount d +
      load (jobDoneW i d) ((([.jobDone j 0 c] : List Stmt) : Multiset Stmt) + R)) =
      Function.update (gangs P s R).count j (Function.update ((gangs P s R).count j) c (k + 1)) := by
    funext i d
    rw [(counters_fields (hjob i)).2.2.2.2, load_add, load_coe_cons, load_coe_nil, jobDoneW]
    by_cases hij : i = j
    · subst hij
      by_cases hdc : d = c
      · subst hdc
        rw [if_pos ⟨rfl, rfl⟩, Function.update_self, Function.update_self]
        omega
      · rw [if_neg fun hn => hdc hn.2.symm, Function.update_self, Function.update_of_ne hdc]
        simp [gangs]
    · rw [if_neg fun hn => hij hn.1.symm, Function.update_of_ne hij]
      simp [gangs]
  have hleft : (fun d => released s.log d ++ released [.complete c j k] d) = released s.log :=
    funext fun d => List.append_nil _
  have hdone : doneJobs s.log ++ doneJobs [.complete c j k] = doneJobs s.log := List.append_nil _
  rw [gangs_event hlog (by simp) hchunks, hbusy', hcounts, hleft, hdone, ht, hs]
  exact .finish hbusy

theorem gangs_releaseCore (hW : World P s (.releaseCore j r c ::ₘ R))
    (h : exec P (.releaseCore j r c) x s = some (s', p)) :
    Gangs.Step (gangs P s (.releaseCore j r c ::ₘ R)) (.leave c j)
      (gangs P s' ((p : Multiset Stmt) + R)) := by
  have hrel : 0 < load (releaseW j c) (.releaseCore j r c ::ₘ R) := by simp [releaseW]
  have hone := hW.counts.tokens_le_one j c
  have hz : load (jobDoneW j c) (.releaseCore j r c ::ₘ R) = 0 := by
    simp only [tokens, reported] at hone
    omega
  have hslot := Gang.slot_of_active (j := j) (c := c) hW.queued hW.counts hW.gang (by omega)
  obtain ⟨hneeds, henq⟩ := hW.needs_of_onCore (j := j) (c := c) (by omega)
  have hall := (submitCount_of_released hW.starts hW.chunks hW.recommits (j := j) (c := c)
    (by omega)).1
  have hcount : (gangs P s (.releaseCore j r c ::ₘ R)).count j c =
      (gangs P s (.releaseCore j r c ::ₘ R)).pieces j c := by
    simp only [gangs, Dev.chunks, henq, hneeds, if_true]
    omega
  obtain ⟨hk, rfl, ht, hs, hlog⟩ := releaseCore_effect h
  have hcounts : (fun i d => (s'.jobs i).submitCount d + load (jobDoneW i d)
      ((([.interruptDec j r c, .jobNext c] : List Stmt) : Multiset Stmt) + R)) =
      (gangs P s (.releaseCore j r c ::ₘ R)).count := by
    funext i d
    rw [(hk.fields i).2.2.2.2]
    simp [gangs, jobDoneW]
  have hleft : (fun d => released s.log d ++ released [.release c j] d) =
      Function.update (released s.log) c (released s.log c ++ [j]) := by
    funext d
    rw [Function.update_apply]
    split
    · rename_i hdc
      subst hdc
      simp [released]
    · rename_i hdc
      simp [released, Ne.symm hdc]
  have hdone : doneJobs s.log ++ doneJobs [.release c j] = doneJobs s.log := List.append_nil _
  rw [gangs_event hlog (by simp) (fun i d hi => chunks_exec hW.queued h hi), hcounts, hleft, hdone,
    ht, hs, hk.engine]
  exact .leave hslot (hW.not_running (j := j) (by omega)) hcount

theorem gangs_doneFlag {q : Nat} (hW : World P s (.doneFlag j r q ::ₘ R))
    (h : exec P (.doneFlag j r q) x s = some (s', p)) :
    turns s' = turns s ++ [.done j] ∧ Gangs.Step (gangs P s (.doneFlag j r q ::ₘ R)) (.done j)
      (gangs P s' ((p : Multiset Stmt) + R)) := by
  have huntil : 0 < load (untilW 2 j) (.doneFlag j r q ::ₘ R) := by simp [untilW, stage]
  have hupto := hW.ends.upto 2 (by omega) j
  have hend := hW.ends.done j
  have hle := finished_le_one s j
  have henq : 0 < s.log.count (.enqueue j) := Nat.pos_of_ne_zero fun hz => by
    rw [finished_of_not_enqueued hz] at hupto
    omega
  have hgone : ∀ c, 0 < (gangs P s (.doneFlag j r q ::ₘ R)).pieces j c → j ∈ released s.log c :=
    fun c hc => by
      have hn : s.needs P c j := by
        by_contra hn
        simp [gangs, Dev.chunks, hn] at hc
      rw [← List.count_pos_iff, count_released]
      exact released_of_finished hW.queued hW.counts (by omega) (Bool.and_eq_true_iff.mp hn).2
  have hnew : j ∉ doneJobs s.log := by
    rw [← List.count_pos_iff, count_doneJobs]
    omega
  have hlog : s'.log = s.log ++ [.done j] := by cases h; rfl
  have hsame : s'.todoList = s.todoList ∧ s'.slot = s.slot ∧ s'.engine = s.engine := by
    cases h
    exact ⟨rfl, rfl, rfl⟩
  have hcounts : (fun i d => (s'.jobs i).submitCount d + load (jobDoneW i d) ((p : Multiset Stmt) + R)) =
      (gangs P s (.doneFlag j r q ::ₘ R)).count := by
    funext i d
    rw [exec_submitCount (by simp) h]
    cases h
    simp [gangs, jobDoneW]
  have hleft : (fun d => released s.log d ++ released [.done j] d) = released s.log :=
    funext fun d => List.append_nil _
  refine ⟨turns_append hlog, ?_⟩
  rw [gangs_event hlog (by simp) (fun i d hi => chunks_exec hW.queued h hi), hcounts, hleft,
    hsame.1, hsame.2.1, hsame.2.2]
  exact .done ((mem_enqueued _).mpr henq) hgone hnew

theorem gangs_exec (hW : World P s (a ::ₘ R)) (h : exec P a x s = some (s', p)) :
    ∃ ts, turns s' = turns s ++ ts ∧
      Gangs.spec.Trace (gangs P s (a ::ₘ R)) ts (gangs P s' ((p : Multiset Stmt) + R)) := by
  by_cases ht : a.turns = false
  · obtain ⟨hts, hg⟩ := gangs_other hW ht h
    exact ⟨[], by rw [hts, List.append_nil], hg ▸ .nil⟩
  cases a with
  | enqueue j =>
    exact ⟨_, turns_append (enqueue_effect h).2.2.2.1, .single (gangs_enqueue hW h)⟩
  | pickUp c =>
    obtain ⟨hts, hg⟩ | ⟨j, hts, hg⟩ := gangs_pickUp hW h
    · exact ⟨[], by rw [hts, List.append_nil], hg ▸ .nil⟩
    · exact ⟨_, hts, .single hg⟩
  | pc g j c k =>
    cases g with
    | pcOpEn =>
      exact ⟨_, turns_append (pcOpEn_effect h).2.2.2.2.2.1, .single (gangs_pcOpEn hW h)⟩
    | _ => exact absurd rfl ht
  | releaseCore j r c =>
    exact ⟨_, turns_append (releaseCore_effect h).2.2.2.2, .single (gangs_releaseCore hW h)⟩
  | doneFlag j r q =>
    obtain ⟨hts, hg⟩ := gangs_doneFlag hW h
    exact ⟨_, hts, .single hg⟩
  | _ => exact absurd rfl ht

theorem gangs_occur {e : Occurrence} (hW : World P s R) (he : (gangWorld P).env s R e)
    (h : occur P e s = some (s', p)) :
    ∃ ts, turns s' = turns s ++ ts ∧
      Gangs.spec.Trace (gangs P s R) ts (gangs P s' ((p : Multiset Stmt) + R)) := by
  by_cases hc : ∃ c, e = .completion c
  · obtain ⟨c, rfl⟩ := hc
    obtain ⟨j, k, hts, hg⟩ := gangs_completion hW h
    exact ⟨_, hts, .single hg⟩
  refine ⟨[], ?_⟩
  rw [List.append_nil]
  suffices turns s' = turns s ∧ gangs P s' ((p : Multiset Stmt) + R) = gangs P s R from
    ⟨this.1, this.2 ▸ .nil⟩
  have hnil : ∃ es, s.log = s.log ++ es ∧ ∀ e ∈ es, e.turn = none := ⟨[], by simp, by simp⟩
  cases e with
  | next d =>
    simp only [occur] at h
    split at h <;> cases h
    exact gangs_congr hnil (fun _ _ _ => rfl) rfl rfl rfl fun i d => by simp [jobDoneW]
  | tick n =>
    cases h
    exact gangs_congr hnil (fun _ _ _ => rfl) rfl rfl rfl fun i d => by simp
  | schedule args fence =>
    have hnew := hW.untouched (j := s.jobNum) (by
      have := hW.queued.fresh s.jobNum le_rfl
      omega)
    cases h
    refine gangs_congr hnil (fun i d hi => ?_) rfl rfl rfl fun i d => ?_
    · have hne : i ≠ s.jobNum := (hW.queued.lt_jobNum hi).ne
      exact chunks_congr (Function.update_of_ne hne _ _)
    · by_cases hi : i = s.jobNum
      · subst hi
        have := hnew d
        simp [jobDoneW, jobAlloc]
        omega
      · simp [jobDoneW, hi]
  | completion d => exact absurd ⟨d, rfl⟩ hc
  | _ => exact absurd he id

/-- The scheduler is one of gangs: in every run, what the cores do is a run of the abstract
scheduler, which can always go on while a job is not done. -/
theorem gang_refines {C : Conf Dev Stmt} (hC : Reach (driver P) (gangWorld P) Dev.init C) :
    Gangs.spec.Trace Gangs.init (turns C.shared) (gangs P C.shared C.pending) ∧
    ∀ j ∈ enqueued C.shared.log, (C.shared.jobs j).done = false →
      ∃ t u, Gangs.Step (gangs P C.shared C.pending) t u := by
  have hinit : gangs P Dev.init 0 = Gangs.init := rfl
  have htrace := hC.refines Gangs.spec turns (gangs P) (World P) (fun _ hC => World.reach hC) rfl
    (fun _ _ _ _ _ _ hW _ h => gangs_exec hW h) (fun _ _ _ _ _ hW he h => gangs_occur hW he h)
  rw [hinit] at htrace
  refine ⟨htrace, fun j hj hd => (Gangs.Sound.init.trace htrace).progress hj fun hm => ?_⟩
  have hflag := (Ends.reach gangWorld_honest hC).flag j
  change j ∈ doneJobs C.shared.log at hm
  rw [← List.count_pos_iff, count_doneJobs, ← hflag, hd] at hm
  cases hm

theorem gang_refines_gangRun : ∃ C : Conf Dev Stmt, C.shared.todoList 1 = [1] ∧
    Gangs.spec.Trace Gangs.init (turns C.shared) (gangs (board rk3588Config) C.shared C.pending) ∧
    ∃ t u, Gangs.Step (gangs (board rk3588Config) C.shared C.pending) t u := by
  obtain ⟨C, hC, hidle, hn, hd, ht⟩ := gangRun_reaches
  obtain ⟨htrace, hmove⟩ := gang_refines hC
  exact ⟨C, ht, htrace, hmove 0 (idle_enqueued hC hidle (by rw [hn]; decide)) hd⟩

end Rknpu

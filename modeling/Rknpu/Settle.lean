import Rknpu.GangRuns
import Rknpu.Rank
import Rknpu.TaskNum

namespace Rknpu

open Interleaving

variable {P : Platform} {C D : Conf Dev Stmt} {s : Dev} {a : Stmt} {j : JobId} {c n : Nat}

/-- Every run of the driver, also one that the kernel would have stopped: it goes on past the
NULL that the driver follows in a list node filled with zeros, and past the uses of a freed job. -/
def anyRun : Guard Dev Stmt Int Occurrence := .events fun _ => True

/-- What is left when no function of the driver is called any more: its statements, and the
hardware at work. -/
def settling : Guard Dev Stmt Int Occurrence := .events Occurrence.completes

theorem rank_ranks (P : Platform) :
    Ranking (driver P) anyRun settling Dev.init (rank P) := by
  refine .of_steps ⟨fun _ _ _ _ _ => trivial, fun _ _ _ _ => trivial⟩
    (fun s B => Queued P s B ∧ Nodes P s B ∧ Placed s B)
    (fun C hC => ⟨Queued.reach hC, Nodes.reach hC, Placed.reach hC⟩) ?_ ?_
  · exact fun s R a x s' p hJ _ h => rank_exec hJ.1 hJ.2.1 hJ.2.2 h
  · exact fun s R e s' p hJ he h => rank_occur hJ.2.2 he h

/-- Every statement can go on: waits may end by their timeout. -/
theorem exec_isSome (P : Platform) (a : Stmt) (s : Dev) : ∃ x, (exec P a x s).isSome := by
  cases a with
  | fenceWait j f => exact ⟨0, by simp [exec, fenceWait, toInt]⟩
  | waitEvent j m =>
    by_cases hd : (s.jobs j).done || s.softReseting
    · refine ⟨1, ?_⟩
      simp only [exec, waitEvent, hd]
      (repeat' split) <;> simp_all
    · refine ⟨0, ?_⟩
      simp only [exec, waitEvent, hd]
      (repeat' split) <;> simp_all
  | _ => exact ⟨0, rfl⟩

theorem final_iff : Final (driver P) settling C ↔
    C.pending = 0 ∧ ∀ c j k, C.shared.engine c ≠ .running j k := by
  constructor
  · intro hF
    refine ⟨hF.pending_eq_zero fun a _ => ?_, fun c j k he => ?_⟩
    · obtain ⟨x, hx⟩ := exec_isSome P a C.shared
      exact ⟨x, trivial, hx⟩
    · have hx : (occur P (.hwComplete c 1) C.shared).isSome := by
        simp only [occur, he]
        rw [if_pos (by decide)]
        rfl
      obtain ⟨⟨s, p⟩, hs⟩ := Option.isSome_iff_exists.mp hx
      have hG : settling.env C.shared C.pending (.hwComplete c 1) := trivial
      exact hF _ (.env hG hs)
  · rintro ⟨hidle, heng⟩ D (⟨hi, -, -⟩ | ⟨he, h⟩)
    · obtain ⟨R, hR, -⟩ := pending_run hi C.shared []
      rw [hidle] at hR
      exact Multiset.zero_ne_cons hR
    · obtain ⟨-, -, -, c, j, k, hrun, -⟩ := completes_effect he h
      exact heng c j k hrun

/-- No call of the driver runs for ever. Whatever calls and interrupts there were, once no new
ones come in the driver and its hardware take at most `rank` steps more, and whichever way they
go these end with all calls returned and every core at rest. -/
theorem driver_settles (hC : Reach (driver P) anyRun Dev.init C) :
    (∀ n D, Path (driver P) settling C n D →
      n + rank P D.shared D.pending ≤ rank P C.shared C.pending ∧
        ∃ m E, Path (driver P) settling D m E ∧ Final (driver P) settling E) ∧
    ∀ D, Final (driver P) settling D ↔
      D.pending = 0 ∧ ∀ c j k, D.shared.engine c ≠ .running j k := by
  have hR := rank_ranks P
  exact ⟨fun n D hp => ⟨hR.path_le hC hp, hR.exists_final (hC.path hR.within hp)⟩,
    fun D => final_iff⟩

theorem driver_settles_gangRun : ∃ C D : Conf Dev Stmt, C.shared.jobNum = 2 ∧
    (C.shared.jobs 0).done = false ∧ (∃ n ≤ rank (board rk3588Config) C.shared C.pending,
      Path (driver (board rk3588Config)) settling C n D) ∧ D.pending = 0 := by
  obtain ⟨C, hC, -, hn, hd, -⟩ := gangRun_reaches
  have hall := hC.mono (H := anyRun) (fun _ _ _ _ _ => trivial) fun _ _ _ _ => trivial
  obtain ⟨hbound, hfinal⟩ := driver_settles hall
  obtain ⟨n, D, hp, hF⟩ := (hbound 0 C .refl).2
  exact ⟨C, D, hn, hd, ⟨n, Nat.le_of_add_right_le (hbound n D hp).1, hp⟩, ((hfinal D).mp hF).1⟩

/-- The same for runs of `rknpu_job_schedule`, `rknpu_job_next` and `rknpu_job_done`. -/
def gangSettling : Guard Dev Stmt Int Occurrence where
  run _ _ a x := ∀ j, a = .domainGet j → x = 0
  env _ _ e := ∃ c, e = .completion c

theorem gangSettling_within (P : Platform) : gangSettling.Within (gangWorld P) :=
  ⟨fun _ _ _ _ h => h, fun _ _ _ ⟨_, he⟩ => he ▸ trivial⟩

theorem rank_ranks_gang (P : Platform) :
    Ranking (driver P) (gangWorld P) gangSettling Dev.init (rank P) := by
  refine .of_steps (gangSettling_within P) (fun s B => Queued P s B ∧ Nodes P s B ∧ Placed s B)
    (fun C hC => ⟨Queued.reach hC, Nodes.reach hC, Placed.reach hC⟩) ?_ ?_
  · exact fun s R a x s' p hJ _ h => rank_exec hJ.1 hJ.2.1 hJ.2.2 h
  · rintro s R e s' p hJ ⟨c, rfl⟩ h
    have hc : (Occurrence.completion c).completes := trivial
    exact rank_occur hJ.2.2 hc h

/-- What gang scheduling has done once all is done. -/
structure Rested (P : Platform) (s : Dev) : Prop where
  jobs : ∀ j < s.jobNum, (s.jobs j).done = true ∧ Completed s j 1
  cores : ∀ c, s.slot c = none ∧ s.todoList c = [] ∧ s.taskNum c = 0 ∧
    ∀ j k, s.engine c ≠ .running j k
  chunks : ∀ j < s.jobNum, ∀ c, inMask (s.mask j) c →
    started s.log c j = List.range (max 1 ((s.jobs j).chunkCount P.config c).toNat) ∧
      ∀ k ∈ started s.log c j, .complete c j k ∈ s.log

section Rested

variable (hC : Reach (driver P) (gangWorld P) Dev.init C)
include hC

theorem gang_isSome (ha : a ∈ C.pending) :
    ∃ x, gangSettling.run C.shared C.pending a x ∧ ((driver P).exec a x C.shared).isSome := by
  refine ⟨0, fun _ _ => rfl, ?_⟩
  have hg := gangWorld_gang hC a ha
  change (exec P a 0 C.shared).isSome = true
  cases a <;> first | rfl | cases hg

theorem serves_of_running {k : Nat} (h : C.shared.engine c = .running j k) :
    C.shared.slot c = some j := by
  have hN := gangWorld_honest.counts hC
  refine Gang.slot_of_active (Queued.reach hC) hN (gangWorld_cores hC) ?_
  have hk := hN.running c j k h
  simp only [onEngine, h, hk, if_true]
  omega

theorem final_gang (hF : Final (driver P) gangSettling C) :
    C.pending = 0 ∧ ∀ c j k, C.shared.engine c ≠ .running j k := by
  refine ⟨hF.pending_eq_zero fun a ha => gang_isSome hC ha, fun c j k he => ?_⟩
  have hx : (occur P (.completion c) C.shared).isSome := by
    simp [occur, Dev.serves, he, serves_of_running hC he]
  obtain ⟨⟨s, p⟩, hs⟩ := Option.isSome_iff_exists.mp hx
  have hG : gangSettling.env C.shared C.pending (.completion c) := ⟨c, rfl⟩
  exact hF _ (.env hG hs)

/-- The load counters are exact, as no job leaves a core but by `rknpu_job_done`. -/
theorem gang_exact : Exact P C.shared := by
  refine Exact.reach (hC.restrict ?_ ?_)
  · intro C hC a x ha _
    have hg := gangWorld_gang hC a ha
    refine ⟨⟨trivial, fun j i h => ?_⟩, fun c j h => ?_⟩
    · subst h
      cases hg
    · have := unlinks_of_drops h
      cases a <;> first | (cases hg; done) | cases this
  · intro C _ e he
    refine ⟨⟨?_, trivial⟩, trivial⟩
    cases e <;> first | exact trivial | exact absurd he id

variable (hidle : C.pending = 0)
include hidle

/-- The first job that is not done would be at work on some core. -/
theorem idle_done (hrest : ∀ c j k, C.shared.engine c ≠ .running j k)
    (hj : j < C.shared.jobNum) : (C.shared.jobs j).done = true := by
  by_contra hnot
  have hmem := idle_enqueued hC hidle hj
  obtain ⟨first, hfirst⟩ := Option.isSome_iff_exists.mp
    (List.find?_isSome (p := fun i => !(C.shared.jobs i).done).mpr ⟨j, hmem, by simp [hnot]⟩)
  obtain ⟨hfirst, before, after, ho, hb⟩ := List.find?_eq_some_iff_append.mp hfirst
  have hm : first ∈ enqueued C.shared.log := by simp [ho]
  have hb : ∀ i ∈ before, (C.shared.jobs i).done := by simpa using hb
  have hp : ∀ c, inMask (C.shared.mask first) c →
      0 < C.shared.log.count (.pickup c first) := fun c hc => by
    rw [picked_iff hC hm hc]
    by_cases hr : first ∈ released C.shared.log c
    · exact .inr hr
    · exact .inl (idle_first hC hidle hm ho hb hc hr)
  have hall : ∀ c, inMask (C.shared.mask first) c → first ∈ released C.shared.log c := fun c hc => by
    refine (idle_runs hC hidle hm hp hc).resolve_left fun hon => ?_
    simp only [onEngine] at hon
    split at hon
    · exact hrest c first _ ‹_›
    · omega
  have hdone := (Ends.reach gangWorld_honest hC).flag first
  rw [(idle_completed hC hidle hm hall).done] at hdone
  simp [hdone.mpr Nat.one_pos] at hfirst

end Rested

theorem submitCount_of_released {B : Multiset Stmt} (hS : Starts P s B) (hK : Chunks P s B)
    (hI : Recommits P s B) (hr : 0 < load (releaseW j c) B + s.log.count (.release c j)) :
    (s.jobs j).submitCount c = max 1 ((s.jobs j).chunkCount P.config c).toNat ∧
      started s.log c j = List.range ((s.jobs j).submitCount c) := by
  have hpos := hS.leaving j c hr
  have hge := hK.ended c j hr
  have hdue : ∀ k ∈ started s.log c j, k = 0 ∨ (k : Int) < (s.jobs j).chunkCount P.config c :=
    fun k hk => hI.start j c k (mem_started.mp hk)
  have hall : started s.log c j = List.range ((s.jobs j).submitCount c) := by
    refine (hS.always j c).resolve_right fun hm => ?_
    have := hdue ((s.jobs j).submitCount c) (by simp [hm])
    omega
  have hlast := hdue ((s.jobs j).submitCount c - 1) (by simp [hall, hpos])
  exact ⟨by omega, hall⟩

/-- A core that was released has completed the chunks of the job, and no others. -/
theorem released_chunks (hC : Reach (driver P) (gangWorld P) Dev.init C)
    (hr : j ∈ released C.shared.log c) :
    started C.shared.log c j =
        List.range (max 1 ((C.shared.jobs j).chunkCount P.config c).toNat) ∧
      ∀ k ∈ started C.shared.log c j, .complete c j k ∈ C.shared.log := by
  have hK := Chunks.reach gangWorld_honest hC
  rw [← List.count_pos_iff, count_released] at hr
  obtain ⟨hcount, hall⟩ := submitCount_of_released (Starts.reach gangWorld_honest hC) hK
    (Recommits.reach gangWorld_honest hC) (j := j) (c := c) (by omega)
  exact ⟨by rw [hall, hcount], fun k hk => hK.counted c j k (by simpa [hall] using hk)⟩

theorem settled_of_final (hC : Reach (driver P) (gangWorld P) Dev.init C)
    (hF : Final (driver P) gangSettling C) : Rested P C.shared := by
  obtain ⟨hidle, hrest⟩ := final_gang hC hF
  have hdone := fun j hj => idle_done (j := j) hC hidle hrest hj
  have hreleased : ∀ j < C.shared.jobNum, ∀ c, inMask (C.shared.mask j) c →
      j ∈ released C.shared.log c := fun j hj c hc => released_of_done hC (hdone j hj) hc
  have hone : ∀ c j, (C.shared.todoList c).count j +
      (if C.shared.slot c = some j then 1 else 0) = 0 := fun c j => by
    have hst := gang_station hC c j
    by_cases hj : j ∈ enqueued C.shared.log ∧ inMask (C.shared.mask j) c
    · rw [if_pos hj] at hst
      have hlt := (Queued.reach hC).lt_jobNum ((mem_enqueued _).mp hj.1)
      have := List.count_pos_iff.mpr (hreleased j hlt c hj.2)
      omega
    · rw [if_neg hj] at hst
      omega
  have hslot : ∀ c, C.shared.slot c = none := fun c => by
    cases hs : C.shared.slot c with
    | none => rfl
    | some j =>
      have := hone c j
      rw [if_pos hs] at this
      omega
  have htodo : ∀ c, C.shared.todoList c = [] := fun c =>
    List.eq_nil_iff_forall_not_mem.mpr fun j hm => by
      have := hone c j
      have := List.count_pos_iff.mpr hm
      omega
  constructor
  case jobs =>
    exact fun j hj => ⟨hdone j hj,
      idle_completed hC hidle (idle_enqueued hC hidle hj) (hreleased j hj)⟩
  case cores =>
    refine fun c => ⟨hslot c, htodo c, ?_, hrest c⟩
    rw [gang_exact hC c, Dev.outstanding, htodo, hslot]
    rfl
  case chunks => exact fun j hj c hc => released_chunks hC (hreleased j hj c hc)

/-- Gang scheduling is live. Once no new jobs come in, the driver and its hardware take at most
`rank` steps more, whatever their order, and then every job has run all of its chunks in turn on
every core of its mask and is done, once, and every core is free. -/
theorem gang_settles (hC : Reach (driver P) (gangWorld P) Dev.init C) :
    ∀ n D, Path (driver P) gangSettling C n D →
      n + rank P D.shared D.pending ≤ rank P C.shared C.pending ∧
      (∃ m E, Path (driver P) gangSettling D m E ∧ Final (driver P) gangSettling E) ∧
      (Final (driver P) gangSettling D → Rested P D.shared) := by
  intro n D hp
  have hR := rank_ranks_gang P
  have hD := hC.path hR.within hp
  exact ⟨hR.path_le hC hp, hR.exists_final hD, settled_of_final hD⟩

theorem gang_settles_gangRun : ∃ C D : Conf Dev Stmt, C.shared.todoList 1 = [1] ∧
    (∃ n ≤ rank (board rk3588Config) C.shared C.pending,
      Path (driver (board rk3588Config)) gangSettling C n D) ∧
    Rested (board rk3588Config) D.shared := by
  obtain ⟨C, hC, -, -, -, ht⟩ := gangRun_reaches
  obtain ⟨n, D, hp, hF⟩ := (gang_settles hC 0 C .refl).2.1
  obtain ⟨hle, -, hS⟩ := gang_settles hC n D hp
  exact ⟨C, D, ht, ⟨n, Nat.le_of_add_right_le hle, hp⟩, hS hF⟩

end Rknpu

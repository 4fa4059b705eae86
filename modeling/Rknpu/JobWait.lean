import Rknpu.Interleaving.Noted
import Rknpu.Clock
import Rknpu.Coverage
import Rknpu.Done
import Rknpu.Nodes

namespace Rknpu

open Interleaving

variable {P : Platform} {G : Guard Dev Stmt Int Occurrence} {C : Conf Dev Stmt} {s s' : Dev}
  {B R : Multiset Stmt} {a : Stmt} {x : Int} {p : List Stmt} {j : JobId} {c k : Nat}

/-- The stages of a commit after `job->last_task` is set. -/
def PcStage.late : PcStage → Bool
  | .jobIntMask | .pcOpEn => true
  | _ => false

structure HasLastTask (s : Dev) (B : Multiset Stmt) : Prop where
  late : ∀ g j c k, .pc g j c k ∈ B → g.late → (s.jobs j).lastTask.isSome
  started : ∀ c j k, .start c j k ∈ s.log → (s.jobs j).lastTask.isSome

theorem lastTask_exec (h : exec P a x s = some (s', p)) (hj : (s.jobs j).lastTask.isSome) :
    (s'.jobs j).lastTask.isSome := by
  by_cases ha : ∃ i c k, a = .pc .lastTask i c k
  · obtain ⟨i, c, k, rfl⟩ := ha
    cases h
    rw [setJob_jobs]
    split
    · rfl
    · exact hj
  · push Not at ha
    have hw : a.writes j .lastTask = false := by
      cases a with
      | pc g i c k =>
        cases g with
        | lastTask => exact absurd rfl (ha i c k)
        | _ => rfl
      | _ => rfl
    rw [show (s'.jobs j).lastTask = (s.jobs j).lastTask from exec_get hw h]
    exact hj

/-- The late stages of a commit follow on that of `job->last_task`. -/
theorem exec_late {g : PcStage} (h : exec P a x s = some (s', p)) (hm : .pc g j c k ∈ p)
    (hg : g.late) : a = .pc .lastTask j c k ∨ a = .pc .jobIntMask j c k := by
  by_cases ha : ∃ g' i d n, a = .pc g' i d n
  · obtain ⟨g', i, d, n, rfl⟩ := ha
    cases g' <;> cases h <;> simp only [List.mem_singleton, List.not_mem_nil, Stmt.pc.injEq] at hm <;>
      obtain ⟨rfl, rfl, rfl, rfl⟩ := hm <;> simp_all [PcStage.late]
  · push Not at ha
    exfalso
    cases exec_flow h with
    | pc => exact absurd rfl (ha _ _ _ _)
    | commitPc => simp_all [PcStage.late]
    | _ => simp at hm

namespace HasLastTask

theorem exec (hI : HasLastTask s (a ::ₘ R)) (h : Rknpu.exec P a x s = some (s', p)) :
    HasLastTask s' ((p : Multiset Stmt) + R) := by
  refine ⟨fun g j c k hm hg => ?_, fun c j k hm => ?_⟩
  · rcases Multiset.mem_add.mp hm with hm | hm
    · rcases exec_late h (by simpa using hm) hg with rfl | rfl
      · cases h
        rw [setJob_jobs, if_pos rfl]
        rfl
      · exact lastTask_exec h (hI.late _ _ _ _ (Multiset.mem_cons_self _ _) rfl)
    · exact lastTask_exec h (hI.late g j c k (Multiset.mem_cons_of_mem hm) hg)
  · by_cases hl : a.logs (.start c j k)
    · have ha : a = .pc .pcOpEn j c k := by
        cases a with
        | pc g i d n => cases g <;> simp_all [Stmt.logs]
        | _ => cases hl
      subst ha
      exact lastTask_exec h (hI.late _ _ _ _ (Multiset.mem_cons_self _ _) rfl)
    · have hcnt := exec_count h (by simpa using hl)
      rw [← List.count_pos_iff, hcnt, List.count_pos_iff] at hm
      exact lastTask_exec h (hI.started c j k hm)

theorem occur {e : Occurrence} (hQ : Queued P s R) (hC : Counts s R) (hS : Starts P s R)
    (hI : HasLastTask s R) (h : Rknpu.occur P e s = some (s', p)) :
    HasLastTask s' ((p : Multiset Stmt) + R) := by
  have hget : ∀ j, 0 < s.log.count (.enqueue j) →
      (s'.jobs j).lastTask = (s.jobs j).lastTask := fun j hj =>
    occur_get (f := .lastTask) (fun _ => (hQ.lt_jobNum hj).ne) (by simp) h
  refine ⟨fun g j c k hm hg => ?_, fun c j k hm => ?_⟩
  · rcases Multiset.mem_add.mp hm with hm | hm
    · have hpos := le_load (commitW j c) hm
      rw [(occur_weights h j c).2.2.1] at hpos
      simp [commitW] at hpos
    · have hlive := (hC.live (j := j) (c := c) (by
        have := le_load (commitW j c) hm
        simp only [commitW, and_self, if_true] at this
        simp only [tokens]
        omega)).1
      rw [hget j hlive]
      exact hI.late g j c k hm hg
  · have hm' : .start c j k ∈ s.log := by
      rwa [← List.count_pos_iff, occur_count h (by simp), List.count_pos_iff] at hm
    have hlive : 0 < s.log.count (.enqueue j) := by
      by_contra hj
      have hst := (hS.fresh j (fun h => hj h.1) c).2
      rw [← mem_started, hst] at hm'
      cases hm'
    rw [hget j hlive]
    exact hI.started c j k hm'

theorem init : HasLastTask Dev.init 0 := by
  constructor <;> simp [Dev.init]

theorem reach (hG : Honest P G) (hC : Reach (driver P) G Dev.init C) :
    HasLastTask C.shared C.pending :=
  hC.invariant_with (fun s B => Queued P s B ∧ Counts s B ∧ Starts P s B) HasLastTask
    (fun _ hC => ⟨Queued.reach hC, hG.counts hC, Starts.reach hG hC⟩) init
    (fun _ _ _ _ _ _ _ hI _ h => hI.exec h)
    (fun _ _ _ _ _ hJ hI _ h => hI.occur hJ.1 hJ.2.1 hJ.2.2 h)

end HasLastTask

/-- Where no completion is invented, a job that is `RKNPU_JOB_DONE` has been committed. -/
theorem lastTask_of_done (hG : Honest P G) (hC : Reach (driver P) G Dev.init C)
    (hj : (C.shared.jobs j).done) : (C.shared.jobs j).lastTask.isSome := by
  have hE := Ends.reach hG hC
  have hS := Starts.reach hG hC
  have hfin : 0 < finished C.shared j := by
    have := (hE.flag j).mp hj
    have := hE.done j
    omega
  simp only [finished] at hfin
  split at hfin
  swap
  · omega
  rename_i hdone
  have hints := (hG.counts hC).ints j hdone.1
  obtain ⟨c, hc⟩ := List.exists_mem_of_length_pos
    (by omega : 0 < (releaseCores C.shared.log j).length)
  rw [← List.count_pos_iff, count_releaseCores] at hc
  have hsub := hS.leaving j c (by omega)
  have hzero : 0 ∈ started C.shared.log c j := by
    rcases hS.always j c with h | h <;> rw [h, List.mem_range] <;> omega
  exact (HasLastTask.reach hG hC).started c j 0 (mem_started.mp hzero)

/-- The job of a statement of `rknpu_job_wait` behind a wait. -/
def Stmt.waited : Stmt → Option JobId
  | .waitLastTask j _ | .waitStatus j _ | .waitFlags j | .waitReturn j _ | .waitElapsed j _
  | .waitUnlink j _ => some j
  | _ => none

namespace JobWait

/-- A statement, with whether the last wait of its thread ended with the job `RKNPU_JOB_DONE`
while no reset was in progress. -/
abbrev Noted := Stmt × Bool

def note (s : Dev) : Stmt → Bool → Bool
  | .waitEvent j _, _ => (s.jobs j).done && !s.softReseting
  | _, b => b

variable (P : Platform)

def machine : Machine Dev Noted Int Occurrence := (driver P).noted note false

/-- `msecs_to_jiffies` for a kernel with `hz` jiffies in a second. -/
def msecsToJiffies (hz m : Nat) : Int :=
  if 2 ^ 31 ≤ m then 2 ^ 62 - 2 else ((m * hz + 999) / 1000 : Nat)

/-- `wait_event_timeout` leaves no more jiffies than it was called with, and one at least. -/
def world (hz : Nat) : Guard Dev Noted Int Occurrence where
  run s _ a x := ∀ j n, a.1 = .waitEvent j n → x ≤ max 1 (msecsToJiffies hz (s.jobs j).args.timeout)
  env _ _ _ := True

/-- Before the third wait `soft_reseting` ends no wait for a job that is not done. -/
def resetGuard : Guard Dev Noted Int Occurrence where
  run s _ a _ := ∀ j n, a.1 = .waitEvent j n → n + 1 < 3 → s.softReseting → (s.jobs j).done
  env _ _ _ := True

def waitGuard : Guard Dev Noted Int Occurrence := genuineGuard.noted.and resetGuard

/-- The statement leaves the loop of `rknpu_job_wait` before the third wait, the job not being
done or its time being over. -/
def GivesUp (s : Dev) (j : JobId) (a : Stmt) (x : Int) : Prop :=
  ((∃ n, a = .waitEvent j n ∧ n + 1 < 3) ∧ (s.jobs j).done = false ∨ ∃ n, a = .waitElapsed j n) ∧
    ∃ s' r, Rknpu.exec P a x s = some (s', [.waitLastTask j r])

/-- Jobs with the timeout `m` are waited for as it says: a wait that ended with the job done
brings 0, and who gives up does so that long after the commit, in nanoseconds. -/
def Respects (G : Guard Dev Noted Int Occurrence) (m : Nat) : Prop :=
  ∀ C, Reach (machine P) G Dev.init C → ∀ j, (C.shared.jobs j).args.timeout = m →
    (∀ r, (.waitReturn j r, true) ∈ C.pending → r = 0) ∧
    ∀ a ∈ C.pending, ∀ x, G.run C.shared C.pending a x → GivesUp P C.shared j a.1 x →
      (C.shared.jobs j).hwCommitTime ≠ 0 ∧
        (m * 10 ^ 6 : Int) ≤ C.shared.clock - (C.shared.jobs j).hwCommitTime

variable {P}

theorem reach_driver {hz : Nat} {C : Conf Dev Noted}
    (hC : Reach (machine P) ((world hz).and waitGuard) Dev.init C) :
    Reach (driver P) genuineGuard Dev.init C.plain :=
  .of_noted (G := (world hz).and waitGuard) (fun _ _ _ _ h => h.2.1) (fun _ _ _ _ => trivial) hC

/-- What is known on the way from the end of the last wait, where job `j` was done. -/
def Ended (s : Dev) (j : JobId) : Noted → Prop
  | (.waitLastTask i r, true) => i = j → 0 < r ∧ (s.jobs j).done ∧ (s.jobs j).lastTask.isSome
  | (.waitStatus i r, true) => i = j → 0 < r ∧ (s.jobs j).done
  | (.waitFlags i, true) => i = j → (s.jobs j).done
  | (.waitReturn i r, true) => i = j → r = 0
  | (.waitElapsed i _, true) | (.waitUnlink i _, true) => i ≠ j
  | _ => True

variable {s s' : Dev} {a b : Noted} {x : Int} {p : List Noted} {j : JobId}

theorem Ended.mono (hd : (s.jobs j).done → (s'.jobs j).done)
    (hl : (s.jobs j).lastTask.isSome → (s'.jobs j).lastTask.isSome) (h : Ended s j a) :
    Ended s' j a := by
  obtain ⟨a, b⟩ := a
  cases b
  · cases a <;> trivial
  · cases a with
    | waitLastTask i r => exact fun hi => ⟨(h hi).1, hd (h hi).2.1, hl (h hi).2.2⟩
    | waitStatus i r => exact fun hi => ⟨(h hi).1, hd (h hi).2⟩
    | waitFlags i => exact fun hi => hd (h hi)
    | waitReturn | waitElapsed | waitUnlink => exact h
    | _ => trivial

def waitTest (C : Conf Dev Noted) (a : Noted) (x : Int) : Bool :=
  !a.1.acknowledges && decide (x ≤ 1) && match a.1 with
    | .waitEvent j _ => !C.shared.softReseting || (C.shared.jobs j).done
    | _ => true

theorem guard_of_waitTest {hz : Nat} {C : Conf Dev Noted} {a : Noted} {x : Int}
    (h : waitTest C a x) : ((world hz).and waitGuard).run C.shared C.pending a x := by
  obtain ⟨⟨hack, hx⟩, hwait⟩ : (a.1.acknowledges = false ∧ x ≤ 1) ∧ _ := by
    simpa only [waitTest, Bool.and_eq_true, Bool.not_eq_true', decide_eq_true_iff] using h
  refine ⟨fun _ _ _ => hx.trans (le_max_left _ _), fun c j hc => ?_, fun j n ha _ hs => ?_⟩
  · simp [hc, Stmt.acknowledges] at hack
  · rw [ha] at hwait
    simpa [hs] using hwait

/-- A reset begins right after a job was started and its submitter went to wait. -/
def resetRun (m : Nat) : List (Label Int Occurrence) :=
  [Label.env (Occurrence.tick 1), .env (.submit { oneTask 1 1 with timeout := m })] ++
    List.replicate 25 (Label.run 1 0) ++
    [Label.env Occurrence.softReset, .run 2 0, .run 2 0]

theorem resetRun_waits (m : Nat) :
    ((machine (board rk356xConfig)).steps waitTest (resetRun m) ⟨Dev.init, []⟩).map (fun C =>
      ((C.shared.jobs 0).args.timeout, (C.shared.jobs 0).hwCommitTime, C.shared.clock,
        (C.shared.jobs 0).done, C.shared.softReseting, C.threads)) =
    some (m, 1, 1, false, true, [[], [(.waitEvent 0 0, false)], [(.resetHw, false)]]) := by
  cbv

/-- No timeout is respected where resets may end a wait. -/
theorem reset_gives_up {hz m : Nat} (hm : 0 < m) :
    ¬Respects (board rk356xConfig) ((world hz).and genuineGuard.noted) m := by
  intro h
  obtain ⟨C, hC, hview⟩ := Option.map_eq_some_iff.mp (resetRun_waits m)
  obtain ⟨htimeout, hcommit, hclock, hdone, hreset, hthreads⟩ := by
    simpa only [Prod.mk.injEq] using hview
  have hreach : Reach (machine (board rk356xConfig)) ((world hz).and genuineGuard.noted) Dev.init C :=
    .of_steps .init (fun C a x hok => by
      have hG : ((world hz).and waitGuard).run _ _ _ _ := guard_of_waitTest hok
      exact ⟨hG.1, hG.2.1⟩) (fun _ _ _ _ => ⟨trivial, trivial⟩) hC
  have hpending : (.waitEvent 0 0, false) ∈ C.pending := by
    simp [Conf.pending, hthreads]
  have hgives : GivesUp (board rk356xConfig) C.shared 0 (.waitEvent 0 0) 1 := by
    refine ⟨.inl ⟨⟨0, rfl, by decide⟩, hdone⟩, C.shared, 1, ?_⟩
    simp only [Rknpu.exec, waitEvent, hreset, Bool.or_true]
    rfl
  obtain ⟨-, hlong⟩ := (h C hreach 0 htimeout).2 _ hpending 1
    ⟨fun _ _ _ => le_max_left _ _, by simp [Guard.noted, genuineGuard, Counts.Genuine]⟩ hgives
  rw [hclock, hcommit] at hlong
  omega

end JobWait

end Rknpu

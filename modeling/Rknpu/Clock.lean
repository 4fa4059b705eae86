import Rknpu.Queued

namespace Rknpu

open Interleaving

variable {P : Platform} {G : Guard Dev Stmt Int Occurrence} {C : Conf Dev Stmt} {s s' : Dev}
  {B R : Multiset Stmt} {a : Stmt} {x : Int} {p : List Stmt} {e : Occurrence}

/-- Only a pick-up sets the commit time, and no statement lets time pass. -/
theorem exec_clock (h : exec P a x s = some (s', p)) : s'.clock = s.clock ∧
    ((∀ c, a ≠ .pickUp c) → ∀ j, (s'.jobs j).hwCommitTime = (s.jobs j).hwCommitTime) := by
  cases a <;>
    simp only [exec, fenceIn, fenceWait, fenceOut, fenceFd, dispatch, submitAsync, submitWait,
      submitResult, submitReturn, jobSchedule, selectCore, domainGet, enqueue, nextLoop, jobNext,
      pickUp, runDec, jobCommit, subcoreCommit, commitPc, jobDone, releaseCore, interruptDec,
      doneWidth, donePut, doneFlag, doneRet, doneFence, doneAsync, irqEnter, irqStatus, irqCheck,
      irqClear, irqReturn, waitEvent, waitElapsed, waitLastTask, waitUnlink, waitStatus, waitFlags,
      waitReturn, jobAbort, abortCores, abortReset, jobFree, timeoutClean, cancel, cancelWork,
      drain, drainWork, softReset, resetMark, resetHw, resetEnd,
      stateInit, resetUnlock, Option.some.injEq] at h
  case pc g j c k =>
    cases g <;> cases h <;>
      first
        | exact ⟨rfl, fun _ _ => rfl⟩
        | exact ⟨rfl, fun _ => field_update Job.hwCommitTime rfl⟩
  all_goals
    repeat' split at h
    all_goals
      cases h
      first
        | done
        | exact ⟨rfl, fun _ _ => rfl⟩
        | exact ⟨rfl, fun _ => field_update Job.hwCommitTime rfl⟩
        | exact ⟨rfl, fun ha => absurd rfl (ha _)⟩

theorem occur_clock (h : occur P e s = some (s', p)) : s.clock ≤ s'.clock ∧ ∀ j,
    ((s'.jobs j).timestamp = (s.jobs j).timestamp ∧
        (s'.jobs j).hwCommitTime = (s.jobs j).hwCommitTime) ∨
      j = s.jobNum ∧ (s'.jobs j).timestamp = s.clock ∧ (s'.jobs j).hwCommitTime = 0 := by
  have hspawn : ∀ (b : Job), b.timestamp = s.clock → b.hwCommitTime = 0 → ∀ j,
      ((Function.update s.jobs s.jobNum b j).timestamp = (s.jobs j).timestamp ∧
        (Function.update s.jobs s.jobNum b j).hwCommitTime = (s.jobs j).hwCommitTime) ∨
      j = s.jobNum ∧ (Function.update s.jobs s.jobNum b j).timestamp = s.clock ∧
        (Function.update s.jobs s.jobNum b j).hwCommitTime = 0 := by
    intro b ht hc j
    by_cases hj : j = s.jobNum
    · subst hj
      rw [Function.update_self]
      exact .inr ⟨rfl, ht, hc⟩
    · rw [Function.update_of_ne hj]
      exact .inl ⟨rfl, rfl⟩
  cases e <;> simp only [occur] at h
  case submit args =>
    split at h <;> cases h
    · exact ⟨le_rfl, hspawn _ rfl rfl⟩
    · exact ⟨le_rfl, fun _ => .inl ⟨rfl, rfl⟩⟩
  case schedule args fence =>
    cases h
    exact ⟨le_rfl, hspawn _ rfl rfl⟩
  case completion c =>
    obtain ⟨r, -, hr⟩ := Option.map_eq_some_iff.mp h
    cases hr
    refine ⟨le_rfl, fun j => .inl ?_⟩
    simp only [setJob_jobs]
    split <;> simp [*]
  case tick d =>
    cases h
    exact ⟨by dsimp only; omega, fun _ => .inl ⟨rfl, rfl⟩⟩
  all_goals
    repeat' split at h
    all_goals
      cases h
      try exact ⟨le_rfl, fun _ => .inl ⟨rfl, rfl⟩⟩

theorem pickUp_times {c : Nat} (h : exec P (.pickUp c) x s = some (s', p)) (j : JobId) :
    (s'.jobs j).hwCommitTime = s.clock ∨ (s'.jobs j).hwCommitTime = (s.jobs j).hwCommitTime ∧
      ∀ d, s'.slot d = some j → s.slot d = some j := by
  simp only [exec, pickUp, Option.some.injEq] at h
  split at h <;> cases h
  · rename_i i rest _ _
    rw [setJob_jobs]
    by_cases hj : j = i
    · rw [if_pos hj]
      exact .inl rfl
    · rw [if_neg hj]
      refine .inr ⟨rfl, fun d hd => ?_⟩
      by_cases hdc : d = c
      · simp [hdc, Ne.symm hj] at hd
      · simpa [hdc, Dev.setJob] using hd
  · exact .inr ⟨rfl, fun _ hd => hd⟩

/-- No time is later than now, and a job is not committed before it is allocated. -/
structure Timed (s : Dev) : Prop where
  clock : 0 ≤ s.clock
  timestamp : ∀ j, (s.jobs j).timestamp ≤ s.clock
  commit : ∀ j, (s.jobs j).hwCommitTime ≤ s.clock
  slot : ∀ c j, s.slot c = some j → (s.jobs j).timestamp ≤ (s.jobs j).hwCommitTime

namespace Timed

theorem exec (hI : Timed s) (h : Rknpu.exec P a x s = some (s', p)) : Timed s' := by
  obtain ⟨hclock, hsame⟩ := exec_clock h
  have hstamp : ∀ j, (s'.jobs j).timestamp = (s.jobs j).timestamp := fun j => by
    refine exec_get (f := .timestamp) ?_ h
    cases a with
    | pc g => cases g <;> rfl
    | _ => rfl
  by_cases ha : ∃ c, a = .pickUp c
  · obtain ⟨c, rfl⟩ := ha
    refine ⟨hclock ▸ hI.clock, fun j => ?_, fun j => ?_, fun d j hd => ?_⟩
    · rw [hstamp, hclock]
      exact hI.timestamp j
    · rw [hclock]
      rcases pickUp_times h j with ht | ⟨ht, -⟩ <;> rw [ht]
      exact hI.commit j
    · rw [hstamp]
      rcases pickUp_times h j with ht | ⟨ht, hs⟩ <;> rw [ht]
      · exact hI.timestamp j
      · exact hI.slot d j (hs d hd)
  · push Not at ha
    refine ⟨hclock ▸ hI.clock, fun j => ?_, fun j => ?_, fun d j hd => ?_⟩
    · rw [hstamp, hclock]
      exact hI.timestamp j
    · rw [hclock, hsame ha]
      exact hI.commit j
    · rw [hstamp, hsame ha]
      exact hI.slot d j (slot_exec (ha d) h hd)

theorem occur (hQ : Queued P s R) (hI : Timed s) (h : Rknpu.occur P e s = some (s', p)) :
    Timed s' := by
  obtain ⟨hclock, htimes⟩ := occur_clock h
  have hpos := hI.clock
  refine ⟨hpos.trans hclock, fun j => ?_, fun j => ?_, fun c j hj => ?_⟩
  · rcases htimes j with ⟨ht, -⟩ | ⟨-, ht, -⟩ <;> rw [ht]
    · exact (hI.timestamp j).trans hclock
    · exact hclock
  · rcases htimes j with ⟨-, hc⟩ | ⟨-, -, hc⟩ <;> rw [hc]
    · exact (hI.commit j).trans hclock
    · exact hpos.trans hclock
  · rw [occur_slot h] at hj
    rcases htimes j with ⟨ht, hc⟩ | ⟨rfl, -⟩
    · rw [ht, hc]
      exact hI.slot c j hj
    · exact absurd rfl (hQ.lt_jobNum (hQ.enqueued_of_slot hj)).ne

theorem init : Timed Dev.init := by
  constructor <;> simp [Dev.init, jobAlloc]

theorem reach (hC : Reach (driver P) G Dev.init C) : Timed C.shared :=
  hC.invariant_with (fun s B => Queued P s B) (fun s _ => Timed s) (fun _ hC => Queued.reach hC) init
    (fun _ _ _ _ _ _ _ hI _ h => hI.exec h) (fun _ _ _ _ _ hJ hI _ h => hI.occur hJ h)

end Timed

end Rknpu

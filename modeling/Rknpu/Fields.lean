import Rknpu.Calm

namespace Rknpu

open Interleaving

inductive Field where
  | args
  | domain
  | fenceFd
  | head
  | workInit
  | irqEntry
  | done
  | async
  | ret
  | lastTask
  | intMask
  | fence
  | timestamp

abbrev Field.Value : Field → Type
  | .args => Nat × Nat × Nat × Nat × Nat × Nat × (Nat → SubcoreTask)
  | .domain => Nat
  | .head => Nat → Node
  | .workInit | .done | .async => Bool
  | .irqEntry => Nat → Bool
  | .fenceFd | .ret | .timestamp => Int
  | .lastTask => Option Int
  | .intMask => Nat → Word
  | .fence => Option Nat

def Field.get (b : Job) : (f : Field) → f.Value
  | .args => (b.args.flags, b.args.timeout, b.args.taskStart, b.args.taskNumber, b.args.taskObjAddr,
      b.args.taskBaseAddr, b.args.subcoreTask)
  | .domain => b.args.iommuDomainId
  | .fenceFd => b.args.fenceFd
  | .head => b.head
  | .workInit => b.workInit
  | .irqEntry => b.irqEntry
  | .done => b.done
  | .async => b.async
  | .ret => b.ret
  | .lastTask => b.lastTask
  | .intMask => b.intMask
  | .fence => b.fence
  | .timestamp => b.timestamp

def Stmt.writes (k : JobId) : Stmt → Field → Bool
  | .enqueue j, .head | .waitUnlink j _, .head | .cancel j _, .head | .doneFlag j _ _, .done
  | .dispatch j, .async | .domainGet j, .ret | .subcoreCommit j _, .ret | .commitPc j _, .ret
  | .doneRet j _ _, .ret | .waitReturn j _, .ret | .pc .lastTask j _ _, .lastTask
  | .pc .jobIntMask j _ _, .intMask | .fenceOut j, .fence
  | .fenceIn j, .fenceFd | .fenceFd j, .fenceFd => j == k
  | .pickUp _, .head | .drain _, .head | .irqEnter _, .irqEntry => true
  | _, _ => false

variable {P : Platform} {s s' : Dev} {a : Stmt} {x : Int} {p : List Stmt}

theorem get_update {jobs : JobId → Job} {f : Field} {j k : JobId} {b : Job}
    (h : j = k → f.get b = f.get (jobs j)) :
    f.get (Function.update jobs j b k) = f.get (jobs k) := by
  by_cases hk : j = k
  · subst hk
    rw [Function.update_self]
    exact h rfl
  · rw [Function.update_of_ne (Ne.symm hk)]

theorem exec_get {f : Field} {k : JobId} (hf : a.writes k f = false)
    (h : exec P a x s = some (s', p)) : f.get (s'.jobs k) = f.get (s.jobs k) := by
  cases a <;>
    simp only [exec, fenceIn, fenceWait, fenceOut, fenceFd, dispatch, submitAsync, submitWait,
      submitResult, submitReturn, jobSchedule, selectCore, domainGet, enqueue, nextLoop, jobNext,
      pickUp, runDec, jobCommit, subcoreCommit, commitPc, jobDone, releaseCore, interruptDec,
      doneWidth, donePut, doneFlag, doneRet, doneFence, doneAsync, irqEnter, irqStatus, irqCheck,
      irqClear, irqReturn, waitEvent, waitElapsed, waitLastTask, waitUnlink, waitStatus, waitFlags,
      waitReturn, jobAbort, abortCores, abortReset, jobFree, timeoutClean, cancel, cancelWork,
      drain, drainWork, softReset, resetMark, resetHw, resetEnd,
      stateInit, resetUnlock, Option.some.injEq] at h
  case pc g j c n =>
    cases g <;> cases h <;> try rfl
    all_goals
      refine get_update fun hk => ?_
      subst hk
      cases f <;> first | rfl | simp [Stmt.writes] at hf
  all_goals
    repeat' split at h
    all_goals
      cases h
      first
        | done
        | rfl
        | (refine get_update fun hk => ?_
           try subst hk
           cases f <;> first | rfl | simp [Stmt.writes] at hf)

theorem exec_args (h : exec P a x s = some (s', p)) (k : JobId) :
    Field.args.get (s'.jobs k) = Field.args.get (s.jobs k) := by
  refine exec_get ?_ h
  cases a with
  | pc g j c n => cases g <;> rfl
  | _ => rfl

def Occurrence.spawns : Occurrence → Bool
  | .submit _ | .schedule _ _ => true
  | _ => false

theorem occur_get {f : Field} {e : Occurrence} {k : JobId}
    (hk : e.spawns → k ≠ s.jobNum) (hf : ∀ c, e = .completion c → f ≠ .irqEntry)
    (h : occur P e s = some (s', p)) :
    f.get (s'.jobs k) = f.get (s.jobs k) := by
  cases e with
  | completion c =>
    simp only [occur, Option.map_eq_some_iff] at h
    obtain ⟨r, -, hr⟩ := h
    cases hr
    refine get_update fun _ => ?_
    cases f <;> first | rfl | exact absurd rfl (hf c rfl)
  | submit | schedule =>
    simp only [occur, spawn] at h
    repeat' split at h
    all_goals
      cases h
      first
        | rfl
        | exact get_update fun h => absurd h (Ne.symm (hk rfl))
  | _ =>
    simp only [occur] at h
    repeat' split at h
    all_goals
      cases h
      try rfl

theorem spawn_get {e : Occurrence} (he : e.spawns) (h : occur P e s = some (s', p)) :
    s' = s ∨ ∃ args, ∀ f : Field, f ≠ .async → f ≠ .fence →
      f.get (s'.jobs s.jobNum) = f.get (jobAlloc s.clock args) := by
  cases e <;> simp only [Occurrence.spawns, Bool.false_eq_true] at he
  case submit args =>
    simp only [occur, spawn] at h
    split at h <;> cases h
    · exact .inr ⟨args, fun f _ _ => by simp⟩
    · exact .inl rfl
  case schedule args fence =>
    cases h
    refine .inr ⟨args, fun f ha hf => ?_⟩
    simp only [Function.update_self]
    cases f <;> first | rfl | exact absurd rfl ha | exact absurd rfl hf

end Rknpu

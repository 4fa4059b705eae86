import Rknpu.Device

namespace Rknpu

/-- The statements of `rknpu_job_subcore_commit_pc` after its checks, in its order. -/
inductive PcStage where
  | pcDataAddr
  | pcDataAmount
  | pcIntMask
  | pcIntClear
  | pcTaskControl
  | pcDmaBaseAddr
  | firstTask
  | lastTask
  | jobIntMask
  | pcOpEn
deriving DecidableEq

/-- What `rknpu_irq_handler` does once it has written `INT_CLEAR`. -/
inductive IrqExit where
  | noJob
  | invalid
  | done (j : JobId)
deriving DecidableEq

/-- The atomic statements of the driver: one access to the job, the registers or the
device, or one section under `irq_lock`. The other arguments are the locals of the
function at that statement. -/
inductive Stmt where
  -- rknpu_submit
  | fenceIn (j : JobId)
  | fenceWait (j : JobId) (f : List Fence)
  | fenceOut (j : JobId)
  | fenceFd (j : JobId)
  | dispatch (j : JobId)
  | submitAsync (j : JobId)
  | submitWait (j : JobId)
  | submitResult (j : JobId)
  | submitReturn (j : JobId) (ret : Int)
  -- rknpu_job_schedule
  | jobSchedule (j : JobId)
  | selectCore (j : JobId) (i : Nat) (taskNum : Int) (coreIndex : Nat)
  | domainGet (j : JobId)
  | enqueue (j : JobId)
  | nextLoop (j : JobId) (i : Nat)
  -- rknpu_job_next and the commit functions
  | jobNext (c : Nat)
  | pickUp (c : Nat)
  | runDec (j : JobId)
  | jobCommit (j : JobId)
  | subcoreCommit (j : JobId) (c : Nat)
  | commitPc (j : JobId) (c : Nat)
  | pc (g : PcStage) (j : JobId) (c : Nat) (k : Nat)
  -- rknpu_job_done
  | jobDone (j : JobId) (ret : Int) (c : Nat)
  | releaseCore (j : JobId) (ret : Int) (c : Nat)
  | interruptDec (j : JobId) (ret : Int) (c : Nat)
  | doneWidth (j : JobId) (ret : Int) (c : Nat)
  | donePut (j : JobId) (ret : Int) (q : Nat)
  | doneFlag (j : JobId) (ret : Int) (q : Nat)
  | doneRet (j : JobId) (ret : Int) (q : Nat)
  | doneFence (j : JobId) (q : Nat)
  | doneAsync (j : JobId) (q : Nat)
  | wakeUp (q : Nat)
  -- rknpu_irq_handler
  | irqEnter (c : Nat)
  | irqStatus (j : JobId) (c : Nat)
  | irqCheck (j : JobId) (c : Nat) (status : Word)
  | irqClear (c : Nat) (e : IrqExit)
  | irqReturn (c : Nat)
  -- rknpu_job_wait
  | waitEvent (j : JobId) (n : Nat)
  | waitElapsed (j : JobId) (n : Nat)
  | waitLastTask (j : JobId) (ret : Int)
  | waitUnlink (j : JobId) (ret : Int)
  | waitStatus (j : JobId) (ret : Int)
  | waitFlags (j : JobId)
  | waitReturn (j : JobId) (ret : Int)
  -- rknpu_job_abort and rknpu_job_free
  | jobAbort (j : JobId)
  | abortCores (j : JobId)
  | abortReset (j : JobId)
  | jobFree (j : JobId)
  -- rknpu_job_timeout_clean
  | timeoutClean (mask : Nat) (i : Nat)
  | cancel (j : JobId) (i : Nat)
  | cancelWork (j : JobId) (i : Nat)
  | drain (i : Nat)
  | drainWork (j : JobId) (i : Nat)
  -- rknpu_soft_reset
  | softReset
  | resetMark
  | resetHw
  | resetEnd
  | stateInit
  | resetUnlock
deriving DecidableEq

end Rknpu

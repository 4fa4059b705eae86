import Rknpu.Stmt

namespace Rknpu

variable (P : Platform)

/-- The start of `rknpu_job_done`: either the next chunk is committed or the core is freed. -/
def jobDone (s : Dev) (j : JobId) (ret : Int) (c : Nat) : Dev × List Stmt :=
  let b := s.jobs j
  (s.setJob j fun b =>
      { b with submitCount := Function.update b.submitCount c (b.submitCount c + 1) },
    if ((b.submitCount c + 1 : Nat) : Int) < b.chunkCount P.config c then [.subcoreCommit j c]
    else [.releaseCore j ret c])

/-- The section of `rknpu_job_done` under `irq_lock`. -/
def releaseCore (s : Dev) (j : JobId) (ret : Int) (c : Nat) : Dev × List Stmt :=
  let b := s.jobs j
  let s := s.setJob j fun b => { b with hwElapseTime := s.clock - b.hwCommitTime }
  ({ s with
     slot := Function.update s.slot c none
     taskNum := Function.update s.taskNum c (s.taskNum c - b.getTaskNumber P.config c)
     busyTime := Function.update s.busyTime c (s.busyTime c + (s.clock - b.hwRecoderTime))
     log := s.log ++ [.release c j] }, [.interruptDec j ret c, .jobNext c])

/-- `atomic_dec_and_test(&job->interrupt_count)` -/
def interruptDec (s : Dev) (j : JobId) (ret : Int) (c : Nat) : Dev × List Stmt :=
  (s.setJob j fun b => { b with interruptCount := b.interruptCount - 1 },
    if (s.jobs j).interruptCount = 1 then [.doneWidth j ret c] else [])

/-- `use_core_num` selects the queue that is woken at the end. -/
def doneWidth (s : Dev) (j : JobId) (ret : Int) (c : Nat) : Dev × List Stmt :=
  (s, [.donePut j ret (if 1 < (s.jobs j).useCoreNum then 0 else c)])

def donePut (s : Dev) (j : JobId) (ret : Int) (q : Nat) : Dev × List Stmt :=
  (s.record (.domainPut j), [.doneFlag j ret q])

/-- `job->flags |= RKNPU_JOB_DONE` -/
def doneFlag (s : Dev) (j : JobId) (ret : Int) (q : Nat) : Dev × List Stmt :=
  ((s.setJob j fun b => { b with done := true }).record (.done j), [.doneRet j ret q])

def doneRet (s : Dev) (j : JobId) (ret : Int) (q : Nat) : Dev × List Stmt :=
  (s.setJob j fun b => { b with ret := ret }, [.doneFence j q])

def doneFence (s : Dev) (j : JobId) (q : Nat) : Dev × List Stmt :=
  (if (s.jobs j).fence.isSome then
      { s with ownSignalled := Function.update s.ownSignalled j true
               log := s.log ++ [.fenceSignal j] }
    else s, [.doneAsync j q])

def doneAsync (s : Dev) (j : JobId) (q : Nat) : Dev × List Stmt :=
  (if (s.jobs j).async then s.scheduleWork j else s, [.wakeUp q])

/-- `rknpu_fuzz_status` -/
def fuzzStatus (status : Word) : Word :=
  (if status &&& 0x3 ≠ 0 then 0x3 else 0) |||
  (if status &&& 0xc ≠ 0 then 0xc else 0) |||
  (if status &&& 0x30 ≠ 0 then 0x30 else 0) |||
  (if status &&& 0xc0 ≠ 0 then 0xc0 else 0) |||
  (if status &&& 0x300 ≠ 0 then 0x300 else 0) |||
  (if status &&& 0xc00 ≠ 0 then 0xc00 else 0)

/-- The section of `rknpu_irq_handler` under `irq_lock`. -/
def irqEnter (s : Dev) (c : Nat) : Dev × List Stmt :=
  match s.slot c with
  | none => (s, [.irqClear c .noJob])
  | some j =>
    (s.setJob j fun b => { b with irqEntry := Function.update b.irqEntry c true }, [.irqStatus j c])

def irqStatus (s : Dev) (j : JobId) (c : Nat) : Dev × List Stmt :=
  (s.setJob j fun b => { b with intStatus := Function.update b.intStatus c (s.status c) },
    [.irqCheck j c (s.status c)])

/-- The comparison of the status with the mask that the job waits for on this core. -/
def irqCheck (s : Dev) (j : JobId) (c : Nat) (status : Word) : Dev × List Stmt :=
  if fuzzStatus status ≠ (s.jobs j).intMask c then (s, [.irqClear c .invalid])
  else (s, [.irqClear c (.done j)])

/-- `REG_WRITE(RKNPU_INT_CLEAR, RKNPU_OFFSET_INT_CLEAR)`, on each of the three branches. -/
def irqClear (s : Dev) (c : Nat) (e : IrqExit) : Dev × List Stmt :=
  (s.writeIntClear c intClearAll,
    match e with
    | .noJob => [.jobNext c, .irqReturn c]
    | .invalid => [.irqReturn c]
    | .done j => [.jobDone j 0 c, .irqReturn c])

def irqReturn (s : Dev) (c : Nat) : Dev × List Stmt :=
  ({ s with irqRunning := Function.update s.irqRunning c false }, [])

end Rknpu

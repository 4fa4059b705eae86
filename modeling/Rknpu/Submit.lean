import Rknpu.Stmt

namespace Rknpu

variable (P : Platform)

/-- `rknpu_submit`: the in-fence is looked up and, if it is not all of the driver's
own context, waited for. -/
def fenceIn (s : Dev) (j : JobId) : Dev × List Stmt :=
  let a := (s.jobs j).args
  if a.fenceIn then
    match s.syncFile a.fenceFd with
    | none => (s, [.jobFree j, .submitReturn j (-einval)])
    | some f =>
      (s.setJob j fun b => { b with args := { b.args with fenceFd := -1 } },
        if matchContext f then [.fenceOut j] else [.fenceWait j f])
  else (s, [.fenceOut j])

/-- `dma_fence_wait_timeout` returned `x`: negative on error, 0 when the wait timed
out, and positive only if the fence has signalled. -/
def fenceWait (s : Dev) (j : JobId) (f : List Fence) (x : Int) : Option (Dev × List Stmt) :=
  if 0 < x ∧ s.signalled f = false then none
  else if toInt x < 0 then some (s, [.jobFree j, .submitReturn j (toInt x)])
  else some (s, [.fenceOut j])

/-- `rknpu_fence_alloc`; a non-zero `x` says that `kzalloc` failed. -/
def fenceOut (s : Dev) (j : JobId) (x : Int) : Dev × List Stmt :=
  if (s.jobs j).args.fenceOut then
    if x ≠ 0 then (s, [.jobFree j, .submitReturn j (-enomem)])
    else
      let n := (s.seqno + 1) % 2 ^ 32
      ({ s.setJob j fun b => { b with fence := some n } with seqno := n }, [.fenceFd j])
  else (s, [.dispatch j])

/-- `rknpu_fence_get_fd` returned `x`, a descriptor that user space can use from now on
or an error. -/
def fenceFd (s : Dev) (j : JobId) (x : Int) : Dev × List Stmt :=
  let s := s.setJob j fun b => { b with args := { b.args with fenceFd := x } }
  (if 0 ≤ x then { s with syncFile := Function.update s.syncFile x (some [.own j]) } else s,
    [.dispatch j])

/-- The two ways `rknpu_submit` goes on. -/
def dispatch (s : Dev) (j : JobId) : Dev × List Stmt :=
  let a := (s.jobs j).args
  if a.nonblock then
    (s.setJob j fun b => { b with async := true },
      [.timeoutClean a.coreMask 0, .jobSchedule j, .submitAsync j])
  else (s, [.jobSchedule j, .submitWait j])

def submitAsync (s : Dev) (j : JobId) : Dev × List Stmt :=
  let ret := (s.jobs j).ret
  (s, if ret ≠ 0 then [.jobAbort j, .submitReturn j ret] else [.submitReturn j 0])

def submitWait (s : Dev) (j : JobId) : Dev × List Stmt :=
  (s, if (s.jobs j).args.pc then [.waitEvent j 0] else [.submitResult j])

def submitResult (s : Dev) (j : JobId) : Dev × List Stmt :=
  let ret := (s.jobs j).ret
  (s, if ret = 0 then [.jobFree j, .submitReturn j 0] else [.jobAbort j, .submitReturn j ret])

def submitReturn (s : Dev) (j : JobId) (ret : Int) : Dev × List Stmt :=
  (s.record (.submitReturn j ret), [])

/-- `wait_event_timeout` returned the `long` `x`: 0 if the condition is still false at
the end of the time, else the jiffies that remained. -/
def waitEvent (s : Dev) (j : JobId) (n : Nat) (x : Int) : Option (Dev × List Stmt) :=
  let cond := (s.jobs j).done || s.softReseting
  if x < 0 ∨ (0 < x ∧ cond = false) ∨ (x = 0 ∧ cond = true) then none
  else if 3 ≤ n + 1 then some (s, [.waitLastTask j (toInt x)])
  else if toInt x = 0 then some (s, [.waitElapsed j (n + 1)])
  else some (s, [.waitLastTask j (toInt x)])

/-- The decision under `irq_lock` whether the wait goes on after it timed out. -/
def waitElapsed (s : Dev) (j : JobId) (n : Nat) : Dev × List Stmt :=
  let b := s.jobs j
  let elapse := (s.clock - b.hwCommitTime).tdiv 1000
  (s, if b.hwCommitTime = 0 ∨ elapse < ((b.args.timeout * 1000 % 2 ^ 32 : Nat) : Int) then
      [.waitEvent j n]
    else [.waitLastTask j 0])

def waitLastTask (s : Dev) (j : JobId) (ret : Int) : Dev × List Stmt :=
  (s, if (s.jobs j).lastTask.isNone then [.waitUnlink j ret] else [.waitStatus j ret])

/-- The section of `rknpu_job_wait` under `irq_lock` that takes a job which was never
committed off the lists of the cores below `use_core_num`. -/
def waitUnlink (s : Dev) (j : JobId) (ret : Int) : Dev × List Stmt :=
  let b := s.jobs j
  let on c := decide (c < b.useCoreNum) && decide (j ∈ s.todoList c)
  let s := s.setJob j fun b => { b with head := fun c => if on c then .poisoned else b.head c }
  ({ s with todoList := fun c => if on c then (s.todoList c).erase j else s.todoList c },
    [.waitReturn j (if ret < 0 then ret else -einval)])

def waitStatus (s : Dev) (j : JobId) (ret : Int) : Dev × List Stmt :=
  let a := (s.jobs j).args
  if ret ≤ 0 then
    let status := s.reg (waitCoreIndex a.coreMask) .pcTaskStatus
    let counter := if a.pc then (status &&& BitVec.ofNat 32 P.config.pcTaskNumberMask).toNat else 0
    (s.setJob j fun b => { b with args := { b.args with taskCounter := counter } },
      [.waitReturn j (if ret < 0 then ret else -etimedout)])
  else (s, [.waitFlags j])

def waitFlags (s : Dev) (j : JobId) : Dev × List Stmt :=
  if (s.jobs j).done then
    (s.setJob j fun b =>
        { b with args := { b.args with taskCounter := b.args.taskNumber
                                       hwElapseTime := b.hwElapseTime } },
      [.waitReturn j 0])
  else (s, [.waitReturn j (-einval)])

/-- `job->ret = rknpu_job_wait(job)` -/
def waitReturn (s : Dev) (j : JobId) (ret : Int) : Dev × List Stmt :=
  (s.setJob j fun b => { b with ret := ret }, [.submitResult j])

/-- `rknpu_job_abort`, up to the end of its sleep. -/
def jobAbort (s : Dev) (j : JobId) : Dev × List Stmt :=
  (s.record (.domainPut j), [.abortCores j])

/-- The section of `rknpu_job_abort` under `irq_lock`. -/
def abortCores (s : Dev) (j : JobId) : Dev × List Stmt :=
  let b := s.jobs j
  let on c := c < P.config.numIrqs && inMask b.args.coreMask c && s.slot c == some j &&
    !b.irqEntry c
  ({ s with
     slot := fun c => if on c then none else s.slot c
     taskNum := fun c => if on c then s.taskNum c - b.getTaskNumber P.config c else s.taskNum c },
    [.abortReset j])

def abortReset (s : Dev) (j : JobId) : Dev × List Stmt :=
  (s, if (s.jobs j).ret = -etimedout then [.softReset, .jobFree j] else [.jobFree j])

/-- `rknpu_job_free` -/
def jobFree (s : Dev) (j : JobId) : Dev × List Stmt :=
  ({ s with freed := Function.update s.freed j true, log := s.log ++ [.free j] }, [])

end Rknpu

import Rknpu.Job

namespace Rknpu

/-- One fence of a `sync_file`: of the driver's own context, created for a job, or of
a foreign one. -/
inductive Fence where
  | own (j : JobId)
  | foreign (n : Nat)
deriving DecidableEq

/-- What the hardware of one core is doing with chunk `k` of job `j`. -/
inductive Engine where
  | idle
  | running (j : JobId) (k : Nat)
  | complete (j : JobId) (k : Nat)
deriving DecidableEq

/-- History of a run; no function of the driver reads it. -/
inductive Event where
  | enqueue (j : JobId)
  | pickup (c : Nat) (j : JobId)
  | start (c : Nat) (j : JobId) (k : Nat)
  | complete (c : Nat) (j : JobId) (k : Nat)
  | release (c : Nat) (j : JobId)
  | done (j : JobId)
  | domainGet (j : JobId)
  | domainPut (j : JobId)
  | fenceSignal (j : JobId)
  | scheduleWork (j : JobId) (init : Bool)
  | listEmpty (c : Nat) (j : JobId) (n : Node)
  | listDel (c : Nat) (j : JobId) (n : Node)
  | free (j : JobId)
  | submitReturn (j : JobId) (ret : Int)
deriving DecidableEq

/-- Register offsets of `rknpu_ioctl.h`. -/
inductive Reg where
  | pcOpEn
  | pcDataAddr
  | pcDataAmount
  | pcTaskControl
  | pcDmaBaseAddr
  | intMask
  | intStatus
  | pcTaskStatus
  | offset1004
  | offset3004
deriving DecidableEq

/-- `RKNPU_INT_CLEAR` -/
def intClearAll : Word := 0x1ffff

/-- `struct rknpu_device`: `slot`, `todoList`, `taskNum` and `busyTime` are the
fields of `subcore_datas`, `reg` the registers of each core, `clock` is what
`ktime_get` reads. -/
structure Dev where
  jobs : JobId → Job
  jobNum : Nat
  todoList : Nat → List JobId
  slot : Nat → Option JobId
  taskNum : Nat → Int
  busyTime : Nat → Int
  softReseting : Bool
  resetLock : Bool
  clock : Int
  reg : Nat → Reg → Word
  engine : Nat → Engine
  irqRunning : Nat → Bool
  workPending : JobId → Bool
  freed : JobId → Bool
  seqno : Nat
  ownSignalled : JobId → Bool
  foreignSignalled : Nat → Bool
  syncFile : Int → Option (List Fence)
  log : List Event

def emptySubmit : Submit where
  flags := 0
  timeout := 0
  taskStart := 0
  taskNumber := 0
  taskCounter := 0
  taskObjAddr := 0
  iommuDomainId := 0
  taskBaseAddr := 0
  hwElapseTime := 0
  coreMask := 0
  fenceFd := 0
  subcoreTask _ := ⟨0, 0⟩

def Dev.init : Dev where
  jobs _ := jobAlloc 0 emptySubmit
  jobNum := 0
  todoList _ := []
  slot _ := none
  taskNum _ := 0
  busyTime _ := 0
  softReseting := false
  resetLock := false
  clock := 0
  reg _ _ := 0
  engine _ := .idle
  irqRunning _ := false
  workPending _ := false
  freed _ := false
  seqno := 0
  ownSignalled _ := false
  foreignSignalled _ := false
  syncFile _ := none
  log := []

namespace Dev

variable (s : Dev)

def setJob (j : JobId) (f : Job → Job) : Dev :=
  { s with jobs := Function.update s.jobs j (f (s.jobs j)) }

def record (e : Event) : Dev := { s with log := s.log ++ [e] }

/-- `REG_WRITE` of a register without side effects. -/
def write (c : Nat) (r : Reg) (v : Word) : Dev :=
  { s with reg := Function.update s.reg c (Function.update (s.reg c) r v) }

/-- `REG_WRITE(v, RKNPU_OFFSET_INT_CLEAR)` clears the status bits it names. -/
def writeIntClear (c : Nat) (v : Word) : Dev :=
  s.write c .intStatus (s.reg c .intStatus &&& ~~~v)

/-- The value that is read from `INT_STATUS`. -/
def status (c : Nat) : Word := s.reg c .intStatus

/-- `schedule_work(&job->cleanup_work)` -/
def scheduleWork (j : JobId) : Dev :=
  { s with
    workPending := Function.update s.workPending j true
    log := s.log ++ [.scheduleWork j (s.jobs j).workInit] }

/-- `dma_fence_is_signaled`, for every fence of the `sync_file`. -/
def signalled (f : List Fence) : Bool :=
  f.all fun | .own j => s.ownSignalled j | .foreign n => s.foreignSignalled n

end Dev

/-- `dma_fence_match_context` against the context of the driver. -/
def matchContext (f : List Fence) : Bool :=
  f.all fun | .own _ => true | .foreign _ => false

section Log

variable (l : List Event)

/-- The jobs that `rknpu_job_schedule` has enqueued, in that order. -/
def enqueued : List JobId :=
  l.filterMap fun | .enqueue j => some j | _ => none

def picked (c : Nat) : List JobId :=
  l.filterMap fun | .pickup c' j => if c' = c then some j else none | _ => none

/-- The jobs that `rknpu_job_done` has released from core `c`, in that order. -/
def released (c : Nat) : List JobId :=
  l.filterMap fun | .release c' j => if c' = c then some j else none | _ => none

def started (c : Nat) (j : JobId) : List Nat :=
  l.filterMap fun | .start c' j' k => if c' = c ∧ j' = j then some k else none | _ => none

def completed (c : Nat) (j : JobId) : List Nat :=
  l.filterMap fun | .complete c' j' k => if c' = c ∧ j' = j then some k else none | _ => none

/-- Whether `cleanup_work` of job `j` was initialised, for every time it was scheduled. -/
def handedOver (j : JobId) : List Bool :=
  l.filterMap fun | .scheduleWork j' b => if j' = j then some b else none | _ => none

end Log

end Rknpu

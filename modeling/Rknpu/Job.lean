import Mathlib

namespace Rknpu

abbrev JobId := Nat

/-- A 32-bit register or interrupt mask. -/
abbrev Word := BitVec 32

/-- The value an `int` of the driver holds after an assignment or an operation. -/
def toInt (x : Int) : Int := x.bmod (2 ^ 32)

def eio : Int := 5
def efault : Int := 14
def einval : Int := 22
def enomem : Int := 12
def etimedout : Int := 110

/-- `struct rknpu_task`, without the fields that only user space reads. -/
structure Task where
  intMask : Word
  regcfgAmount : Nat
  regcmdAddr : Nat

structure SubcoreTask where
  taskStart : Nat
  taskNumber : Nat

/-- `struct rknpu_submit`. -/
structure Submit where
  flags : Nat
  timeout : Nat
  taskStart : Nat
  taskNumber : Nat
  taskCounter : Nat
  taskObjAddr : Nat
  iommuDomainId : Nat
  taskBaseAddr : Nat
  hwElapseTime : Int
  coreMask : Nat
  fenceFd : Int
  subcoreTask : Nat → SubcoreTask

namespace Submit

/-- `RKNPU_JOB_PC` -/
def pc (a : Submit) : Bool := a.flags.testBit 0
/-- `RKNPU_JOB_NONBLOCK` -/
def nonblock (a : Submit) : Bool := a.flags.testBit 1
/-- `RKNPU_JOB_PINGPONG` -/
def pingpong (a : Submit) : Bool := a.flags.testBit 2
/-- `RKNPU_JOB_FENCE_IN` -/
def fenceIn (a : Submit) : Bool := a.flags.testBit 3
/-- `RKNPU_JOB_FENCE_OUT` -/
def fenceOut (a : Submit) : Bool := a.flags.testBit 4

end Submit

/-- `struct rknpu_config`, with what every supported chip guarantees about it. -/
structure Config where
  pcDataAmountScale : Nat
  pcTaskNumberBits : Nat
  pcTaskNumberMask : Nat
  pcTaskStatusOffset : Nat
  pcDmaCtrl : Bool
  numIrqs : Nat
  maxSubmitNumber : Nat
  coreMask : Nat
  stateInit : Bool
  numIrqs_pos : 0 < numIrqs
  numIrqs_le : numIrqs ≤ 3
  coreMask_eq : coreMask = 2 ^ numIrqs - 1
  maxSubmitNumber_eq : maxSubmitNumber = 2 ^ pcTaskNumberBits - 1
  pcTaskNumberMask_eq : pcTaskNumberMask = maxSubmitNumber
  pcTaskNumberBits_pos : 0 < pcTaskNumberBits
  pcTaskNumberBits_le : pcTaskNumberBits ≤ 16

def rk356xConfig : Config where
  pcDataAmountScale := 1
  pcTaskNumberBits := 12
  pcTaskNumberMask := 0xfff
  pcTaskStatusOffset := 0x3c
  pcDmaCtrl := false
  numIrqs := 1
  maxSubmitNumber := 2 ^ 12 - 1
  coreMask := 0x1
  stateInit := false
  numIrqs_pos := by decide
  numIrqs_le := by decide
  coreMask_eq := rfl
  maxSubmitNumber_eq := rfl
  pcTaskNumberMask_eq := rfl
  pcTaskNumberBits_pos := by decide
  pcTaskNumberBits_le := by decide

def rk3588Config : Config where
  pcDataAmountScale := 2
  pcTaskNumberBits := 12
  pcTaskNumberMask := 0xfff
  pcTaskStatusOffset := 0x3c
  pcDmaCtrl := false
  numIrqs := 3
  maxSubmitNumber := 2 ^ 12 - 1
  coreMask := 0x7
  stateInit := false
  numIrqs_pos := by decide
  numIrqs_le := by decide
  coreMask_eq := rfl
  maxSubmitNumber_eq := rfl
  pcTaskNumberMask_eq := rfl
  pcTaskNumberBits_pos := by decide
  pcTaskNumberBits_le := by decide

def rk3583Config : Config where
  pcDataAmountScale := 2
  pcTaskNumberBits := 12
  pcTaskNumberMask := 0xfff
  pcTaskStatusOffset := 0x3c
  pcDmaCtrl := false
  numIrqs := 2
  maxSubmitNumber := 2 ^ 12 - 1
  coreMask := 0x3
  stateInit := false
  numIrqs_pos := by decide
  numIrqs_le := by decide
  coreMask_eq := rfl
  maxSubmitNumber_eq := rfl
  pcTaskNumberMask_eq := rfl
  pcTaskNumberBits_pos := by decide
  pcTaskNumberBits_le := by decide

def rv1106Config : Config where
  pcDataAmountScale := 2
  pcTaskNumberBits := 16
  pcTaskNumberMask := 0xffff
  pcTaskStatusOffset := 0x3c
  pcDmaCtrl := false
  numIrqs := 1
  maxSubmitNumber := 2 ^ 16 - 1
  coreMask := 0x1
  stateInit := false
  numIrqs_pos := by decide
  numIrqs_le := by decide
  coreMask_eq := rfl
  maxSubmitNumber_eq := rfl
  pcTaskNumberMask_eq := rfl
  pcTaskNumberBits_pos := by decide
  pcTaskNumberBits_le := by decide

def rk3562Config : Config :=
  { rv1106Config with pcTaskStatusOffset := 0x48, pcDmaCtrl := true }

def rk3576Config : Config where
  pcDataAmountScale := 2
  pcTaskNumberBits := 16
  pcTaskNumberMask := 0xffff
  pcTaskStatusOffset := 0x48
  pcDmaCtrl := true
  numIrqs := 2
  maxSubmitNumber := 2 ^ 16 - 1
  coreMask := 0x3
  stateInit := true
  numIrqs_pos := by decide
  numIrqs_le := by decide
  coreMask_eq := rfl
  maxSubmitNumber_eq := rfl
  pcTaskNumberMask_eq := rfl
  pcTaskNumberBits_pos := by decide
  pcTaskNumberBits_le := by decide

def rv1126bConfig : Config :=
  { rv1106Config with pcTaskStatusOffset := 0x48, pcDmaCtrl := true }

/-- What a run cannot change: the chip, whether resets are bypassed, and the task
buffers by the address of their object, each an array of tasks. -/
structure Platform where
  config : Config
  bypassSoftReset : Bool
  kvAddr : Nat → Int → Task

/-- `rknpu_core_mask` -/
def coreMaskOf : Nat → Nat
  | 0 => 0x1
  | 1 => 0x2
  | 2 => 0x4
  | _ => 0x0

/-- The test `core_mask & rknpu_core_mask(i)`. -/
def inMask (mask c : Nat) : Bool := mask &&& coreMaskOf c != 0

/-- `rknpu_wait_core_index` -/
def waitCoreIndex (mask : Nat) : Nat :=
  if mask = 0x2 then 1 else if mask = 0x4 then 2 else 0

/-- The cores that the `switch` of `rknpu_job_commit` programs, in its order. -/
def commitCores : Nat → List Nat
  | 1 => [0]
  | 2 => [1]
  | 4 => [2]
  | 3 => [0, 1]
  | 7 => [0, 1, 2]
  | _ => []

/-- The state of a `struct list_head` inside a job: as `kzalloc` left it, linked,
self-linked by `list_del_init`, or poisoned by `list_del`. -/
inductive Node where
  | zeroed
  | linked
  | self
  | poisoned
deriving DecidableEq

/-- `struct rknpu_job`; `done` and `async` are bits of `flags`, and `workInit` says
that `INIT_WORK` ran on `cleanup_work`. -/
structure Job where
  args : Submit
  head : Nat → Node
  workInit : Bool
  irqEntry : Nat → Bool
  done : Bool
  async : Bool
  ret : Int
  firstTask : Option Int
  lastTask : Option Int
  intMask : Nat → Word
  intStatus : Nat → Word
  fence : Option Nat
  timestamp : Int
  useCoreNum : Nat
  runCount : Int
  interruptCount : Int
  hwCommitTime : Int
  hwRecoderTime : Int
  hwElapseTime : Int
  submitCount : Nat → Nat

/-- The `use_core_num` of `rknpu_job_alloc`. -/
def maskBits (mask : Nat) : Nat :=
  (mask &&& 1) + ((mask &&& 2) >>> 1) + ((mask &&& 4) >>> 2)

/-- `rknpu_job_alloc` at time `now`; everything else comes zeroed from `kzalloc`. -/
def jobAlloc (now : Int) (args : Submit) : Job where
  args := args
  head _ := .zeroed
  workInit := args.nonblock
  irqEntry _ := false
  done := false
  async := false
  ret := 0
  firstTask := none
  lastTask := none
  intMask _ := 0
  intStatus _ := 0
  fence := none
  timestamp := now
  useCoreNum := maskBits args.coreMask
  runCount := maskBits args.coreMask
  interruptCount := maskBits args.coreMask
  hwCommitTime := 0
  hwRecoderTime := 0
  hwElapseTime := 0
  submitCount _ := 0

namespace Job

variable (cfg : Config)

/-- `rknpu_get_task_number` -/
def getTaskNumber (j : Job) (c : Nat) : Int :=
  if 3 ≤ c then 0
  else if 1 < cfg.numIrqs then
    if j.useCoreNum = 1 ∨ j.useCoreNum = 2 then toInt (j.args.subcoreTask c).taskNumber
    else if j.useCoreNum = 3 then toInt (j.args.subcoreTask (c + 2)).taskNumber
    else toInt j.args.taskNumber
  else toInt j.args.taskNumber

/-- The task range that `rknpu_job_subcore_commit_pc` selects before it cuts a chunk. -/
def taskRange (j : Job) (c : Nat) : Int × Int :=
  if 1 < cfg.numIrqs then
    if j.useCoreNum = 1 ∨ j.useCoreNum = 2 then
      (toInt (j.args.subcoreTask c).taskStart, toInt (j.args.subcoreTask c).taskNumber)
    else if j.useCoreNum = 3 then
      (toInt (j.args.subcoreTask (c + 2)).taskStart, toInt (j.args.subcoreTask (c + 2)).taskNumber)
    else (toInt j.args.taskStart, toInt j.args.taskNumber)
  else (toInt j.args.taskStart, toInt j.args.taskNumber)

/-- How many chunks `rknpu_job_done` waits for. -/
def chunkCount (j : Job) (c : Nat) : Int :=
  (toInt (j.getTaskNumber cfg c + cfg.maxSubmitNumber - 1)).tdiv cfg.maxSubmitNumber

/-- First task of the chunk that is programmed when `k` chunks have completed. -/
def chunkStart (j : Job) (c k : Nat) : Int :=
  toInt ((j.taskRange cfg c).1 + k * cfg.maxSubmitNumber)

/-- Number of tasks of that chunk. -/
def chunkNumber (j : Job) (c k : Nat) : Int :=
  min (toInt ((j.taskRange cfg c).2 - k * cfg.maxSubmitNumber)) cfg.maxSubmitNumber

def chunkEnd (j : Job) (c k : Nat) : Int :=
  toInt (j.chunkStart cfg c k + j.chunkNumber cfg c k - 1)

end Job

end Rknpu

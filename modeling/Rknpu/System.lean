import Rknpu.Interleaving.Machine
import Rknpu.Schedule
import Rknpu.Complete
import Rknpu.Submit
import Rknpu.Recover

namespace Rknpu

open Interleaving

variable (P : Platform)

/-- One statement; `x` is the answer of the kernel function it calls, if it calls one. -/
def exec (a : Stmt) (x : Int) (s : Dev) : Option (Dev × List Stmt) :=
  match a with
  | .fenceIn j => some (fenceIn s j)
  | .fenceWait j f => fenceWait s j f x
  | .fenceOut j => some (fenceOut s j x)
  | .fenceFd j => some (fenceFd s j x)
  | .dispatch j => some (dispatch s j)
  | .submitAsync j => some (submitAsync s j)
  | .submitWait j => some (submitWait s j)
  | .submitResult j => some (submitResult s j)
  | .submitReturn j ret => some (submitReturn s j ret)
  | .jobSchedule j => some (jobSchedule s j)
  | .selectCore j i t c => some (selectCore P s j i t c)
  | .domainGet j => some (domainGet s j x)
  | .enqueue j => some (enqueue P s j)
  | .nextLoop j i => some (nextLoop P s j i)
  | .jobNext c => some (jobNext s c)
  | .pickUp c => some (pickUp s c)
  | .runDec j => some (runDec s j)
  | .jobCommit j => some (jobCommit s j)
  | .subcoreCommit j c => some (subcoreCommit s j c)
  | .commitPc j c => some (commitPc P s j c)
  | .pc g j c k => some (pcStage P s g j c k)
  | .jobDone j ret c => some (jobDone P s j ret c)
  | .releaseCore j ret c => some (releaseCore P s j ret c)
  | .interruptDec j ret c => some (interruptDec s j ret c)
  | .doneWidth j ret c => some (doneWidth s j ret c)
  | .donePut j ret q => some (donePut s j ret q)
  | .doneFlag j ret q => some (doneFlag s j ret q)
  | .doneRet j ret q => some (doneRet s j ret q)
  | .doneFence j q => some (doneFence s j q)
  | .doneAsync j q => some (doneAsync s j q)
  | .wakeUp _ => some (s, [])
  | .irqEnter c => some (irqEnter s c)
  | .irqStatus j c => some (irqStatus s j c)
  | .irqCheck j c st => some (irqCheck s j c st)
  | .irqClear c e => some (irqClear s c e)
  | .irqReturn c => some (irqReturn s c)
  | .waitEvent j n => waitEvent s j n x
  | .waitElapsed j n => some (waitElapsed s j n)
  | .waitLastTask j ret => some (waitLastTask s j ret)
  | .waitUnlink j ret => some (waitUnlink s j ret)
  | .waitStatus j ret => some (waitStatus P s j ret)
  | .waitFlags j => some (waitFlags s j)
  | .waitReturn j ret => some (waitReturn s j ret)
  | .jobAbort j => some (jobAbort s j)
  | .abortCores j => some (abortCores P s j)
  | .abortReset j => some (abortReset s j)
  | .jobFree j => some (jobFree s j)
  | .timeoutClean m i => some (timeoutClean P s m i)
  | .cancel j i => some (cancel P s j i)
  | .cancelWork j i => some (cancelWork s j i)
  | .drain i => some (drain P s i)
  | .drainWork j i => some (drainWork s j i)
  | .softReset => some (softReset P s)
  | .resetMark => some (resetMark s)
  | .resetHw => some (resetHw s x)
  | .resetEnd => some (resetEnd s)
  | .stateInit => some (stateInit P s)
  | .resetUnlock => some (resetUnlock s)

inductive Occurrence where
  /-- `rknpu_submit` is called. -/
  | submit (args : Submit)
  /-- `rknpu_job_schedule` is called for a new job, with an out-fence or without. -/
  | schedule (args : Submit) (fence : Bool)
  /-- `rknpu_job_next` is called. -/
  | next (c : Nat)
  /-- The hardware completes its chunk and `rknpu_job_done` is called for it. -/
  | completion (c : Nat)
  /-- The interrupt line of a core fires, whoever raised it. -/
  | irq (c : Nat)
  /-- The hardware completes its chunk and sets status bits. -/
  | hwComplete (c : Nat) (bits : Word)
  /-- The workqueue runs a `cleanup_work`. -/
  | cleanupWork (j : JobId)
  /-- `rknpu_job_timeout_clean` is called. -/
  | timeoutClean (mask : Nat)
  /-- `rknpu_soft_reset` is called. -/
  | softReset
  | tick (d : Nat)
  | signalForeign (n : Nat)
  /-- A `sync_file` of a foreign fence is opened under a descriptor. -/
  | openFence (fd : Int) (n : Nat)
  /-- Two `sync_file`s are merged under a new descriptor. -/
  | mergeFence (fd fd₁ fd₂ : Int)

/-- A new job, and the thread that works on it. -/
def spawn (s : Dev) (b : Job) (p : JobId → List Stmt) : Dev × List Stmt :=
  ({ s with jobs := Function.update s.jobs s.jobNum b, jobNum := s.jobNum + 1 }, p s.jobNum)

/-- The checks of `rknpu_submit` before it allocates. -/
def accepts (args : Submit) : Bool :=
  args.taskNumber != 0 && args.coreMask ≤ P.config.coreMask

def Dev.serves (s : Dev) (c : Nat) : Option (JobId × Nat) :=
  match s.engine c, s.slot c with
  | .running j k, some j' => if j = j' then some (j, k) else none
  | _, _ => none

/-- The handlers of one interrupt line never run concurrently: `irqRunning`. -/
def occur (e : Occurrence) (s : Dev) : Option (Dev × List Stmt) :=
  match e with
  | .submit args =>
    if accepts P args then some (spawn s (jobAlloc s.clock args) fun j => [.fenceIn j])
    else some (s, [])
  | .schedule args fence =>
    let n := if fence then (s.seqno + 1) % 2 ^ 32 else s.seqno
    let b := { jobAlloc s.clock args with
      async := args.nonblock, fence := if fence then some n else none }
    some (spawn { s with seqno := n } b fun j => [.jobSchedule j])
  | .next c => if c < P.config.numIrqs then some (s, [.jobNext c]) else none
  | .completion c =>
    (s.serves c).map fun r =>
      ({ s.setJob r.1 fun b => { b with irqEntry := Function.update b.irqEntry c true } with
         engine := Function.update s.engine c (.complete r.1 r.2)
         log := s.log ++ [.complete c r.1 r.2] }, [.jobDone r.1 0 c])
  | .irq c =>
    if c < P.config.numIrqs ∧ s.irqRunning c = false then
      some ({ s with irqRunning := Function.update s.irqRunning c true }, [.irqEnter c])
    else none
  | .hwComplete c bits =>
    match s.engine c with
    | .running j k =>
      if bits ≠ 0 ∧ bits &&& ~~~intClearAll = 0 then
        some ({ s.write c .intStatus (s.status c ||| bits) with
                engine := Function.update s.engine c (.complete j k)
                log := s.log ++ [.complete c j k] }, [])
      else none
    | _ => none
  | .cleanupWork j =>
    if s.workPending j then
      some ({ s with workPending := Function.update s.workPending j false }, [.jobFree j])
    else none
  | .timeoutClean mask => some (s, [.timeoutClean mask 0])
  | .softReset => some (s, [.softReset])
  | .tick d => some ({ s with clock := s.clock + d }, [])
  | .signalForeign n =>
    some ({ s with foreignSignalled := Function.update s.foreignSignalled n true }, [])
  | .openFence fd n =>
    some ({ s with syncFile := Function.update s.syncFile fd (some [.foreign n]) }, [])
  | .mergeFence fd fd₁ fd₂ =>
    match s.syncFile fd₁, s.syncFile fd₂ with
    | some f₁, some f₂ =>
      some ({ s with syncFile := Function.update s.syncFile fd (some (f₁ ++ f₂)) }, [])
    | _, _ => none

def driver : Machine Dev Stmt Int Occurrence := ⟨exec P, occur P⟩

def board (cfg : Config) : Platform where
  config := cfg
  bypassSoftReset := false
  kvAddr _ _ := ⟨0x300, 0, 0⟩

def oneTask (flags coreMask : Nat) : Submit :=
  { emptySubmit with
    flags := flags
    timeout := 1000
    taskNumber := 1
    taskObjAddr := 1
    coreMask := coreMask
    subcoreTask := fun _ => ⟨0, 1⟩ }

end Rknpu

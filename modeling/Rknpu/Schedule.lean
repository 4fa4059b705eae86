import Rknpu.Stmt

namespace Rknpu

variable (P : Platform)

/-- `rknpu_job_schedule`: the test for `RKNPU_CORE_AUTO_MASK`, where
`rknpu_schedule_core_index` starts with the load of core 0. -/
def jobSchedule (s : Dev) (j : JobId) : Dev × List Stmt :=
  if (s.jobs j).args.coreMask = 0 then (s, [.selectCore j 1 (toInt (s.taskNum 0)) 0])
  else (s, [.domainGet j])

def resolveCore (j : Job) (c : Nat) : Job :=
  { j with
    args := { j.args with coreMask := coreMaskOf c }
    useCoreNum := 1
    runCount := 1
    interruptCount := 1 }

/-- One turn of the loop of `rknpu_schedule_core_index`, and what
`rknpu_job_schedule` does with its result. -/
def selectCore (s : Dev) (j : JobId) (i : Nat) (taskNum : Int) (coreIndex : Nat) :
    Dev × List Stmt :=
  if i < P.config.numIrqs then
    if s.taskNum i < taskNum then (s, [.selectCore j (i + 1) (toInt (s.taskNum i)) i])
    else (s, [.selectCore j (i + 1) taskNum coreIndex])
  else (s.setJob j (resolveCore · coreIndex), [.domainGet j])

/-- `rknpu_iommu_domain_get_and_switch` returned `x`. -/
def domainGet (s : Dev) (j : JobId) (x : Int) : Dev × List Stmt :=
  if x = 0 then (s.record (.domainGet j), [.enqueue j])
  else (s.setJob j fun b => { b with ret := -einval }, [])

/-- The section of `rknpu_job_schedule` under `irq_lock`: the job is linked at the
tail of the list of every core of its mask. -/
def enqueue (s : Dev) (j : JobId) : Dev × List Stmt :=
  let b := s.jobs j
  let on c := c < P.config.numIrqs && inMask b.args.coreMask c
  let s := s.setJob j fun b => { b with head := fun c => if on c then .linked else b.head c }
  ({ s with
     todoList := fun c => if on c then s.todoList c ++ [j] else s.todoList c
     taskNum := fun c => if on c then s.taskNum c + b.getTaskNumber P.config c else s.taskNum c
     log := s.log ++ [.enqueue j] }, [.nextLoop j 0])

/-- The last loop of `rknpu_job_schedule`. -/
def nextLoop (s : Dev) (j : JobId) (i : Nat) : Dev × List Stmt :=
  if i < P.config.numIrqs then
    if inMask (s.jobs j).args.coreMask i then (s, [.jobNext i, .nextLoop j (i + 1)])
    else (s, [.nextLoop j (i + 1)])
  else (s, [])

/-- `rknpu_job_next` -/
def jobNext (s : Dev) (c : Nat) : Dev × List Stmt :=
  if s.softReseting then (s, []) else (s, [.pickUp c])

/-- The section of `rknpu_job_next` under `irq_lock`. -/
def pickUp (s : Dev) (c : Nat) : Dev × List Stmt :=
  match s.slot c, s.todoList c with
  | none, j :: rest =>
    let s := s.setJob j fun b =>
      { b with
        head := Function.update b.head c .self
        hwCommitTime := s.clock
        hwRecoderTime := s.clock }
    ({ s with
       todoList := Function.update s.todoList c rest
       slot := Function.update s.slot c (some j)
       log := s.log ++ [.pickup c j] }, [.runDec j])
  | _, _ => (s, [])

/-- `atomic_dec_and_test(&job->run_count)` -/
def runDec (s : Dev) (j : JobId) : Dev × List Stmt :=
  (s.setJob j fun b => { b with runCount := b.runCount - 1 },
    if (s.jobs j).runCount = 1 then [.jobCommit j] else [])

/-- `rknpu_job_commit` -/
def jobCommit (s : Dev) (j : JobId) : Dev × List Stmt :=
  (s, (commitCores (s.jobs j).args.coreMask).map (.subcoreCommit j ·))

/-- `rknpu_job_subcore_commit` switches the core to slave mode before it checks the flag. -/
def subcoreCommit (s : Dev) (j : JobId) (c : Nat) : Dev × List Stmt :=
  let s := s.write c .pcDataAddr 1
  if (s.jobs j).args.pc then (s, [.commitPc j c])
  else (s.setJob j fun b => { b with ret := -einval }, [])

/-- The start of `rknpu_job_subcore_commit_pc`, where `submit_count` is read. -/
def commitPc (s : Dev) (j : JobId) (c : Nat) : Dev × List Stmt :=
  let b := s.jobs j
  if b.args.taskObjAddr = 0 then (s.setJob j fun b => { b with ret := -einval }, [])
  else
    let v : Word := BitVec.ofNat 32 (0xe + 0x10000000 * c)
    (if 1 < P.config.numIrqs then (s.write c .offset1004 v).write c .offset3004 v else s,
      [.pc .pcDataAddr j c (b.submitCount c)])

/-- The word that is written to `PC_TASK_CONTROL`. -/
def taskControl (b : Job) (c k : Nat) : Word :=
  BitVec.ofNat 32 ((if b.args.pingpong then 0x7 else 0x6) <<< P.config.pcTaskNumberBits) |||
    BitVec.ofInt 32 (b.chunkNumber P.config c k)

/-- The register writes and assignments that start chunk `k`. -/
def pcStage (s : Dev) (g : PcStage) (j : JobId) (c k : Nat) : Dev × List Stmt :=
  let b := s.jobs j
  let first := b.chunkStart P.config c k
  let last := b.chunkEnd P.config c k
  let task := P.kvAddr b.args.taskObjAddr
  let scale := P.config.pcDataAmountScale
  match g with
  | .pcDataAddr =>
    (s.write c .pcDataAddr (BitVec.ofNat 32 (task first).regcmdAddr), [.pc .pcDataAmount j c k])
  | .pcDataAmount =>
    (s.write c .pcDataAmount
      (BitVec.ofNat 32 (((task first).regcfgAmount + 4 + scale - 1) / scale - 1)),
      [.pc .pcIntMask j c k])
  | .pcIntMask => (s.write c .intMask (task last).intMask, [.pc .pcIntClear j c k])
  | .pcIntClear => (s.writeIntClear c (task first).intMask, [.pc .pcTaskControl j c k])
  | .pcTaskControl => (s.write c .pcTaskControl (taskControl P b c k), [.pc .pcDmaBaseAddr j c k])
  | .pcDmaBaseAddr =>
    (s.write c .pcDmaBaseAddr (BitVec.ofNat 32 b.args.taskBaseAddr), [.pc .firstTask j c k])
  | .firstTask => (s.setJob j fun b => { b with firstTask := some first }, [.pc .lastTask j c k])
  | .lastTask => (s.setJob j fun b => { b with lastTask := some last }, [.pc .jobIntMask j c k])
  | .jobIntMask =>
    (s.setJob j fun b => { b with intMask := Function.update b.intMask c (task last).intMask },
      [.pc .pcOpEn j c k])
  | .pcOpEn =>
    ({ (s.write c .pcOpEn 0) with engine := Function.update s.engine c (.running j k)
                                  log := s.log ++ [.start c j k] }, [])

end Rknpu

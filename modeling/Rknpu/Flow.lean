import Rknpu.System

namespace Rknpu

/-- The control flow of the driver: which statements may take the place of one. -/
inductive Flow : Stmt → List Stmt → Prop
  | fenceInInvalid (j : JobId) : Flow (.fenceIn j) [.jobFree j, .submitReturn j (-einval)]
  | fenceInForeign (j : JobId) (f : List Fence) : Flow (.fenceIn j) [.fenceWait j f]
  | fenceIn (j : JobId) : Flow (.fenceIn j) [.fenceOut j]
  | fenceWaitError (j : JobId) (f : List Fence) (r : Int) :
    Flow (.fenceWait j f) [.jobFree j, .submitReturn j r]
  | fenceWait (j : JobId) (f : List Fence) : Flow (.fenceWait j f) [.fenceOut j]
  | fenceOutError (j : JobId) : Flow (.fenceOut j) [.jobFree j, .submitReturn j (-enomem)]
  | fenceOut (j : JobId) : Flow (.fenceOut j) [.fenceFd j]
  | fenceOutNone (j : JobId) : Flow (.fenceOut j) [.dispatch j]
  | fenceFd (j : JobId) : Flow (.fenceFd j) [.dispatch j]
  | dispatchAsync (j : JobId) (m : Nat) :
    Flow (.dispatch j) [.timeoutClean m 0, .jobSchedule j, .submitAsync j]
  | dispatch (j : JobId) : Flow (.dispatch j) [.jobSchedule j, .submitWait j]
  | submitAsyncError (j : JobId) (r : Int) : Flow (.submitAsync j) [.jobAbort j, .submitReturn j r]
  | submitAsync (j : JobId) : Flow (.submitAsync j) [.submitReturn j 0]
  | submitWaitPc (j : JobId) : Flow (.submitWait j) [.waitEvent j 0]
  | submitWait (j : JobId) : Flow (.submitWait j) [.submitResult j]
  | submitResult (j : JobId) : Flow (.submitResult j) [.jobFree j, .submitReturn j 0]
  | submitResultError (j : JobId) (r : Int) :
    Flow (.submitResult j) [.jobAbort j, .submitReturn j r]
  | submitReturn (j : JobId) (r : Int) : Flow (.submitReturn j r) []
  | jobScheduleAuto (j : JobId) (t : Int) : Flow (.jobSchedule j) [.selectCore j 1 t 0]
  | jobSchedule (j : JobId) : Flow (.jobSchedule j) [.domainGet j]
  | selectCore (j : JobId) (i : Nat) (t t' : Int) (c c' : Nat) :
    Flow (.selectCore j i t c) [.selectCore j (i + 1) t' c']
  | selectCoreEnd (j : JobId) (i : Nat) (t : Int) (c : Nat) : Flow (.selectCore j i t c) [.domainGet j]
  | domainGet (j : JobId) : Flow (.domainGet j) [.enqueue j]
  | domainGetError (j : JobId) : Flow (.domainGet j) []
  | enqueue (j : JobId) : Flow (.enqueue j) [.nextLoop j 0]
  | nextLoopCore (j : JobId) (i : Nat) : Flow (.nextLoop j i) [.jobNext i, .nextLoop j (i + 1)]
  | nextLoop (j : JobId) (i : Nat) : Flow (.nextLoop j i) [.nextLoop j (i + 1)]
  | nextLoopEnd (j : JobId) (i : Nat) : Flow (.nextLoop j i) []
  | jobNext (c : Nat) : Flow (.jobNext c) [.pickUp c]
  | jobNextReset (c : Nat) : Flow (.jobNext c) []
  | pickUp (c : Nat) (j : JobId) : Flow (.pickUp c) [.runDec j]
  | pickUpNone (c : Nat) : Flow (.pickUp c) []
  | runDec (j : JobId) : Flow (.runDec j) [.jobCommit j]
  | runDecPeer (j : JobId) : Flow (.runDec j) []
  | jobCommit (j : JobId) (l : List Nat) : Flow (.jobCommit j) (l.map (.subcoreCommit j ·))
  | subcoreCommit (j : JobId) (c : Nat) : Flow (.subcoreCommit j c) [.commitPc j c]
  | subcoreCommitError (j : JobId) (c : Nat) : Flow (.subcoreCommit j c) []
  | commitPc (j : JobId) (c k : Nat) : Flow (.commitPc j c) [.pc .pcDataAddr j c k]
  | commitPcError (j : JobId) (c : Nat) : Flow (.commitPc j c) []
  | pc (g g' : PcStage) (j : JobId) (c k : Nat) : Flow (.pc g j c k) [.pc g' j c k]
  | pcOpEn (j : JobId) (c k : Nat) : Flow (.pc .pcOpEn j c k) []
  | jobDoneNext (j : JobId) (r : Int) (c : Nat) : Flow (.jobDone j r c) [.subcoreCommit j c]
  | jobDone (j : JobId) (r : Int) (c : Nat) : Flow (.jobDone j r c) [.releaseCore j r c]
  | releaseCore (j : JobId) (r : Int) (c : Nat) :
    Flow (.releaseCore j r c) [.interruptDec j r c, .jobNext c]
  | interruptDecLast (j : JobId) (r : Int) (c : Nat) : Flow (.interruptDec j r c) [.doneWidth j r c]
  | interruptDec (j : JobId) (r : Int) (c : Nat) : Flow (.interruptDec j r c) []
  | doneWidth (j : JobId) (r : Int) (c q : Nat) : Flow (.doneWidth j r c) [.donePut j r q]
  | donePut (j : JobId) (r : Int) (q : Nat) : Flow (.donePut j r q) [.doneFlag j r q]
  | doneFlag (j : JobId) (r : Int) (q : Nat) : Flow (.doneFlag j r q) [.doneRet j r q]
  | doneRet (j : JobId) (r : Int) (q : Nat) : Flow (.doneRet j r q) [.doneFence j q]
  | doneFence (j : JobId) (q : Nat) : Flow (.doneFence j q) [.doneAsync j q]
  | doneAsync (j : JobId) (q : Nat) : Flow (.doneAsync j q) [.wakeUp q]
  | wakeUp (q : Nat) : Flow (.wakeUp q) []
  | irqEnterNone (c : Nat) : Flow (.irqEnter c) [.irqClear c .noJob]
  | irqEnter (c : Nat) (j : JobId) : Flow (.irqEnter c) [.irqStatus j c]
  | irqStatus (j : JobId) (c : Nat) (w : Word) : Flow (.irqStatus j c) [.irqCheck j c w]
  | irqCheckInvalid (j : JobId) (c : Nat) (w : Word) : Flow (.irqCheck j c w) [.irqClear c .invalid]
  | irqCheck (j : JobId) (c : Nat) (w : Word) : Flow (.irqCheck j c w) [.irqClear c (.done j)]
  | irqClearNone (c : Nat) : Flow (.irqClear c .noJob) [.jobNext c, .irqReturn c]
  | irqClearInvalid (c : Nat) : Flow (.irqClear c .invalid) [.irqReturn c]
  | irqClear (c : Nat) (j : JobId) : Flow (.irqClear c (.done j)) [.jobDone j 0 c, .irqReturn c]
  | irqReturn (c : Nat) : Flow (.irqReturn c) []
  | waitEvent (j : JobId) (n : Nat) (r : Int) : Flow (.waitEvent j n) [.waitLastTask j r]
  | waitEventTimeout (j : JobId) (n : Nat) : Flow (.waitEvent j n) [.waitElapsed j (n + 1)]
  | waitElapsedAgain (j : JobId) (n : Nat) : Flow (.waitElapsed j n) [.waitEvent j n]
  | waitElapsed (j : JobId) (n : Nat) : Flow (.waitElapsed j n) [.waitLastTask j 0]
  | waitLastTaskNone (j : JobId) (r : Int) : Flow (.waitLastTask j r) [.waitUnlink j r]
  | waitLastTask (j : JobId) (r : Int) : Flow (.waitLastTask j r) [.waitStatus j r]
  | waitUnlink (j : JobId) (r : Int) :
    Flow (.waitUnlink j r) [.waitReturn j (if r < 0 then r else -einval)]
  | waitStatusTimeout (j : JobId) (r : Int) :
    Flow (.waitStatus j r) [.waitReturn j (if r < 0 then r else -etimedout)]
  | waitStatus (j : JobId) (r : Int) : Flow (.waitStatus j r) [.waitFlags j]
  | waitFlagsError (j : JobId) : Flow (.waitFlags j) [.waitReturn j (-einval)]
  | waitFlags (j : JobId) : Flow (.waitFlags j) [.waitReturn j 0]
  | waitReturn (j : JobId) (r : Int) : Flow (.waitReturn j r) [.submitResult j]
  | jobAbort (j : JobId) : Flow (.jobAbort j) [.abortCores j]
  | abortCores (j : JobId) : Flow (.abortCores j) [.abortReset j]
  | abortResetTimeout (j : JobId) : Flow (.abortReset j) [.softReset, .jobFree j]
  | abortReset (j : JobId) : Flow (.abortReset j) [.jobFree j]
  | jobFree (j : JobId) : Flow (.jobFree j) []
  | timeoutCleanJob (m i : Nat) (j : JobId) :
    Flow (.timeoutClean m i) [.softReset, .cancel j i, .timeoutClean m (i + 1)]
  | timeoutClean (m i : Nat) : Flow (.timeoutClean m i) [.timeoutClean m (i + 1)]
  | timeoutCleanEnd (m i : Nat) : Flow (.timeoutClean m i) []
  | cancel (j : JobId) (i : Nat) : Flow (.cancel j i) [.cancelWork j i]
  | cancelWork (j : JobId) (i : Nat) : Flow (.cancelWork j i) [.drain i]
  | drain (i : Nat) (j : JobId) : Flow (.drain i) [.drainWork j i]
  | drainEnd (i : Nat) : Flow (.drain i) []
  | drainWork (j : JobId) (i : Nat) : Flow (.drainWork j i) [.drain i]
  | softReset : Flow .softReset [.resetMark]
  | softResetBusy : Flow .softReset []
  | resetMark : Flow .resetMark [.resetHw]
  | resetHw : Flow .resetHw [.resetEnd]
  | resetHwError : Flow .resetHw []
  | resetEnd : Flow .resetEnd [.stateInit]
  | stateInit : Flow .stateInit [.resetUnlock]
  | resetUnlock : Flow .resetUnlock []

theorem exec_flow {P : Platform} {s s' : Dev} {a : Stmt} {x : Int} {p : List Stmt}
    (h : exec P a x s = some (s', p)) : Flow a p := by
  cases a <;>
    simp only [exec, fenceIn, fenceWait, fenceOut, fenceFd, dispatch, submitAsync, submitWait,
      submitResult, submitReturn, jobSchedule, selectCore, domainGet, enqueue, nextLoop, jobNext,
      pickUp, runDec, jobCommit, subcoreCommit, commitPc, jobDone, releaseCore, interruptDec,
      doneWidth, donePut, doneFlag, doneRet, doneFence, doneAsync, irqEnter, irqStatus, irqCheck,
      irqClear, irqReturn, waitEvent, waitElapsed, waitLastTask, waitUnlink, waitStatus, waitFlags,
      waitReturn, jobAbort, abortCores, abortReset, jobFree, timeoutClean, cancel, cancelWork,
      drain, drainWork, softReset, resetMark, resetHw, resetEnd,
      stateInit, resetUnlock, Option.some.injEq] at h
  case pc g j c k => cases g <;> cases h <;> constructor
  case irqClear c e => cases h; cases e <;> constructor
  case waitUnlink j r => cases h; constructor
  case waitStatus j r => split at h <;> cases h <;> constructor
  all_goals
    repeat' split at h
    all_goals
      cases h
      try (repeat' split)
      all_goals constructor

inductive Arrival (s s' : Dev) : List Stmt → Prop
  | none : Arrival s s' []
  | submit : s'.jobNum = s.jobNum + 1 → Arrival s s' [.fenceIn s.jobNum]
  | schedule : s'.jobNum = s.jobNum + 1 → Arrival s s' [.jobSchedule s.jobNum]
  | next (c : Nat) : Arrival s s' [.jobNext c]
  | completion (j : JobId) (c : Nat) : Arrival s s' [.jobDone j 0 c]
  | irq (c : Nat) : Arrival s s' [.irqEnter c]
  | cleanupWork (j : JobId) : s.workPending j → Arrival s s' [.jobFree j]
  | timeoutClean (m : Nat) : Arrival s s' [.timeoutClean m 0]
  | softReset : Arrival s s' [.softReset]

theorem occur_flow {P : Platform} {s s' : Dev} {e : Occurrence} {p : List Stmt}
    (h : occur P e s = some (s', p)) : Arrival s s' p := by
  cases e with
  | completion c =>
    obtain ⟨r, -, hr⟩ := Option.map_eq_some_iff.mp h
    cases hr
    exact .completion _ _
  | _ =>
    simp only [occur, spawn] at h
    repeat' split at h
    all_goals
      cases h <;> constructor <;> first | rfl | assumption

/-- The first statements of the functions that are called from outside. -/
def Stmt.entry : Stmt → Bool
  | .fenceIn _ | .jobSchedule _ | .jobNext _ | .jobDone _ _ _ | .irqEnter _ | .jobFree _
  | .timeoutClean _ _ | .softReset => true
  | _ => false

theorem pending_occur {P : Platform} {s s' : Dev} {R : Multiset Stmt} {e : Occurrence}
    {p : List Stmt} (h : occur P e s = some (s', p)) {b : Stmt} (hb : b ∈ (p : Multiset Stmt) + R)
    (he : b.entry = false) : b ∈ R := by
  refine (Multiset.mem_add.mp hb).resolve_left fun hm => ?_
  cases occur_flow h <;> simp_all [Stmt.entry]

end Rknpu

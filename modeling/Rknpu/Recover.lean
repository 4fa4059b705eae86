import Rknpu.Stmt

namespace Rknpu

variable (P : Platform)

/-- `ktime_us_delta(ktime_get(), job->timestamp) >= job->args->timeout` -/
def overdue (now : Int) (b : Job) : Bool := b.args.timeout ≤ (now - b.timestamp).tdiv 1000

/-- One turn of the outer loop of `rknpu_job_timeout_clean`. -/
def timeoutClean (s : Dev) (mask i : Nat) : Dev × List Stmt :=
  if i < P.config.numIrqs then
    if inMask mask i then
      match s.slot i with
      | none => (s, [.timeoutClean mask (i + 1)])
      | some j =>
        if overdue s.clock (s.jobs j) then
          (s, [.softReset, .cancel j i, .timeoutClean mask (i + 1)])
        else (s, [.timeoutClean mask (i + 1)])
    else (s, [.timeoutClean mask (i + 1)])
  else (s, [])

/-- `if (!list_empty(&job->head[j])) list_del_init(&job->head[j])` on one core; the
history notes the state in which each node is accessed. -/
def unlinkEvents (b : Job) (j : JobId) (c : Nat) : List Event :=
  if b.head c = .self then [.listEmpty c j .self]
  else [.listEmpty c j (b.head c), .listDel c j (b.head c)]

/-- The same on every core. A node that is not self-linked counts as non-empty. -/
def unlinkAll (s : Dev) (j : JobId) : Dev :=
  let b := s.jobs j
  let on c := decide (c < P.config.numIrqs) && decide (b.head c ≠ .self)
  let s := s.setJob j fun b => { b with head := fun c => if on c then .self else b.head c }
  { s with
    todoList := fun c => if on c then (s.todoList c).erase j else s.todoList c
    log := s.log ++ (List.range P.config.numIrqs).flatMap (unlinkEvents b j) }

/-- The first section of `rknpu_job_timeout_clean` under `irq_lock`. -/
def cancel (s : Dev) (j : JobId) (i : Nat) : Dev × List Stmt :=
  let s := unlinkAll P s j
  ({ s with
     slot := fun c => if c < P.config.numIrqs ∧ s.slot c = some j then none else s.slot c },
    [.cancelWork j i])

def cancelWork (s : Dev) (j : JobId) (i : Nat) : Dev × List Stmt :=
  (s.scheduleWork j, [.drain i])

/-- The section of the drain loop under `irq_lock`. -/
def drain (s : Dev) (i : Nat) : Dev × List Stmt :=
  match s.todoList i with
  | [] => (s, [])
  | j :: _ => (unlinkAll P s j, [.drainWork j i])

def drainWork (s : Dev) (j : JobId) (i : Nat) : Dev × List Stmt :=
  (s.scheduleWork j, [.drain i])

/-- `rknpu_soft_reset`, up to `mutex_trylock`. -/
def softReset (s : Dev) : Dev × List Stmt :=
  if P.bypassSoftReset || s.resetLock then (s, [])
  else ({ s with resetLock := true }, [.resetMark])

def resetMark (s : Dev) : Dev × List Stmt :=
  ({ s with softReseting := true }, [.resetHw])

/-- The reset lines were asserted and released with result `x`; on success every core
stops what it was doing, and on failure the function returns from here. -/
def resetHw (s : Dev) (x : Int) : Dev × List Stmt :=
  if x = 0 then
    ({ s with
       engine := fun _ => .idle
       reg := fun c => Function.update (s.reg c) .intStatus 0 }, [.resetEnd])
  else ({ s with resetLock := false }, [])

def resetEnd (s : Dev) : Dev × List Stmt :=
  ({ s with softReseting := false }, [.stateInit])

/-- `rk3576_state_init`, which puts core 0 into slave mode. -/
def stateInit (s : Dev) : Dev × List Stmt :=
  (if P.config.stateInit then (s.write 0 .pcDataAddr 1).write 0 .offset1004 0x1e else s,
    [.resetUnlock])

def resetUnlock (s : Dev) : Dev × List Stmt :=
  ({ s with resetLock := false }, [])

end Rknpu

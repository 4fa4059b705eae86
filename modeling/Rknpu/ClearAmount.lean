import Rknpu.Gang
import Rknpu.Slots
import Rknpu.Fields
import Rknpu.Flow

namespace Rknpu

open Interleaving

namespace ClearAmount

variable (P : Platform)

/-- The driver and `irq_lock`, as `rknpu_clear_rw_amount` holds it. -/
structure State where
  dev : Dev
  irqLock : Bool

/-- Statements of the driver, and those of `rknpu_clear_rw_amount` on a device with
`pc_dma_ctrl`; `v` is its `pc_data_addr`. -/
inductive Stmt where
  | drv (a : Rknpu.Stmt)
  | clearLock
  | clearRead
  | clearSlave (v : Word)
  | clearAmount (v : Word)
  | clearRestore (v : Word)
  | clearUnlock
deriving DecidableEq

def State.init : State := ⟨Dev.init, false⟩

/-- The statements that take `irq_lock`. -/
def irqLocked : Rknpu.Stmt → Bool
  | .enqueue _ | .pickUp _ | .releaseCore _ _ _ | .irqEnter _ | .waitElapsed _ _ | .waitUnlink _ _
  | .abortCores _ | .cancel _ _ | .drain _ => true
  | .subcoreCommit _ _ | .pc .pcDataAddr _ _ _ => P.config.pcDmaCtrl
  | _ => false

def exec (a : Stmt) (x : Int) (s : State) : Option (State × List Stmt) :=
  match a with
  | .drv a =>
    if irqLocked P a && s.irqLock then none
    else (Rknpu.exec P a x s.dev).map fun r => ({ s with dev := r.1 }, r.2.map .drv)
  | .clearLock => if s.irqLock then none else some ({ s with irqLock := true }, [.clearRead])
  | .clearRead => some (s, [.clearSlave (s.dev.reg 0 .pcDataAddr)])
  | .clearSlave v => some ({ s with dev := s.dev.write 0 .pcDataAddr 1 }, [.clearAmount v])
  | .clearAmount v => some (s, [.clearRestore v])
  | .clearRestore v => some ({ s with dev := s.dev.write 0 .pcDataAddr v }, [.clearUnlock])
  | .clearUnlock => some ({ s with irqLock := false }, [])

inductive Occurrence where
  | drv (e : Rknpu.Occurrence)
  /-- `rknpu_clear_rw_amount` -/
  | clear

def occur (e : Occurrence) (s : State) : Option (State × List Stmt) :=
  match e with
  | .drv e => (Rknpu.occur P e s.dev).map fun r => ({ s with dev := r.1 }, r.2.map .drv)
  | .clear => some (s, if P.config.pcDmaCtrl then [.clearLock] else [])

def machine : Machine State Stmt Int Occurrence := ⟨exec P, occur P⟩

def Stmt.driver : Stmt → Option Rknpu.Stmt
  | .drv a => some a
  | _ => none

def commitCalls : Guard State Stmt Int Occurrence :=
  .events fun
    | .drv (.schedule _ _) | .drv (.next _) | .drv (.completion _) | .drv .softReset
    | .drv (.tick _) | .clear => True
    | _ => False

/-- The `regcmd_addr` of the first task of chunk `k` of job `j` on core `c`. -/
def regcmdAddr (s : Dev) (j : JobId) (c k : Nat) : Word :=
  BitVec.ofNat 32 (P.kvAddr (s.jobs j).args.taskObjAddr
    ((s.jobs j).chunkStart P.config c k)).regcmdAddr

/-- A commit of core 0 that has written `PC_DATA_ADDR`. -/
def Stmt.addressed : Stmt → Bool
  | .drv (.pc .pcDataAddr _ _ _) => false
  | .drv (.pc _ _ c _) => c == 0
  | _ => false

/-- `rknpu_clear_rw_amount` has put core 0 into slave mode and not yet restored its address. -/
def Stmt.clearing : Stmt → Bool
  | .clearAmount _ | .clearRestore _ => true
  | _ => false

/-- No state initialisation comes between the write of `PC_DATA_ADDR` and that of `PC_OP_EN`
on core 0, unless a counter clear has saved the address, and no start of core 0 comes into a
counter clear. -/
def addressGuard : Guard State Stmt Int Occurrence where
  run _ B a _ :=
    (a = .drv .stateInit → (∀ b ∈ B, b.addressed = false) ∨ ∃ b ∈ B, b.clearing) ∧
    (∀ j k, a = .drv (.pc .pcOpEn j 0 k) → ∀ b ∈ B, b.clearing = false)
  env _ _ _ := True

/-- Between taking `irq_lock` and giving it back. -/
def clearW : Stmt → Nat
  | .clearRead | .clearSlave _ | .clearAmount _ | .clearRestore _ | .clearUnlock => 1
  | _ => 0

/-- The value that `rknpu_clear_rw_amount` is going to restore. -/
def Stmt.saves : Stmt → Option Word
  | .clearSlave v | .clearAmount v | .clearRestore v => some v
  | _ => none

/-- A commit that is past its write of `PC_DATA_ADDR` finds there what it has written, or
`rknpu_clear_rw_amount` has saved it. -/
structure Addressed (s : State) (B : Multiset Stmt) : Prop where
  reg : ∀ g j c k, .drv (.pc g j c k) ∈ B → g ≠ .pcDataAddr →
    (c = 0 → ∀ b ∈ B, b.clearing = false) →
      s.dev.reg c .pcDataAddr = regcmdAddr P s.dev j c k
  saved : ∀ g j k, .drv (.pc g j 0 k) ∈ B → g ≠ .pcDataAddr →
    ∀ b ∈ B, ∀ v, b.saves = some v → v = regcmdAddr P s.dev j 0 k

structure Base (s : State) (B : Multiset Stmt) : Prop where
  queued : Queued P s.dev (B.filterMap Stmt.driver)
  counts : Counts s.dev (B.filterMap Stmt.driver)
  slotted : Slotted s.dev
  lock : load clearW B = if s.irqLock then 1 else 0

section Driver

variable {P} {s s' : Dev} {a : Rknpu.Stmt} {x : Int} {p : List Rknpu.Stmt} {j : JobId} {c k : Nat}
  {R : Multiset Rknpu.Stmt}

/-- The statements that write `PC_DATA_ADDR` of core `c`. -/
def setsAddr (c : Nat) : Rknpu.Stmt → Bool
  | .subcoreCommit _ d | .pc .pcDataAddr _ d _ => d == c
  | .stateInit => c == 0
  | _ => false

theorem reg_write {d : Nat} {r r' : Reg} (v : Word) (h : d ≠ c ∨ r ≠ r') :
    (s.write d r v).reg c r' = s.reg c r' := by
  simp only [Dev.write, Function.update_apply]
  split
  · rename_i hc
    subst hc
    exact Function.update_of_ne (Ne.symm (h.resolve_left (by simp))) _ _
  · rfl

theorem reg_write_self (v : Word) : (s.write c .pcDataAddr v).reg c .pcDataAddr = v := by
  simp [Dev.write]

theorem exec_reg (ha : setsAddr c a = false) (h : Rknpu.exec P a x s = some (s', p)) :
    s'.reg c .pcDataAddr = s.reg c .pcDataAddr := by
  cases a <;>
    simp only [Rknpu.exec, fenceIn, fenceWait, fenceOut, fenceFd, dispatch, submitAsync, submitWait,
      submitResult, submitReturn, jobSchedule, selectCore, domainGet, enqueue, nextLoop, jobNext,
      pickUp, runDec, jobCommit, subcoreCommit, commitPc, jobDone, releaseCore, interruptDec,
      doneWidth, donePut, doneFlag, doneRet, doneFence, doneAsync, irqEnter, irqStatus, irqCheck,
      irqClear, irqReturn, waitEvent, waitElapsed, waitLastTask, waitUnlink, waitStatus, waitFlags,
      waitReturn, jobAbort, abortCores, abortReset, jobFree, timeoutClean, cancel, cancelWork,
      drain, drainWork, softReset, resetMark, resetHw, resetEnd,
      stateInit, resetUnlock, Option.some.injEq] at h
  case subcoreCommit i d =>
    have hd : d ≠ c := by simpa [setsAddr] using ha
    split at h <;> cases h <;> exact reg_write _ (.inl hd)
  case commitPc i d =>
    split at h <;> cases h
    · rfl
    · split
      · rw [reg_write _ (.inr (by decide)), reg_write _ (.inr (by decide))]
      · rfl
  case pc g i d n =>
    cases g <;> cases h
    case pcDataAddr => exact reg_write _ (.inl (by simpa [setsAddr] using ha))
    all_goals first | rfl | exact reg_write _ (.inr (by decide))
  case resetHw =>
    split at h <;> cases h
    · simp
    · rfl
  case stateInit =>
    have hd : 0 ≠ c := by
      rintro rfl
      cases ha
    cases h
    split
    · rw [reg_write _ (.inl hd), reg_write _ (.inl hd)]
    · rfl
  case irqClear d e =>
    cases h
    exact reg_write _ (.inr (by decide))
  all_goals
    repeat' split at h
    all_goals
      cases h
      first
        | done
        | rfl

theorem exec_pc {g : PcStage} (hg : g ≠ .pcDataAddr) (hp : .pc g j c k ∈ p)
    (h : Rknpu.exec P a x s = some (s', p)) : ∃ g', a = .pc g' j c k := by
  cases exec_flow h <;> simp at hp
  case commitPc => exact absurd hp.1 hg
  case pc g' _ _ _ _ =>
    obtain ⟨-, rfl, rfl, rfl⟩ := hp
    exact ⟨g', rfl⟩

theorem regcmdAddr_congr {b b' : Dev} (hf : Field.args.get (b'.jobs j) = Field.args.get (b.jobs j))
    (hu : (b'.jobs j).useCoreNum = (b.jobs j).useCoreNum) :
    regcmdAddr P b' j c k = regcmdAddr P b j c k := by
  simp only [Field.get, Prod.mk.injEq] at hf
  simp only [regcmdAddr, Job.chunkStart, Job.taskRange, hu, hf]

end Driver

variable {P} {s s' : State} {B R : Multiset Stmt} {a : Stmt} {x : Int} {p : List Stmt} {j : JobId}
  {c k : Nat} {C : Conf State Stmt}

/-- The statements of `rknpu_soft_reset`. -/
def resets : Rknpu.Stmt → Bool
  | .softReset | .resetMark | .resetHw | .resetEnd | .stateInit | .resetUnlock => true
  | _ => false

def Stmt.known (a : Stmt) : Prop := ∀ b, a = .drv b → b.gang ∨ resets b

theorem known_drv {p : List Rknpu.Stmt} (h : ∀ b ∈ p, b.gang ∨ resets b) :
    ∀ b ∈ p.map Stmt.drv, b.known := by
  intro b hb c hc
  obtain ⟨d, hd, hdb⟩ := List.mem_map.mp hb
  cases hdb.trans hc
  exact h _ hd

theorem known (hC : Reach (machine P) (commitCalls.and addressGuard) State.init C) :
    ∀ a ∈ C.pending, a.known := by
  refine hC.pending_all Stmt.known ?_ ?_
  · intro s B a x s' p ha _ h
    cases a with
    | drv b =>
      simp only [machine, exec] at h
      split at h
      · cases h
      · simp only [Option.map_eq_some_iff] at h
        obtain ⟨⟨t, l⟩, hr, he⟩ := h
        cases he
        refine known_drv fun b' hb => ?_
        rcases ha b rfl with hg | hr'
        · exact .inl (exec_gang hg hr b' hb)
        · refine .inr ?_
          cases exec_flow hr <;> simp [resets] at hr' <;> simp at hb <;> subst hb <;> rfl
    | _ =>
      simp only [machine, exec] at h
      repeat' split at h
      all_goals
        cases h
        try simp [Stmt.known]
  · intro s B e s' p hG h
    cases e with
    | clear =>
      cases h
      split <;> simp [Stmt.known]
    | drv o =>
      simp only [machine, occur, Option.map_eq_some_iff] at h
      obtain ⟨⟨t, l⟩, hr, he⟩ := h
      cases he
      refine known_drv ?_
      cases o with
      | completion d =>
        obtain ⟨i, n, -, -, rfl, -⟩ := completion_effect hr
        simp [Stmt.gang]
      | next d =>
        simp only [Rknpu.occur] at hr
        split at hr <;> cases hr
        simp [Stmt.gang]
      | schedule | softReset | tick =>
        cases hr
        simp [Stmt.gang, resets]
      | _ => exact hG.1.elim

theorem load_clearW_drv (p : List Rknpu.Stmt) :
    load clearW ((p.map Stmt.drv : List Stmt) : Multiset Stmt) = 0 :=
  load_eq_zero _ fun b hb => by
    obtain ⟨c, -, rfl⟩ := List.mem_map.mp (Multiset.mem_coe.mp hb)
    rfl

namespace Base

theorem clear (hI : Base P s B) {d : Dev} {l : Bool} {B' : Multiset Stmt}
    (hd : d = s.dev ∨ ∃ v, d = s.dev.write 0 .pcDataAddr v)
    (hB : B'.filterMap Stmt.driver = B.filterMap Stmt.driver)
    (hl : load clearW B' = if l then 1 else 0) : Base P ⟨d, l⟩ B' := by
  obtain ⟨hQ, hC, hS, -⟩ := hI
  rw [← hB] at hQ hC
  rcases hd with rfl | ⟨v, rfl⟩
  · exact ⟨hQ, hC, hS, hl⟩
  · have hcalm := calm_write s.dev 0 .pcDataAddr v
    refine ⟨?_, ?_, hS, hl⟩
    · simpa using hQ.settled_env (p := []) hcalm.quiet (by simp)
    · simpa using hC.light_env (p := []) hcalm (by simp)

theorem exec (hK : a.known) (hI : Base P s (a ::ₘ R)) (h : ClearAmount.exec P a x s = some (s', p)) :
    Base P s' ((p : Multiset Stmt) + R) := by
  have hlock := hI.lock
  rw [load_cons] at hlock
  cases a with
  | drv b =>
    have hB : (Stmt.drv b ::ₘ R).filterMap Stmt.driver = b ::ₘ R.filterMap Stmt.driver :=
      Multiset.filterMap_cons_some _ _ _ rfl
    obtain ⟨hQ, hC, hS, -⟩ := hI
    rw [hB] at hQ hC
    simp only [ClearAmount.exec] at h
    split at h
    · cases h
    · simp only [Option.map_eq_some_iff] at h
      obtain ⟨⟨t, l⟩, hr, he⟩ := h
      cases he
      have hg : Counts.Genuine s.dev (R.filterMap Stmt.driver) b := by
        rintro c j rfl
        rcases hK _ rfl with hk | hk <;> cases hk
      have hev : b.evicts = false := by
        rcases hK b rfl with hk | hk <;> cases b <;> first | rfl | cases hk
      refine ⟨?_, ?_, hS.exec hQ hC hev hr, ?_⟩
      · rw [pending_embed (f := Stmt.drv) fun _ => rfl]
        exact hQ.exec hr
      · rw [pending_embed (f := Stmt.drv) fun _ => rfl]
        exact hC.exec hQ hg hr
      · rw [load_add, load_clearW_drv]
        exact hlock
  | clearLock =>
    simp only [ClearAmount.exec] at h
    split at h <;> cases h
    rename_i hl
    rw [if_neg hl] at hlock
    refine hI.clear (.inl rfl) (pending_hidden rfl rfl) ?_
    rw [load_add, if_pos rfl]
    exact congrArg (1 + ·) ((Nat.zero_add _).symm.trans hlock)
  | clearRead | clearAmount v =>
    cases h
    exact hI.clear (.inl rfl) (pending_hidden rfl rfl) ((load_add _ _ _).trans hlock)
  | clearSlave v | clearRestore v =>
    cases h
    exact hI.clear (.inr ⟨_, rfl⟩) (pending_hidden rfl rfl) ((load_add _ _ _).trans hlock)
  | clearUnlock =>
    cases h
    refine hI.clear (.inl rfl) (pending_hidden rfl rfl) ?_
    have hone : 1 + load clearW R = if s.irqLock then 1 else 0 := hlock
    rw [load_add, if_neg Bool.false_ne_true]
    split at hone
    · exact (Nat.zero_add _).trans (by omega)
    · omega

theorem occur {e : Occurrence} (hI : Base P s R) (h : ClearAmount.occur P e s = some (s', p)) :
    Base P s' ((p : Multiset Stmt) + R) := by
  cases e with
  | drv o =>
    simp only [ClearAmount.occur, Option.map_eq_some_iff] at h
    obtain ⟨⟨t, l⟩, hr, he⟩ := h
    cases he
    refine ⟨?_, ?_, hI.slotted.occur hr, ?_⟩
    · rw [pending_embed (f := Stmt.drv) fun _ => rfl]
      exact hI.queued.occur hr
    · rw [pending_embed (f := Stmt.drv) fun _ => rfl]
      exact hI.counts.occur hI.queued hr
    · rw [load_add, load_clearW_drv, Nat.zero_add]
      exact hI.lock
  | clear =>
    cases h
    refine hI.clear (.inl rfl) ?_ ?_
    · split <;> rw [Multiset.filterMap_add] <;> exact Multiset.zero_add _
    · rw [load_add, ← hI.lock]
      split <;> exact Nat.zero_add _

theorem init : Base P State.init 0 :=
  ⟨Multiset.filterMap_zero Stmt.driver ▸ Queued.init,
    Multiset.filterMap_zero Stmt.driver ▸ Counts.init, Slotted.init, rfl⟩

theorem reach (hC : Reach (machine P) (commitCalls.and addressGuard) State.init C) :
    Base P C.shared C.pending :=
  hC.invariant_with (fun _ B => ∀ a ∈ B, a.known) (Base P) (fun _ hC => known hC) init
    (fun _ R a _ _ _ hJ hI _ h => hI.exec (hJ a (Multiset.mem_cons_self a R)) h)
    (fun _ _ _ _ _ _ hI _ h => hI.occur h)

/-- One call of `rknpu_clear_rw_amount` at a time holds the lock. -/
theorem alone (hI : Base P s (a ::ₘ R)) (ha : clearW a = 1) : ∀ b ∈ R, clearW b = 0 := by
  refine load_all_eq_zero clearW ?_ ha
  rw [hI.lock]
  split
  · exact le_rfl
  · exact Nat.zero_le 1

theorem commit_once {b b' : Rknpu.Stmt} {i : JobId} (hI : Base P s (.drv b ::ₘ R))
    (hb : commitW j c b = 1) (hR : .drv b' ∈ R) : commitW i c b' = 0 := by
  obtain ⟨hQ, hC, hS, -⟩ := hI
  rw [Multiset.filterMap_cons_some Stmt.driver (Stmt.drv b) R rfl] at hQ hC
  have hle := le_load (commitW i c) ((Multiset.mem_filterMap Stmt.driver _).mpr ⟨_, hR, rfl⟩)
  by_contra hpos
  have hj : Active s.dev (b ::ₘ R.filterMap Stmt.driver) j c := by
    rw [Active, load_cons, hb]
    omega
  have hi : Active s.dev (b ::ₘ R.filterMap Stmt.driver) i c := by
    rw [Active, load_cons]
    omega
  have hij : i = j := by
    have := (hi.slot hQ hC hS).symm.trans (hj.slot hQ hC hS)
    exact Option.some.inj this
  subst hij
  have hone := hC.tokens_le_one i c
  simp only [tokens, load_cons, hb] at hone
  omega

/-- The address of a commit that is under way is final. -/
theorem enqueued {g : PcStage} (hI : Base P s B) (hm : .drv (.pc g j c k) ∈ B) :
    0 < s.dev.log.count (.enqueue j) := by
  have hle := le_load (commitW j c) ((Multiset.mem_filterMap Stmt.driver _).mpr ⟨_, hm, rfl⟩)
  simp only [commitW, and_self, if_true] at hle
  exact (hI.counts.live (j := j) (c := c) (by simp only [tokens]; omega)).1

end Base

/-- Whoever clears or has saved the address holds `irq_lock`. -/
theorem clearW_of_saves {b : Stmt} {v : Word} (h : b.saves = some v) : clearW b = 1 := by
  cases b <;> first | rfl | cases h

theorem clearW_of_clearing {b : Stmt} (h : b.clearing) : clearW b = 1 := by
  cases b <;> first | rfl | cases h

theorem setsAddr_pc {g : PcStage} {d k : Nat} (hg : g ≠ .pcDataAddr) :
    setsAddr c (.pc g j d k) = false := by
  cases g <;> first | rfl | exact absurd rfl hg

theorem addressed_pc {g : PcStage} {k : Nat} (hg : g ≠ .pcDataAddr) :
    (Stmt.drv (.pc g j 0 k)).addressed := by
  cases g <;> first | rfl | exact absurd rfl hg

namespace Addressed

/-- The address stays where the driver does not write it, and the commit of the core itself
puts it there. -/
theorem drv {b : Rknpu.Stmt} {t : Dev} {l : List Rknpu.Stmt} (hP : P.config.pcDmaCtrl = true)
    (hJ : Base P s (.drv b ::ₘ R)) (hI : Addressed P s (.drv b ::ₘ R))
    (hG : addressGuard.run s (.drv b ::ₘ R) (.drv b) x)
    (hl : irqLocked P b = true → s.irqLock = false) (h : Rknpu.exec P b x s.dev = some (t, l)) :
    Addressed P ⟨t, s.irqLock⟩ (((l.map Stmt.drv : List Stmt) : Multiset Stmt) + R) := by
  have hB : (Stmt.drv b ::ₘ R).filterMap Stmt.driver = b ::ₘ R.filterMap Stmt.driver :=
    Multiset.filterMap_cons_some _ _ _ rfl
  have hQ := hJ.queued
  rw [hB] at hQ
  have haddr : ∀ j c k, 0 < s.dev.log.count (.enqueue j) →
      regcmdAddr P t j c k = regcmdAddr P s.dev j c k := fun j c k hj =>
    regcmdAddr_congr (exec_args h j) (hQ.useCoreNum_exec h hj)
  have hself := Multiset.mem_cons_self (Stmt.drv b) R
  have hold : ∀ {d}, d ∈ R → d ∈ Stmt.drv b ::ₘ R := Multiset.mem_cons_of_mem
  have hclear : (∀ d ∈ ((l.map Stmt.drv : List Stmt) : Multiset Stmt) + R, d.clearing = false) →
      ∀ d ∈ Stmt.drv b ::ₘ R, d.clearing = false := fun hd d hm => by
    rcases Multiset.mem_cons.mp hm with rfl | hm
    · rfl
    · exact hd d (Multiset.mem_add.mpr (.inr hm))
  -- a pending commit that has its address had it before, or has just written it
  have hpc : ∀ g j c k, .drv (.pc g j c k) ∈ ((l.map Stmt.drv : List Stmt) : Multiset Stmt) + R →
      g ≠ .pcDataAddr → b = .pc .pcDataAddr j c k ∨
        (setsAddr c b = true → b = .stateInit ∧ c = 0) ∧
          ∃ g', g' ≠ .pcDataAddr ∧ .drv (.pc g' j c k) ∈ Stmt.drv b ::ₘ R := fun g j c k hm hg => by
    rcases Multiset.mem_add.mp hm with hm | hm
    · obtain ⟨d, hd, he⟩ := List.mem_map.mp (Multiset.mem_coe.mp hm)
      cases he
      obtain ⟨g', rfl⟩ := exec_pc hg hd h
      by_cases hg' : g' = .pcDataAddr
      · exact .inl (hg' ▸ rfl)
      · refine .inr ⟨fun hs => ?_, g', hg', hself⟩
        rw [setsAddr_pc hg'] at hs
        cases hs
    · refine .inr ⟨fun hs => ?_, g, hg, hold hm⟩
      have hone : ∀ i, commitW i c b = 1 → False := fun i hi => by
        have := hJ.commit_once hi hm (i := j)
        simp [commitW] at this
      cases b with
      | subcoreCommit i d => exact (hone i (by simpa [setsAddr, commitW] using hs)).elim
      | pc g' i d n =>
        cases g' <;> simp [setsAddr] at hs
        exact (hone i (by simp [commitW, hs])).elim
      | stateInit => exact ⟨rfl, by simpa [setsAddr] using hs⟩
      | _ => cases hs
  refine ⟨fun g j c k hm hg hc => ?_, fun g j k hm hg d hd v hv => ?_⟩
  · rcases hpc g j c k hm hg with rfl | ⟨hset, g', hg', hm'⟩
    · cases h
      exact reg_write_self _
    · rw [haddr j c k (hJ.enqueued hm'), exec_reg ?_ h]
      · exact hI.reg g' j c k hm' hg' fun hz => hclear (hc hz)
      · by_contra hs
        obtain ⟨rfl, rfl⟩ := hset (by simpa using hs)
        rcases hG.1 rfl with hG | ⟨d, hd, hcl⟩
        · have haddressed := addressed_pc (j := j) (k := k) hg'
          rw [hG _ hm'] at haddressed
          cases haddressed
        · have := hclear (hc rfl) d hd
          rw [hcl] at this
          cases this
  · have hdR : d ∈ R := (Multiset.mem_add.mp hd).resolve_left fun hd => by
      obtain ⟨d', -, rfl⟩ := List.mem_map.mp (Multiset.mem_coe.mp hd)
      cases hv
    rcases hpc g j 0 k hm hg with rfl | ⟨-, g', hg', hm'⟩
    · have hlock := hJ.lock
      have hle := le_load clearW hdR
      rw [hl hP, load_cons, clearW_of_saves hv] at *
      simp at hlock
      omega
    · rw [haddr j 0 k (hJ.enqueued hm')]
      exact hI.saved g' j k hm' hg' d (hold hdR) v hv

/-- The address or its copy stays over a step of `rknpu_clear_rw_amount`. -/
theorem clear (hI : Addressed P s (a ::ₘ R)) {d : Dev} {l : Bool}
    (hp : p.filterMap Stmt.driver = []) (hjobs : d.jobs = s.dev.jobs)
    (hreg : ∀ c, c ≠ 0 → d.reg c .pcDataAddr = s.dev.reg c .pcDataAddr)
    (hzero : (∀ b ∈ (p : Multiset Stmt) + R, b.clearing = false) →
      ((∀ b ∈ a ::ₘ R, b.clearing = false) ∧ d.reg 0 .pcDataAddr = s.dev.reg 0 .pcDataAddr) ∨
        ∃ b ∈ a ::ₘ R, b.saves = some (d.reg 0 .pcDataAddr))
    (hsave : ∀ b ∈ p, ∀ v, b.saves = some v →
      ((∀ b ∈ a ::ₘ R, b.clearing = false) ∧ v = s.dev.reg 0 .pcDataAddr) ∨
        ∃ b ∈ a ::ₘ R, b.saves = some v) :
    Addressed P ⟨d, l⟩ ((p : Multiset Stmt) + R) := by
  have hmem : ∀ b, .drv b ∈ (p : Multiset Stmt) + R → .drv b ∈ a ::ₘ R := fun b hb => by
    rcases Multiset.mem_add.mp hb with hb | hb
    · have hb : b ∈ p.filterMap Stmt.driver :=
        List.mem_filterMap.mpr ⟨_, Multiset.mem_coe.mp hb, rfl⟩
      rw [hp] at hb
      cases hb
    · exact Multiset.mem_cons_of_mem hb
  have haddr : ∀ j c k, regcmdAddr P d j c k = regcmdAddr P s.dev j c k := fun j c k =>
    regcmdAddr_congr (by rw [hjobs]) (by rw [hjobs])
  -- a value that is in the register or saved is the address of a pending commit
  have hright : ∀ v, (((∀ b ∈ a ::ₘ R, b.clearing = false) ∧ v = s.dev.reg 0 .pcDataAddr) ∨
      ∃ b ∈ a ::ₘ R, b.saves = some v) → ∀ g j k, .drv (.pc g j 0 k) ∈ a ::ₘ R →
        g ≠ .pcDataAddr → v = regcmdAddr P s.dev j 0 k := fun v hv g j k hm hg => by
    rcases hv with ⟨hc, rfl⟩ | ⟨b, hb, hv⟩
    · exact hI.reg g j 0 k hm hg fun _ => hc
    · exact hI.saved g j k hm hg b hb v hv
  refine ⟨fun g j c k hm hg hc => ?_, fun g j k hm hg b hb v hv => ?_⟩
  · rw [haddr]
    by_cases hz : c = 0
    · subst hz
      exact hright _ (hzero (hc rfl)) g j k (hmem _ hm) hg
    · rw [hreg c hz]
      exact hI.reg g j c k (hmem _ hm) hg fun h => absurd h hz
  · rw [haddr]
    rcases Multiset.mem_add.mp hb with hb | hb
    · exact hright v (hsave b (Multiset.mem_coe.mp hb) v hv) g j k (hmem _ hm) hg
    · exact hI.saved g j k (hmem _ hm) hg b (Multiset.mem_cons_of_mem hb) v hv

theorem exec (hP : P.config.pcDmaCtrl = true) (hJ : Base P s (a ::ₘ R))
    (hI : Addressed P s (a ::ₘ R)) (hG : addressGuard.run s (a ::ₘ R) a x)
    (h : ClearAmount.exec P a x s = some (s', p)) : Addressed P s' ((p : Multiset Stmt) + R) := by
  have hself := Multiset.mem_cons_self a R
  cases a with
  | drv b =>
    simp only [ClearAmount.exec] at h
    split at h
    · cases h
    rename_i hl
    simp only [Option.map_eq_some_iff] at h
    obtain ⟨⟨t, l⟩, hr, he⟩ := h
    cases he
    exact hI.drv hP hJ hG (by simpa using hl) hr
  | clearRead =>
    cases h
    have hnone : ∀ b ∈ Stmt.clearRead ::ₘ R, b.clearing = false := fun b hb => by
      rcases Multiset.mem_cons.mp hb with rfl | hb
      · rfl
      · have hz := hJ.alone rfl b hb
        by_contra hc
        rw [clearW_of_clearing (by simpa using hc)] at hz
        cases hz
    refine hI.clear rfl rfl (fun _ _ => rfl) (fun _ => .inl ⟨hnone, rfl⟩) fun b hb v hv => ?_
    obtain rfl := List.mem_singleton.mp hb
    cases hv
    exact .inl ⟨hnone, rfl⟩
  | clearSlave v | clearAmount v =>
    cases h
    refine hI.clear rfl rfl (fun c hc => ?_) (fun hn => ?_) fun b hb w hv => ?_
    · first | rfl | exact reg_write _ (.inl (Ne.symm hc))
    · have := hn _ (Multiset.mem_add.mpr (.inl (Multiset.mem_coe.mpr List.mem_cons_self)))
      cases this
    · obtain rfl := List.mem_singleton.mp hb
      exact .inr ⟨_, hself, hv⟩
  | clearRestore v =>
    cases h
    refine hI.clear rfl rfl (fun c hc => reg_write _ (.inl (Ne.symm hc))) (fun _ => ?_)
      fun b hb w hv => ?_
    · exact .inr ⟨_, hself, congrArg some (reg_write_self v).symm⟩
    · obtain rfl := List.mem_singleton.mp hb
      cases hv
  | clearLock =>
    simp only [ClearAmount.exec] at h
    split at h <;> cases h
    refine hI.clear rfl rfl (fun _ _ => rfl) (fun hn => .inl ⟨fun b hb => ?_, rfl⟩)
      fun b hb w hv => ?_
    · rcases Multiset.mem_cons.mp hb with rfl | hb
      · rfl
      · exact hn b (Multiset.mem_add.mpr (.inr hb))
    · obtain rfl := List.mem_singleton.mp hb
      cases hv
  | clearUnlock =>
    cases h
    refine hI.clear rfl rfl (fun _ _ => rfl) (fun hn => .inl ⟨fun b hb => ?_, rfl⟩) (by simp)
    rcases Multiset.mem_cons.mp hb with rfl | hb
    · rfl
    · exact hn b (Multiset.mem_add.mpr (.inr hb))

theorem occur {e : Occurrence} (hJ : Base P s R) (hI : Addressed P s R)
    (hG : (commitCalls.and addressGuard).env s R e)
    (h : ClearAmount.occur P e s = some (s', p)) : Addressed P s' ((p : Multiset Stmt) + R) := by
  have hkeep : (∀ g j c k, .drv (.pc g j c k) ∉ p) → (∀ b ∈ p, b.clearing = false ∧ b.saves = none) →
      s'.dev.reg = s.dev.reg → (∀ j, 0 < s.dev.log.count (.enqueue j) → ∀ c k,
        regcmdAddr P s'.dev j c k = regcmdAddr P s.dev j c k) →
      Addressed P s' ((p : Multiset Stmt) + R) := fun hpc hp hreg haddr => by
    have hold : ∀ {g j c k}, .drv (.pc g j c k) ∈ (p : Multiset Stmt) + R →
        .drv (.pc g j c k) ∈ R := fun hm =>
      (Multiset.mem_add.mp hm).resolve_left fun hm => hpc _ _ _ _ (Multiset.mem_coe.mp hm)
    refine ⟨fun g j c k hm hg hc => ?_, fun g j k hm hg b hb v hv => ?_⟩
    · rw [haddr j (hJ.enqueued (hold hm)), hreg]
      exact hI.reg g j c k (hold hm) hg fun hz b hb => hc hz b (Multiset.mem_add.mpr (.inr hb))
    · rw [haddr j (hJ.enqueued (hold hm))]
      refine hI.saved g j k (hold hm) hg b ((Multiset.mem_add.mp hb).resolve_left fun hb => ?_) v hv
      rw [(hp b (Multiset.mem_coe.mp hb)).2] at hv
      cases hv
  cases e with
  | clear =>
    cases h
    refine hkeep ?_ ?_ rfl fun _ _ _ _ => rfl
    · split <;> simp
    · split <;> simp [Stmt.clearing, Stmt.saves]
  | drv o =>
    simp only [ClearAmount.occur, Option.map_eq_some_iff] at h
    obtain ⟨⟨t, l⟩, hr, he⟩ := h
    cases he
    refine hkeep (fun g j c k hm => ?_) (fun b hb => ?_) ?_ fun j hj c k => ?_
    · obtain ⟨d, hd, he⟩ := List.mem_map.mp hm
      cases he
      have hle := le_load (commitW j c) (Multiset.mem_coe.mpr hd)
      rw [(occur_weights hr j c).2.2.1] at hle
      simp [commitW] at hle
    · obtain ⟨d, -, rfl⟩ := List.mem_map.mp hb
      exact ⟨rfl, rfl⟩
    · cases o with
      | completion d =>
        simp only [Rknpu.occur, Option.map_eq_some_iff] at hr
        obtain ⟨r, -, hr⟩ := hr
        cases hr
        rfl
      | next d =>
        simp only [Rknpu.occur] at hr
        split at hr <;> cases hr
        rfl
      | schedule | softReset | tick =>
        cases hr
        rfl
      | _ => exact hG.1.elim
    · refine regcmdAddr_congr (occur_get (fun _ hn => ?_) (by simp) hr) ?_
      · have := hJ.queued.fresh s.dev.jobNum le_rfl
        subst hn
        omega
      · rw [(hJ.queued.occur hr).width, hJ.queued.width, hJ.queued.mask_occur hr hj]

theorem init : Addressed P State.init 0 := by
  constructor <;> simp

theorem reach (hP : P.config.pcDmaCtrl = true)
    (hC : Reach (machine P) (commitCalls.and addressGuard) State.init C) :
    Addressed P C.shared C.pending :=
  hC.invariant_with (Base P) (Addressed P) (fun _ hC => .reach hC) init
    (fun _ _ _ _ _ _ hJ hI hG h => hI.exec hP hJ hG.2 h)
    (fun _ _ _ _ _ hJ hI hG h => hI.occur hJ hG h)

end Addressed

/-- Every start of a core finds the address of its chunk. -/
theorem start_addressed (hP : P.config.pcDmaCtrl = true)
    (hC : Reach (machine P) (commitCalls.and addressGuard) State.init C)
    (hm : .drv (.pc .pcOpEn j c k) ∈ C.pending)
    (hG : addressGuard.run C.shared C.pending (.drv (.pc .pcOpEn j c k)) x) :
    C.shared.dev.reg c .pcDataAddr = regcmdAddr P C.shared.dev j c k := by
  refine (Addressed.reach hP hC).reg .pcOpEn j c k hm (by simp) fun hc => ?_
  subst hc
  exact hG.2 j k rfl

def addressBoard : Platform :=
  { board rk3576Config with kvAddr := fun _ _ => ⟨0x300, 0, 0x1000⟩ }

def clearRun : List (Label Int Occurrence) :=
  [Label.env (Occurrence.drv (.schedule (oneTask 1 1) false))] ++
    List.replicate 12 (Label.run 0 0) ++ [Label.env Occurrence.clear] ++
    List.replicate 6 (Label.run 1 0) ++ List.replicate 7 (Label.run 0 0)

def Stmt.unguarded : Stmt → Bool
  | .drv .stateInit | .drv (.pc .pcOpEn _ _ _) => false
  | _ => true

theorem start_addressed_clearRun : ∃ C : Conf State Stmt,
    .drv (.pc .pcOpEn 0 0 0) ∈ C.pending ∧ C.shared.dev.reg 0 .pcDataAddr = 0x1000 := by
  obtain ⟨C, hC, ht⟩ := Reach.exists_of_steps (machine addressBoard)
    (commitCalls.and addressGuard) State.init clearRun
    (fun _ a _ => a.unguarded)
    (fun C => C.threads == [[.drv (.pc .pcOpEn 0 0 0), .drv (.nextLoop 0 1)], []] &&
      regcmdAddr addressBoard C.shared.dev 0 0 0 == 0x1000)
    (fun C a x h => ⟨trivial, fun ha => by simp [ha, Stmt.unguarded] at h,
      fun j k ha => by simp [ha, Stmt.unguarded] at h⟩)
    (fun e he _ _ => by
      simp [clearRun] at he
      rcases he with rfl | rfl <;> exact ⟨trivial, trivial⟩) (by decide +kernel)
  simp only [Bool.and_eq_true, beq_iff_eq] at ht
  obtain ⟨ht, haddr⟩ := ht
  have hB : C.pending = ([.drv (.pc .pcOpEn 0 0 0), .drv (.nextLoop 0 1)] : List Stmt) := by
    rw [Conf.pending, ht]
    rfl
  have hm : .drv (.pc .pcOpEn 0 0 0) ∈ C.pending := by simp [hB]
  have hG : addressGuard.run C.shared C.pending (.drv (.pc .pcOpEn 0 0 0)) 0 :=
    ⟨by simp, by simp [hB, Stmt.clearing]⟩
  exact ⟨C, hm, (start_addressed rfl hC hm hG).trans haddr⟩

/-- A reset puts core 0 into slave mode after a commit has written its address. -/
def slaveRun : List (Label Int Occurrence) :=
  [Label.env (Occurrence.drv (.schedule (oneTask 1 1) false))] ++
    List.replicate 19 (Label.run 0 0) ++
    [Label.env (Occurrence.drv .softReset)] ++ List.replicate 5 (Label.run 1 0)

theorem reset_misleads : ¬∀ (P : Platform) (C : Conf State Stmt) (j : JobId) (c k : Nat),
    P.config.pcDmaCtrl = true → P.config.stateInit = true →
      Reach (machine P) commitCalls State.init C → .drv (.pc .pcOpEn j c k) ∈ C.pending →
        C.shared.dev.reg c .pcDataAddr = regcmdAddr P C.shared.dev j c k := by
  intro hall
  obtain ⟨C, hC, ht⟩ := Reach.exists_of_steps (machine addressBoard) commitCalls State.init slaveRun
    (fun _ _ _ => true)
    (fun C => C.threads.head? == some [.drv (.pc .pcOpEn 0 0 0), .drv (.nextLoop 0 1)] &&
      regcmdAddr addressBoard C.shared.dev 0 0 0 == 0x1000 && C.shared.dev.reg 0 .pcDataAddr == 1)
    (fun _ _ _ _ => trivial) (fun e he _ _ => by
      simp [slaveRun] at he
      rcases he with rfl | rfl <;> trivial) (by decide +kernel)
  simp only [Bool.and_eq_true, beq_iff_eq] at ht
  obtain ⟨⟨ht, haddr⟩, hreg⟩ := ht
  obtain ⟨ts, hts⟩ := List.head?_eq_some_iff.mp ht
  have := hall addressBoard C 0 0 0 rfl rfl hC (by simp [Conf.pending, hts])
  rw [haddr, hreg] at this
  exact absurd this (by decide)

end ClearAmount

end Rknpu

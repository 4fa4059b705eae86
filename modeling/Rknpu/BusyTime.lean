import Rknpu.Flow
import Rknpu.Gang
import Rknpu.Slots

namespace Rknpu

open Interleaving

def Dev.committed (P : Platform) (s : Dev) (j : JobId) : Bool :=
  (List.range P.config.numIrqs).all fun c => !s.needs P c j || s.log.contains (.pickup c j)

/-- The time since the last accounting for a committed job in the slot. -/
def Dev.unaccounted (P : Platform) (s : Dev) (c : Nat) : Int :=
  match s.slot c with
  | some j => if s.committed P j then s.clock - (s.jobs j).hwRecoderTime else 0
  | none => 0

namespace BusyTime

variable (P : Platform)

/-- The driver with its timer. `snapshots` adds up what the timer has seen, and `occupied` is
the time that committed jobs spent in each slot. -/
structure State where
  dev : Dev
  totalBusyTime : Nat → Int
  snapshots : Nat → Int
  occupied : Nat → Int

def State.init : State := ⟨Dev.init, fun _ => 0, fun _ => 0, fun _ => 0⟩

/-- Statements of the driver, and the turns of the loop of `hrtimer_handler`. -/
inductive Stmt where
  | drv (a : Rknpu.Stmt)
  | hrtimer (i : Nat)
deriving DecidableEq

/-- The section of `hrtimer_handler` under `irq_lock` that charges the job in the slot. -/
def charge (s : Dev) (i : Nat) : Dev :=
  match s.slot i with
  | some j =>
    { s.setJob j fun b => { b with hwRecoderTime := s.clock } with
      busyTime := Function.update s.busyTime i
        (s.busyTime i + (s.clock - (s.jobs j).hwRecoderTime)) }
  | none => s

/-- One turn of the loop of `hrtimer_handler`. -/
def hrtimer (s : State) (i : Nat) : State × List Stmt :=
  if i < P.config.numIrqs then
    let d := charge s.dev i
    ({ s with
       dev := { d with busyTime := Function.update d.busyTime i 0 }
       totalBusyTime := Function.update s.totalBusyTime i (d.busyTime i)
       snapshots := Function.update s.snapshots i (s.snapshots i + d.busyTime i) },
      [.hrtimer (i + 1)])
  else (s, [])

def exec (a : Stmt) (x : Int) (s : State) : Option (State × List Stmt) :=
  match a with
  | .drv a => (Rknpu.exec P a x s.dev).map fun r => ({ s with dev := r.1 }, r.2.map .drv)
  | .hrtimer i => some (hrtimer P s i)

inductive Occurrence where
  | drv (e : Rknpu.Occurrence)
  | tick (d : Nat)
  /-- `hrtimer_handler` is called. -/
  | timer

/-- While time passes, committed jobs occupy their cores. -/
def occur (e : Occurrence) (s : State) : Option (State × List Stmt) :=
  match e with
  | .drv e => (Rknpu.occur P e s.dev).map fun r => ({ s with dev := r.1 }, r.2.map .drv)
  | .tick d =>
    some ({ s with
            dev := { s.dev with clock := s.dev.clock + d }
            occupied := fun c => s.occupied c +
              if (s.dev.slot c).any (s.dev.committed P) then (d : Int) else 0 }, [])
  | .timer => some (s, [.hrtimer 0])

def machine : Machine State Stmt Int Occurrence := ⟨exec P, occur P⟩

def timedCalls : Guard State Stmt Int Occurrence :=
  .events fun
    | .drv (.schedule _ _) | .drv (.next _) | .drv (.completion _) | .tick _ | .timer => True
    | .drv _ => False

/-- The timer charges a job only when nothing is unaccounted, or when it is committed and no
other core holds it. -/
def chargeGuard : Guard State Stmt Int Occurrence where
  run s _ a _ := ∀ c j, a = .hrtimer c → s.dev.slot c = some j →
    s.dev.clock = (s.dev.jobs j).hwRecoderTime ∨
      s.dev.committed P j ∧ ∀ d < P.config.numIrqs, d ≠ c → s.dev.slot d ≠ some j
  env _ _ _ := True

def Stmt.driver : Stmt → Option Rknpu.Stmt
  | .drv a => some a
  | .hrtimer _ => none

structure Base (s : State) (B : Multiset Stmt) : Prop where
  queued : Queued P s.dev (B.filterMap Stmt.driver)
  counts : Counts s.dev (B.filterMap Stmt.driver)
  slotted : Slotted s.dev

section Driver

variable {P} {s s' : Dev} {a : Rknpu.Stmt} {x : Int} {p : List Rknpu.Stmt} {j : JobId} {c : Nat}
  {B R : Multiset Rknpu.Stmt}

theorem exec_times (hg : a.gang) (ha : ∀ c, a ≠ .pickUp c) (ha' : ∀ j r c, a ≠ .releaseCore j r c)
    (h : Rknpu.exec P a x s = some (s', p)) :
    s'.busyTime = s.busyTime ∧ s'.clock = s.clock ∧
      ∀ j, (s'.jobs j).hwRecoderTime = (s.jobs j).hwRecoderTime := by
  cases a <;> simp only [Stmt.gang, Bool.false_eq_true] at hg
  case pickUp c => exact absurd rfl (ha c)
  case releaseCore j r c => exact absurd rfl (ha' j r c)
  case pc g j c k =>
    cases g <;> cases h <;>
      first
        | exact ⟨rfl, rfl, fun _ => rfl⟩
        | exact ⟨rfl, rfl, field_update Job.hwRecoderTime rfl⟩
  all_goals
    simp only [Rknpu.exec, jobSchedule, selectCore, domainGet, enqueue, nextLoop, jobNext, runDec,
      jobCommit, subcoreCommit, commitPc, jobDone, interruptDec, doneWidth, donePut, doneFlag,
      doneRet, doneFence, doneAsync, Option.some.injEq] at h
    repeat' split at h
    all_goals
      cases h
      first
        | exact ⟨rfl, rfl, fun _ => rfl⟩
        | exact ⟨rfl, rfl, field_update Job.hwRecoderTime rfl⟩

theorem committed_iff : s.committed P j ↔ ∀ c, s.needs P c j → 0 < s.log.count (.pickup c j) := by
  simp only [Dev.committed, List.all_eq_true, List.mem_range, Bool.or_eq_true, Bool.not_eq_true',
    List.contains_iff_mem, List.count_pos_iff]
  constructor
  · intro h c hc
    have hlt : c < P.config.numIrqs := of_decide_eq_true (Bool.and_eq_true_iff.mp hc).1
    exact (h c hlt).resolve_left (by simp [hc])
  · intro h c _
    cases hn : s.needs P c j
    · exact .inl rfl
    · exact .inr (h c hn)

theorem committed_congr (hm : s'.mask j = s.mask j)
    (hl : ∀ c, s'.log.count (.pickup c j) = s.log.count (.pickup c j)) :
    s'.committed P j = s.committed P j := by
  rw [Bool.eq_iff_iff, committed_iff, committed_iff]
  simp only [Dev.needs, hm, hl]

theorem unaccounted_some (hs : s.slot c = some j) : s.unaccounted P c =
    if s.committed P j then s.clock - (s.jobs j).hwRecoderTime else 0 := by
  rw [Dev.unaccounted, hs]

theorem unaccounted_none (hs : s.slot c = none) : s.unaccounted P c = 0 := by
  rw [Dev.unaccounted, hs]

theorem unaccounted_congr (hs : s'.slot c = s.slot c) (hclock : s'.clock = s.clock)
    (hj : ∀ j, s.slot c = some j → s'.committed P j = s.committed P j ∧
      (s'.jobs j).hwRecoderTime = (s.jobs j).hwRecoderTime) :
    s'.unaccounted P c = s.unaccounted P c := by
  cases hc : s.slot c with
  | none => rw [unaccounted_none hc, unaccounted_none (hs.trans hc)]
  | some j =>
    obtain ⟨h₁, h₂⟩ := hj j hc
    rw [unaccounted_some hc, unaccounted_some (hs.trans hc), h₁, h₂, hclock]

theorem releaseCore_busy {r : Int} (hQ : Queued P s (.releaseCore j r c ::ₘ R))
    (hC : Counts s (.releaseCore j r c ::ₘ R)) (hS : Slotted s)
    (h : Rknpu.exec P (.releaseCore j r c) x s = some (s', p)) (d : Nat) :
    s'.busyTime d + s'.unaccounted P d = s.busyTime d + s.unaccounted P d := by
  have hactive : Active s (.releaseCore j r c ::ₘ R) j c := by
    simp only [Active, load_cons, releaseW, and_self, if_true]
    omega
  have hslot := hactive.slot hQ hC hS
  have hlive := hC.live (j := j) (c := c) (by
    simp only [tokens, load_cons, releaseW, and_self, if_true]
    omega)
  have hcom : s.committed P j := committed_iff.mpr fun e he =>
    hQ.all_picked hlive.1 hlive.2 (Bool.and_eq_true_iff.mp he).2
  have hlog : ∀ e i, s'.log.count (.pickup e i) = s.log.count (.pickup e i) := fun e i =>
    exec_count h (by rfl)
  have hmask : ∀ i, s'.mask i = s.mask i := fun i => ((releaseCore_effect h).1.fields i).1
  have hs := (releaseCore_effect h).2.2.2.1
  obtain ⟨hbusy, hclock, hrec⟩ : s'.busyTime = Function.update s.busyTime c
      (s.busyTime c + (s.clock - (s.jobs j).hwRecoderTime)) ∧ s'.clock = s.clock ∧
      ∀ i, (s'.jobs i).hwRecoderTime = (s.jobs i).hwRecoderTime := by
    cases h
    exact ⟨rfl, rfl, field_update Job.hwRecoderTime rfl⟩
  rw [hbusy]
  by_cases hd : d = c
  · subst hd
    rw [unaccounted_none (by rw [hs, Function.update_self]), unaccounted_some hslot, if_pos hcom,
      Function.update_self]
    omega
  · rw [Function.update_of_ne hd, unaccounted_congr (by rw [hs, Function.update_of_ne hd]) hclock
      fun i _ => ⟨committed_congr (hmask i) fun e => hlog e i, hrec i⟩]

theorem pickUp_busy (hQ : Queued P s (.pickUp c ::ₘ R))
    (h : Rknpu.exec P (.pickUp c) x s = some (s', p)) (d : Nat) :
    s'.busyTime d + s'.unaccounted P d = s.busyTime d + s.unaccounted P d := by
  have hlog : ∀ {e i}, e ≠ c → s'.log.count (.pickup e i) = s.log.count (.pickup e i) :=
    fun he => exec_count h (by simpa [Stmt.logs] using Ne.symm he)
  obtain ⟨rfl, -⟩ | ⟨j, rest, hnone, htodo, hkept, -, hslot, hl, -⟩ := pickUp_effect h
  · rfl
  have hother : ∀ i, i ≠ j → s'.committed P i = s.committed P i := fun i hi =>
    committed_congr (hkept.fields i).1 fun e => by
      rw [hl, List.count_append, List.count_singleton]
      simp [Ne.symm hi]
  have hnot : ¬s.committed P j := fun hcom => by
    have hlisted := hQ.listed j c
    have honce := hQ.once j
    rw [htodo, List.count_cons_self] at hlisted
    split at hlisted
    · rename_i hn
      have := committed_iff.mp hcom c hn
      omega
    · omega
  have hrest : s'.busyTime = s.busyTime ∧ s'.clock = s.clock ∧
      ∀ i, (s'.jobs i).hwRecoderTime = if i = j then s.clock else (s.jobs i).hwRecoderTime := by
    simp only [Rknpu.exec, pickUp, hnone, htodo, Option.some.injEq] at h
    cases h
    refine ⟨rfl, rfl, fun i => ?_⟩
    simp only [setJob_jobs]
    split <;> rfl
  rw [hrest.1]
  have hzero : ∀ i, s'.slot d = some i → i = j → s'.unaccounted P d = 0 := by
    rintro i hi rfl
    rw [unaccounted_some hi, hrest.2.1, hrest.2.2, if_pos rfl, Int.sub_self, ite_self]
  by_cases hd : d = c
  · subst hd
    rw [hzero j (by rw [hslot, Function.update_self]) rfl, unaccounted_none hnone]
  · have hsame : s'.slot d = s.slot d := by rw [hslot, Function.update_of_ne hd]
    by_cases hj : s.slot d = some j
    · rw [hzero j (hsame.trans hj) rfl, unaccounted_some hj, if_neg hnot]
    · rw [unaccounted_congr hsame hrest.2.1 fun i hi => ?_]
      have hij : i ≠ j := fun he => hj (he ▸ hi)
      exact ⟨hother i hij, by rw [hrest.2.2, if_neg hij]⟩

theorem keepsSlot_of_gang (hg : a.gang) (hp : ∀ c, a ≠ .pickUp c)
    (hr : ∀ j r c, a ≠ .releaseCore j r c) : a.keepsSlot := by
  cases a <;> simp_all [Stmt.keepsSlot, Stmt.gang]

/-- What a core was charged and will be charged is kept by the driver. -/
theorem exec_busy (hQ : Queued P s (a ::ₘ R)) (hC : Counts s (a ::ₘ R)) (hS : Slotted s)
    (hg : a.gang) (h : Rknpu.exec P a x s = some (s', p)) (d : Nat) :
    s'.busyTime d + s'.unaccounted P d = s.busyTime d + s.unaccounted P d := by
  by_cases hp : ∃ c, a = .pickUp c
  · obtain ⟨c, rfl⟩ := hp
    exact pickUp_busy hQ h d
  by_cases hr : ∃ j r c, a = .releaseCore j r c
  · obtain ⟨j, r, c, rfl⟩ := hr
    exact releaseCore_busy hQ hC hS h d
  push Not at hp hr
  obtain ⟨hbusy, hclock, hrec⟩ := exec_times hg hp hr h
  have hs := exec_slot (keepsSlot_of_gang hg hp hr) h
  rw [hbusy, unaccounted_congr (congrFun hs d) hclock fun j hj => ⟨?_, hrec j⟩]
  refine committed_congr (hQ.mask_exec h (hQ.enqueued_of_slot hj)) fun e => ?_
  exact count_pickup (hp e) h

end Driver

variable {P} {s s' : State} {B R : Multiset Stmt} {a : Stmt} {x : Int} {p : List Stmt} {j : JobId}
  {c : Nat} {C : Conf State Stmt}

def Stmt.known (a : Stmt) : Prop := ∀ b, a = .drv b → b.gang

theorem known_drv {p : List Rknpu.Stmt} (h : ∀ b ∈ p, b.gang) : ∀ b ∈ p.map Stmt.drv, b.known := by
  intro b hb c hc
  obtain ⟨d, hd, hdb⟩ := List.mem_map.mp hb
  cases hdb.trans hc
  exact h _ hd

theorem known (hC : Reach (machine P) timedCalls State.init C) : ∀ a ∈ C.pending, a.known := by
  refine hC.pending_all Stmt.known ?_ ?_
  · intro s B a x s' p ha _ h
    cases a with
    | drv b =>
      simp only [machine, exec, Option.map_eq_some_iff] at h
      obtain ⟨⟨t, l⟩, hr, he⟩ := h
      cases he
      exact known_drv (exec_gang (ha b rfl) hr)
    | hrtimer i =>
      simp only [machine, exec, hrtimer, Option.some.injEq] at h
      split at h <;> cases h <;> simp [Stmt.known]
  · intro s B e s' p hG h
    cases e with
    | tick d | timer =>
      cases h
      simp [Stmt.known]
    | drv o =>
      simp only [machine, occur, Option.map_eq_some_iff] at h
      obtain ⟨⟨t, l⟩, hr, he⟩ := h
      cases he
      refine known_drv ?_
      cases o with
      | completion d =>
        obtain ⟨i, n, -, -, rfl, -⟩ := completion_effect hr
        simp [Stmt.gang]
      | next d =>
        simp only [Rknpu.occur] at hr
        split at hr <;> cases hr
        simp [Stmt.gang]
      | schedule =>
        cases hr
        simp [Stmt.gang]
      | _ => exact hG.elim

structure SameButTimes (d d' : Dev) : Prop where
  jobNum : d'.jobNum = d.jobNum
  counters : ∀ j, (d'.jobs j).counters = (d.jobs j).counters
  todoList : d'.todoList = d.todoList
  slot : d'.slot = d.slot
  engine : d'.engine = d.engine
  log : d'.log = d.log

theorem SameButTimes.calm {d d' : Dev} (h : SameButTimes d d') : Calm d d' :=
  .of_eq h.jobNum h.counters h.todoList h.slot h.engine h.log

theorem SameButTimes.committed {d d' : Dev} (h : SameButTimes d d') (j : JobId) :
    d'.committed P j = d.committed P j :=
  committed_congr (counters_fields (h.counters j)).1 fun _ => by rw [h.log]

theorem charge_same (d : Dev) (i : Nat) : SameButTimes d (charge d i) := by
  unfold charge
  split
  · exact ⟨rfl, counters_update rfl, rfl, rfl, rfl, rfl⟩
  · exact ⟨rfl, fun _ => rfl, rfl, rfl, rfl, rfl⟩

theorem hrtimer_same (s : State) (i : Nat) : SameButTimes s.dev (hrtimer P s i).1.dev := by
  unfold hrtimer
  split
  · obtain ⟨h₁, h₂, h₃, h₄, h₅, h₆⟩ := charge_same s.dev i
    exact ⟨h₁, h₂, h₃, h₄, h₅, h₆⟩
  · exact ⟨rfl, fun _ => rfl, rfl, rfl, rfl, rfl⟩

namespace Base

theorem same {B' : Multiset Stmt} (hI : Base P s B) (hd : SameButTimes s.dev s'.dev)
    (hB : B'.filterMap Stmt.driver = B.filterMap Stmt.driver) : Base P s' B' := by
  obtain ⟨hQ, hC, hS⟩ := hI
  rw [← hB] at hQ hC
  refine ⟨?_, ?_, fun c j => by rw [hd.slot, hd.log]; exact hS c j⟩
  · simpa using hQ.settled_env (p := []) hd.calm.quiet (by simp)
  · simpa using hC.light_env (p := []) hd.calm (by simp)

theorem drv {b : Rknpu.Stmt} (hI : Base P s (.drv b ::ₘ R)) :
    Queued P s.dev (b ::ₘ R.filterMap Stmt.driver) ∧
      Counts s.dev (b ::ₘ R.filterMap Stmt.driver) ∧ Slotted s.dev := by
  have hB : (Stmt.drv b ::ₘ R).filterMap Stmt.driver = b ::ₘ R.filterMap Stmt.driver :=
    Multiset.filterMap_cons_some _ _ _ rfl
  rw [← hB]
  exact ⟨hI.queued, hI.counts, hI.slotted⟩

theorem exec (hK : a.known) (hI : Base P s (a ::ₘ R)) (h : BusyTime.exec P a x s = some (s', p)) :
    Base P s' ((p : Multiset Stmt) + R) := by
  cases a with
  | drv b =>
    obtain ⟨hQ, hC, hS⟩ := hI.drv
    simp only [BusyTime.exec, Option.map_eq_some_iff] at h
    obtain ⟨⟨t, l⟩, hr, he⟩ := h
    cases he
    have hg : Counts.Genuine s.dev (R.filterMap Stmt.driver) b := by
      rintro c j rfl
      cases hK _ rfl
    have hev : b.evicts = false := by
      have hk := hK b rfl
      cases b <;> first | rfl | cases hk
    refine ⟨?_, ?_, hS.exec hQ hC hev hr⟩
    · rw [pending_embed (f := Stmt.drv) fun _ => rfl]
      exact hQ.exec hr
    · rw [pending_embed (f := Stmt.drv) fun _ => rfl]
      exact hC.exec hQ hg hr
  | hrtimer i =>
    have hsame := hrtimer_same (P := P) s i
    simp only [BusyTime.exec, Option.some.injEq] at h
    rw [h] at hsame
    refine hI.same hsame (pending_hidden rfl ?_)
    simp only [hrtimer] at h
    split at h <;> cases h <;> rfl

theorem occur {e : Occurrence} (hI : Base P s R) (h : BusyTime.occur P e s = some (s', p)) :
    Base P s' ((p : Multiset Stmt) + R) := by
  cases e with
  | drv o =>
    simp only [BusyTime.occur, Option.map_eq_some_iff] at h
    obtain ⟨⟨t, l⟩, hr, he⟩ := h
    cases he
    refine ⟨?_, ?_, hI.slotted.occur hr⟩
    · rw [pending_embed (f := Stmt.drv) fun _ => rfl]
      exact hI.queued.occur hr
    · rw [pending_embed (f := Stmt.drv) fun _ => rfl]
      exact hI.counts.occur hI.queued hr
  | tick d =>
    cases h
    exact hI.same ⟨rfl, fun _ => rfl, rfl, rfl, rfl, rfl⟩ (by rw [Multiset.coe_nil, zero_add])
  | timer =>
    cases h
    refine hI.same ⟨rfl, fun _ => rfl, rfl, rfl, rfl, rfl⟩ ?_
    rw [Multiset.filterMap_add]
    exact zero_add _

theorem init : Base P State.init 0 :=
  ⟨Multiset.filterMap_zero Stmt.driver ▸ Queued.init,
    Multiset.filterMap_zero Stmt.driver ▸ Counts.init, Slotted.init⟩

theorem reach (hC : Reach (machine P) timedCalls State.init C) : Base P C.shared C.pending :=
  hC.invariant_with (fun _ B => ∀ a ∈ B, a.known) (Base P) (fun _ hC => known hC) init
    (fun _ R a _ _ _ hJ hI _ h => hI.exec (hJ a (Multiset.mem_cons_self a R)) h)
    (fun _ _ _ _ _ _ hI _ h => hI.occur h)

end Base

def Exact (P : Platform) (s : State) (c : Nat) : Prop :=
  s.snapshots c + s.dev.busyTime c + s.dev.unaccounted P c = s.occupied c

/-- A charge loses nothing if the times of the job are those of one core. -/
theorem charge_busy {d : Dev} {D : Multiset Rknpu.Stmt} {i : Nat} (hQ : Queued P d D)
    (hG : ∀ j, d.slot i = some j → d.clock = (d.jobs j).hwRecoderTime ∨
      d.committed P j ∧ ∀ e < P.config.numIrqs, e ≠ i → d.slot e ≠ some j) (c : Nat) :
    (charge d i).busyTime c + (charge d i).unaccounted P c = d.busyTime c + d.unaccounted P c := by
  cases hi : d.slot i with
  | none => simp only [charge, hi]
  | some j =>
    have hsame := charge_same d i
    obtain ⟨hbusy, hclock, hrec⟩ : (charge d i).busyTime = Function.update d.busyTime i
        (d.busyTime i + (d.clock - (d.jobs j).hwRecoderTime)) ∧ (charge d i).clock = d.clock ∧
        ∀ k, ((charge d i).jobs k).hwRecoderTime =
          if k = j then d.clock else (d.jobs k).hwRecoderTime := by
      simp only [charge, hi]
      refine ⟨trivial, rfl, fun k => ?_⟩
      simp only [setJob_jobs]
      split <;> rfl
    have hzero : ∀ {e}, d.slot e = some j → (charge d i).unaccounted P e = 0 := fun he => by
      rw [unaccounted_some (by rw [hsame.slot]; exact he), hclock, hrec, if_pos rfl, Int.sub_self,
        ite_self]
    rw [hbusy]
    by_cases hc : c = i
    · subst hc
      rw [hzero hi, Function.update_self, unaccounted_some hi]
      rcases hG j hi with hclock | ⟨hcom, -⟩
      · rw [hclock, Int.sub_self, ite_self]
        omega
      · rw [if_pos hcom]
        omega
    · rw [Function.update_of_ne hc]
      by_cases hj : d.slot c = some j
      · rw [hzero hj, unaccounted_some hj]
        rcases hG j hi with hclock | ⟨-, halone⟩
        · rw [hclock, Int.sub_self, ite_self]
        · have hneeds := hQ.needs_of_picked (hQ.slots j c hj)
          have hlt : c < P.config.numIrqs := of_decide_eq_true (Bool.and_eq_true_iff.mp hneeds).1
          exact absurd hj (halone c hlt hc)
      · refine congrArg (d.busyTime c + ·) (unaccounted_congr (congrFun hsame.slot c) hclock
          fun k hk => ⟨hsame.committed k, ?_⟩)
        have hkj : k ≠ j := by
          rintro rfl
          exact hj hk
        rw [hrec, if_neg hkj]

theorem exact_hrtimer {i : Nat} (hI : Base P s (.hrtimer i ::ₘ R)) (hE : Exact P s c)
    (hG : (chargeGuard P).run s B (.hrtimer i) x)
    (h : BusyTime.exec P (.hrtimer i) x s = some (s', p)) : Exact P s' c := by
  have hbusy := charge_busy hI.queued (fun j => hG i j rfl) c
  simp only [BusyTime.exec, hrtimer, Option.some.injEq] at h
  split at h <;> cases h
  · change Function.update s.snapshots i (s.snapshots i + (charge s.dev i).busyTime i) c +
      Function.update (charge s.dev i).busyTime i 0 c + (charge s.dev i).unaccounted P c =
        s.occupied c
    rw [Exact] at hE
    by_cases hc : c = i
    · subst hc
      rw [Function.update_self, Function.update_self]
      omega
    · rw [Function.update_of_ne hc, Function.update_of_ne hc]
      omega
  · exact hE

theorem exact_tick {d : Nat} (hE : Exact P s c)
    (h : BusyTime.occur P (.tick d) s = some (s', p)) : Exact P s' c := by
  have hcom : ∀ j, s'.dev.committed P j = s.dev.committed P j := fun j => by cases h; rfl
  obtain ⟨hslot, hclock, hrec⟩ : s'.dev.slot = s.dev.slot ∧ s'.dev.clock = s.dev.clock + d ∧
      ∀ j, (s'.dev.jobs j).hwRecoderTime = (s.dev.jobs j).hwRecoderTime := by
    cases h
    exact ⟨rfl, rfl, fun _ => rfl⟩
  obtain ⟨hsnap, hbusy, hocc⟩ : s'.snapshots = s.snapshots ∧ s'.dev.busyTime = s.dev.busyTime ∧
      s'.occupied c = s.occupied c +
        if (s.dev.slot c).any (s.dev.committed P) then (d : Int) else 0 := by
    cases h
    exact ⟨rfl, rfl, rfl⟩
  rw [Exact] at hE ⊢
  rw [hsnap, hbusy, hocc, ← hE]
  cases hc : s.dev.slot c with
  | none =>
    rw [unaccounted_none hc, unaccounted_none (by rw [hslot, hc])]
    simp
  | some j =>
    rw [unaccounted_some hc, unaccounted_some (by rw [hslot, hc]), hcom, hclock, hrec,
      Option.any_some]
    split <;> omega

theorem occur_busy {d d' : Dev} {D : Multiset Rknpu.Stmt} {o : Rknpu.Occurrence}
    {l : List Rknpu.Stmt} (hQ : Queued P d D) (ho : timedCalls.env s B (.drv o))
    (h : Rknpu.occur P o d = some (d', l)) (c : Nat) :
    d'.busyTime c + d'.unaccounted P c = d.busyTime c + d.unaccounted P c := by
  have hslot := occur_slot h
  have hcom : ∀ j, d.slot c = some j → d'.committed P j = d.committed P j := fun j hj =>
    committed_congr (hQ.mask_occur h (hQ.enqueued_of_slot hj)) fun e => occur_count h (by simp)
  obtain ⟨hbusy, hclock, hrec⟩ : d'.busyTime = d.busyTime ∧ d'.clock = d.clock ∧
      ∀ j, d.slot c = some j → (d'.jobs j).hwRecoderTime = (d.jobs j).hwRecoderTime := by
    cases o with
    | next e =>
      simp only [Rknpu.occur] at h
      split at h <;> cases h
      exact ⟨rfl, rfl, fun _ _ => rfl⟩
    | completion e =>
      simp only [Rknpu.occur, Option.map_eq_some_iff] at h
      obtain ⟨r, -, hr⟩ := h
      cases hr
      refine ⟨rfl, rfl, fun j _ => ?_⟩
      simp only [setJob_jobs]
      split
      · rename_i hj
        rw [hj]
      · rfl
    | schedule args fence =>
      cases h
      refine ⟨rfl, rfl, fun j hj => ?_⟩
      have hfresh := hQ.fresh d.jobNum le_rfl
      have henq := hQ.enqueued_of_slot hj
      have hne : j ≠ d.jobNum := by
        rintro rfl
        omega
      exact congrArg Job.hwRecoderTime (Function.update_of_ne hne _ _)
    | _ => exact ho.elim
  rw [hbusy, unaccounted_congr (congrFun hslot c) hclock fun j hj => ⟨hcom j hj, hrec j hj⟩]

/-- Every moment of a committed job is accounted for once, on every core. -/
theorem busy_exact (hC : Reach (machine P) (timedCalls.and (chargeGuard P)) State.init C) (c : Nat) :
    C.shared.snapshots c + C.shared.dev.busyTime c + C.shared.dev.unaccounted P c =
      C.shared.occupied c := by
  refine hC.invariant_with (fun s B => Base P s B ∧ ∀ a ∈ B, a.known) (fun s _ => Exact P s c)
    (fun _ hC => ⟨.reach hC.left, known hC.left⟩) rfl ?_ ?_
  · intro s R a x s' p hJ hE hG h
    cases a with
    | drv b =>
      obtain ⟨hQ, hC, hS⟩ := hJ.1.drv
      have hg := hJ.2 _ (Multiset.mem_cons_self _ _) b rfl
      simp only [machine, exec, Option.map_eq_some_iff] at h
      obtain ⟨⟨t, l⟩, hr, he⟩ := h
      cases he
      have hbusy := exec_busy hQ hC hS hg hr c
      simp only [Exact] at hE ⊢
      omega
    | hrtimer i => exact exact_hrtimer hJ.1 hE hG.2 h
  · intro s R e s' p hJ hE hG h
    cases e with
    | timer =>
      cases h
      exact hE
    | tick d => exact exact_tick hE h
    | drv o =>
      simp only [machine, occur, Option.map_eq_some_iff] at h
      obtain ⟨⟨t, l⟩, hr, he⟩ := h
      cases he
      have hbusy := occur_busy hJ.1.queued hG.1 hr c
      simp only [Exact] at hE ⊢
      omega

def oneCoreRun : List (Label Int Occurrence) :=
  [Label.env (Occurrence.drv (.schedule (oneTask 1 1) false))] ++
    List.replicate 20 (Label.run 0 0) ++
    [Label.env (Occurrence.tick 5), .env .timer] ++ List.replicate 2 (Label.run 2 0) ++
    [Label.env (Occurrence.tick 3), .env (.drv (.completion 0))] ++
    List.replicate 2 (Label.run 4 0) ++ [Label.env (Occurrence.tick 1)]

def chargeTest (s : Dev) : Stmt → Bool
  | .hrtimer 0 => s.slot 0 == some 0 && s.committed (board rk356xConfig) 0
  | .hrtimer (c + 1) => s.slot (c + 1) == none
  | .drv _ => true

theorem busy_exact_oneCoreRun : ∃ s : State,
    s.snapshots 0 = 5 ∧ s.dev.busyTime 0 = 3 ∧ s.dev.slot 0 = none ∧
      s.snapshots 0 + s.dev.busyTime 0 + s.dev.unaccounted (board rk356xConfig) 0 = s.occupied 0 := by
  obtain ⟨C, hC, ht⟩ := Reach.exists_of_steps (machine (board rk356xConfig))
    (timedCalls.and (chargeGuard (board rk356xConfig))) State.init oneCoreRun
    (fun C a _ => chargeTest C.shared.dev a)
    (fun C => C.shared.snapshots 0 == 5 && C.shared.dev.busyTime 0 == 3 &&
      C.shared.dev.slot 0 == none)
    (fun C a _ h => by
      refine ⟨trivial, ?_⟩
      rintro (_ | c) j rfl hj
      · simp only [chargeTest, Bool.and_eq_true, beq_iff_eq] at h
        obtain rfl : j = 0 := Option.some.inj (hj.symm.trans h.1)
        exact .inr ⟨h.2, fun d hd hne => absurd (Nat.lt_one_iff.mp hd) hne⟩
      · simp [chargeTest, hj] at h)
    (fun e he _ _ => by
      refine ⟨?_, trivial⟩
      simp [oneCoreRun] at he
      rcases he with rfl | rfl | rfl | rfl | rfl | rfl <;> trivial)
    (by decide +kernel)
  simp only [Bool.and_eq_true, beq_iff_eq] at ht
  exact ⟨C.shared, ht.1.1, ht.1.2, ht.2, busy_exact hC 0⟩

def twoCoreRun : List (Label Int Occurrence) :=
  [Label.env (Occurrence.drv (.schedule (oneTask 1 3) false))] ++
    List.replicate 38 (Label.run 0 0) ++
    [Label.env (Occurrence.tick 5), .env .timer] ++ List.replicate 2 (Label.run 2 0)

theorem shared_time_lost : ¬∀ (P : Platform) (C : Conf State Stmt),
    Reach (machine P) timedCalls State.init C → ∀ c,
      C.shared.snapshots c + C.shared.dev.busyTime c + C.shared.dev.unaccounted P c =
        C.shared.occupied c := by
  intro hall
  obtain ⟨C, hC, ht⟩ := Reach.exists_of_steps (machine (board rk3588Config)) timedCalls
    State.init twoCoreRun (fun _ _ _ => true)
    (fun C => C.shared.snapshots 1 + C.shared.dev.busyTime 1 +
      C.shared.dev.unaccounted (board rk3588Config) 1 == 0 && C.shared.occupied 1 == 5)
    (fun _ _ _ _ => trivial)
    (fun e he _ _ => by
      simp [twoCoreRun] at he
      rcases he with rfl | rfl | rfl <;> trivial)
    (by decide +kernel)
  simp only [Bool.and_eq_true, beq_iff_eq] at ht
  have := hall _ C hC 1
  rw [ht.1, ht.2] at this
  cases this

end BusyTime

end Rknpu

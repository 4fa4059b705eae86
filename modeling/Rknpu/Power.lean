import Rknpu.Interleaving.Machine
import Rknpu.Job

namespace Rknpu.Power

open Interleaving

/-- What `rknpu_power_on` enables: the regulators, the clocks, the devices of the power
domains and the runtime-PM count of the NPU. -/
inductive Resource where
  | vdd
  | mem
  | clks
  | npu0
  | npu1
  | npu2
  | runtime
deriving DecidableEq

structure Board where
  vdd : Bool
  mem : Bool
  multipleDomains : Bool
  npu0 : Bool
  npu1 : Bool
  npu2 : Bool
  devfreq : Bool

def Board.has (b : Board) : Resource → Bool
  | .vdd => b.vdd
  | .mem => b.mem
  | .clks => true
  | .npu0 => b.multipleDomains && b.npu0
  | .npu1 => b.multipleDomains && b.npu1
  | .npu2 => b.multipleDomains && b.npu2
  | .runtime => true

/-- The outstanding enables of every resource, and whether a power function holds
`devfreq_lock`. -/
@[ext] structure Rails where
  enables : Resource → Int
  devfreqLock : Bool

namespace Rails

variable (b : Board) (t : Rails)

def enable (r : Resource) : Rails :=
  { t with enables := Function.update t.enables r (t.enables r + 1) }

def disable (r : Resource) : Rails :=
  { t with enables := Function.update t.enables r (t.enables r - 1) }

/-- `rknpu_devfreq_lock` -/
def lockDevfreq : Rails := { t with devfreqLock := t.devfreqLock || b.devfreq }

/-- `rknpu_devfreq_unlock` -/
def unlockDevfreq : Rails := { t with devfreqLock := t.devfreqLock && !b.devfreq }

end Rails

inductive PowerStep where
  | enable (r : Resource)
  | devfreqLock
deriving DecidableEq

/-- What a call outside the driver answers: the result for each resource that is enabled,
and any other result. -/
structure Reply where
  enable : Resource → Int
  ret : Int

variable (b : Board)

/-- Regulators and clocks report errors by any value but 0, runtime PM by negative ones. -/
def fails (x : Reply) : Resource → Bool
  | .vdd => x.enable .vdd != 0
  | .mem => x.enable .mem != 0
  | .clks => x.enable .clks != 0
  | r => x.enable r < 0

/-- The error path of `rknpu_power_on`: what was done is undone, the last step first. -/
def unwind : List PowerStep → Rails → Rails
  | [], t => t
  | .enable r :: l, t => unwind l (t.disable r)
  | .devfreqLock :: l, t => unwind l (t.unlockDevfreq b)

/-- The steps of `rknpu_power_on`; `l` are those it has done. -/
def enableAll (x : Reply) : List PowerStep → List PowerStep → Rails → Rails × Int
  | [], _, t => (t.unlockDevfreq b, 0)
  | .enable r :: todo, l, t =>
    if b.has r then
      if fails x r then (unwind b l t, x.enable r)
      else enableAll x todo (.enable r :: l) (t.enable r)
    else enableAll x todo l t
  | .devfreqLock :: todo, l, t => enableAll x todo (.devfreqLock :: l) (t.lockDevfreq b)

def powerOnSteps : List PowerStep :=
  [.enable .vdd, .enable .mem, .enable .clks, .devfreqLock, .enable .npu0, .enable .npu1,
    .enable .npu2, .enable .runtime]

/-- `rknpu_power_on` -/
def powerOn (x : Reply) (t : Rails) : Rails × Int := enableAll b x powerOnSteps [] t

def disableAll (l : List Resource) (t : Rails) : Rails :=
  l.foldl (fun t r => if b.has r then t.disable r else t) t

/-- `rknpu_power_off`; the IOMMU may still be enabled after the poll, and then the
runtime-PM count is taken again. -/
def powerOff (x : Reply) (t : Rails) : Rails × Int :=
  let t := (t.lockDevfreq b).disable .runtime
  if b.multipleDomains then
    if x.ret ≠ 0 then ((t.enable .runtime).unlockDevfreq b, x.ret)
    else (disableAll b [.clks, .vdd, .mem]
      ((disableAll b [.npu2, .npu1, .npu0] t).unlockDevfreq b), 0)
  else (disableAll b [.clks, .vdd, .mem] (t.unlockDevfreq b), 0)

def Rails.off : Rails := ⟨fun _ => 0, false⟩

def Rails.on : Rails := ⟨fun r => if b.has r then 1 else 0, false⟩

variable {b} {x : Reply}

theorem unlock_lock {t : Rails} (h : t.devfreqLock = false) :
    (t.lockDevfreq b).unlockDevfreq b = t := by
  ext
  · rfl
  · cases hb : b.devfreq <;> simp [Rails.lockDevfreq, Rails.unlockDevfreq, h, hb]

theorem disable_enable (t : Rails) (r : Resource) : (t.enable r).disable r = t := by
  ext r'
  · by_cases h : r' = r
    · subst h
      simp [Rails.enable, Rails.disable]
    · simp [Rails.enable, Rails.disable]
  · rfl

/-- A failed `rknpu_power_on` leaves everything as it was. -/
theorem enableAll_failed (todo l : List PowerStep) (t : Rails)
    (hlock : .devfreqLock ∈ todo → t.devfreqLock = false) (hnodup : todo.Nodup)
    (h : (enableAll b x todo l t).2 ≠ 0) :
    (enableAll b x todo l t).1 = unwind b l t := by
  induction todo generalizing l t with
  | nil => exact absurd rfl h
  | cons st todo ih =>
    obtain ⟨hst, hrest⟩ := List.nodup_cons.mp hnodup
    cases st with
    | enable r =>
      simp only [enableAll] at h ⊢
      have hlock' : .devfreqLock ∈ todo → t.devfreqLock = false := fun hm =>
        hlock (List.mem_cons_of_mem _ hm)
      by_cases hb : b.has r
      · rw [if_pos hb] at h ⊢
        by_cases hf : fails x r
        · rw [if_pos hf]
        · rw [if_neg hf] at h ⊢
          rw [ih (.enable r :: l) (t.enable r) hlock' hrest h, unwind, disable_enable]
      · rw [if_neg hb] at h ⊢
        exact ih _ _ hlock' hrest h
    | devfreqLock =>
      simp only [enableAll] at h ⊢
      rw [ih _ _ (fun hm => absurd hm hst) hrest h, unwind,
        unlock_lock (hlock List.mem_cons_self)]

theorem enableAll_succeeded (todo l : List PowerStep) (t : Rails)
    (h : (enableAll b x todo l t).2 = 0) (r : Resource) :
    (enableAll b x todo l t).1.enables r =
      t.enables r + if b.has r then (todo.count (.enable r) : Int) else 0 := by
  induction todo generalizing l t with
  | nil => simp [enableAll, Rails.unlockDevfreq]
  | cons st todo ih =>
    cases st with
    | enable r' =>
      simp only [enableAll] at h ⊢
      by_cases hb : b.has r'
      · rw [if_pos hb] at h ⊢
        by_cases hf : fails x r'
        · rw [if_pos hf] at h
          cases r' <;> simp_all [fails]
        · rw [if_neg hf] at h ⊢
          rw [ih _ _ h, List.count_cons]
          by_cases hr : r' = r
          · subst hr
            simp [Rails.enable, hb]
            omega
          · simp [Rails.enable, hr, Ne.symm hr]
      · rw [if_neg hb] at h ⊢
        rw [ih _ _ h, List.count_cons]
        by_cases hr : r' = r
        · subst hr
          simp [hb]
        · simp [hr]
    | devfreqLock =>
      simp only [enableAll] at h ⊢
      rw [ih _ _ h, List.count_cons]
      simp [Rails.lockDevfreq]

theorem enableAll_unlocked (todo l : List PowerStep) (t : Rails)
    (hlock : t.devfreqLock → b.devfreq) (h : (enableAll b x todo l t).2 = 0) :
    (enableAll b x todo l t).1.devfreqLock = false := by
  induction todo generalizing l t with
  | nil =>
    cases hb : b.devfreq <;> simp_all [enableAll, Rails.unlockDevfreq]
  | cons st todo ih =>
    cases st with
    | enable r =>
      simp only [enableAll] at h ⊢
      split at h <;> rename_i hb
      · rw [if_pos hb]
        split at h <;> rename_i hf
        · cases r <;> simp_all [fails]
        · rw [if_neg hf]
          exact ih _ _ hlock h
      · rw [if_neg hb]
        exact ih _ _ hlock h
    | devfreqLock =>
      simp only [enableAll] at h ⊢
      refine ih _ _ (fun hl => ?_) h
      simp only [Rails.lockDevfreq, Bool.or_eq_true] at hl
      exact hl.elim hlock id

theorem powerOn_failed (h : (powerOn b x .off).2 ≠ 0) : (powerOn b x .off).1 = .off :=
  enableAll_failed _ _ _ (fun _ => rfl) (by decide) h

theorem powerOn_succeeded (h : (powerOn b x .off).2 = 0) : (powerOn b x .off).1 = .on b := by
  ext r
  · rw [powerOn, enableAll_succeeded _ _ _ h]
    cases r <;> simp [Rails.off, Rails.on, powerOnSteps]
  · exact enableAll_unlocked _ _ _ (by simp [Rails.off]) h

theorem powerOff_failed (h : (powerOff b x (.on b)).2 ≠ 0) : (powerOff b x (.on b)).1 = .on b := by
  unfold powerOff at h ⊢
  split <;> rename_i hm
  · rw [if_pos hm] at h
    split <;> rename_i hx
    · ext r
      · cases r <;> simp [Rails.on, Rails.enable, Rails.disable, Rails.lockDevfreq,
          Rails.unlockDevfreq]
      · cases hb : b.devfreq <;>
          simp [Rails.on, Rails.enable, Rails.disable, Rails.lockDevfreq, Rails.unlockDevfreq, hb]
    · rw [if_neg hx] at h
      exact absurd rfl h
  · rw [if_neg hm] at h
    exact absurd rfl h

theorem disableAll_enables (l : List Resource) (t : Rails) (r : Resource) :
    (disableAll b l t).enables r = t.enables r - if b.has r then (l.count r : Int) else 0 := by
  induction l generalizing t with
  | nil => simp [disableAll]
  | cons r' l ih =>
    have hcons : disableAll b (r' :: l) t =
        disableAll b l (if b.has r' then t.disable r' else t) := rfl
    rw [hcons, ih, List.count_cons]
    by_cases hr : r' = r
    · subst hr
      split <;> simp [Rails.disable]
      omega
    · split <;> simp [Rails.disable, hr, Ne.symm hr]

theorem disableAll_devfreqLock (l : List Resource) (t : Rails) :
    (disableAll b l t).devfreqLock = t.devfreqLock := by
  induction l generalizing t with
  | nil => rfl
  | cons r l ih =>
    have hcons : disableAll b (r :: l) t =
        disableAll b l (if b.has r then t.disable r else t) := rfl
    rw [hcons, ih]
    split <;> rfl

theorem powerOff_succeeded (h : (powerOff b x (.on b)).2 = 0) : (powerOff b x (.on b)).1 = .off := by
  have hlock :
      ((Rails.on b).lockDevfreq b |>.disable .runtime |>.unlockDevfreq b).devfreqLock = false := by
    cases hb : b.devfreq <;>
      simp [Rails.on, Rails.disable, Rails.lockDevfreq, Rails.unlockDevfreq, hb]
  unfold powerOff at h ⊢
  split <;> rename_i hm
  · rw [if_pos hm] at h
    split <;> rename_i hx
    · rw [if_pos hx] at h
      exact absurd h hx
    · ext r
      · simp only [disableAll_enables, Rails.unlockDevfreq]
        cases r <;> simp [Rails.on, Rails.off, Rails.disable, Rails.lockDevfreq, Board.has, hm]
      · rw [disableAll_devfreqLock, Rails.unlockDevfreq, disableAll_devfreqLock]
        exact hlock
  · ext r
    · simp only [disableAll_enables, Rails.unlockDevfreq]
      cases r <;> simp [Rails.on, Rails.off, Rails.disable, Rails.lockDevfreq, Board.has, hm]
    · simp only [disableAll_devfreqLock]
      exact hlock

/-- Who takes a power reference: a DRM ioctl, a system suspend, the release of a GEM
object, a debugfs access to the frequency, or an `on` written to the debugfs node `power`. -/
inductive Caller where
  | ioctl
  | suspend
  | freeObject
  | freq
  | cmdline
deriving DecidableEq

/-- The caller looks at the result of `rknpu_power_get`. -/
def Caller.checks : Caller → Bool
  | .ioctl | .suspend => true
  | _ => false

/-- Whose reference is dropped: one of the caller's own, none of it as its get has failed,
the one of the delayed work, of a failed power-off, or of an `off` written to debugfs. -/
inductive Release where
  | user
  | unowned
  | work
  | followUp
  | off
deriving DecidableEq

inductive Event where
  | drop (k : Release)
  | took
  | gave (n : Int)
deriving DecidableEq

/-- The power fields of `struct rknpu_device`: `delay` is `power_put_delay`, `work` says
that `power_off_work` is queued, and `onRefs` counts the references of `on` writes that no
`off` has claimed. -/
structure State where
  refcount : Int
  cmdline : Int
  delay : Nat
  lock : Bool
  rails : Rails
  work : Bool
  onRefs : Nat
  log : List Event

/-- After a probe whose `rknpu_power_off` has worked. -/
def State.init : State where
  refcount := 0
  cmdline := 0
  delay := 3000
  lock := false
  rails := .off
  work := false
  onRefs := 0
  log := []

/-- After any probe: `rknpu_probe` sets `power_refcount` to 0 whatever its `rknpu_power_off`
has returned. -/
def State.probed (b : Board) (x : Reply) : State :=
  { State.init with rails := (powerOff b x (.on b)).1 }

inductive Stmt where
  -- rknpu_power_get and its caller
  | get (u : Caller)
  | getInc (u : Caller)
  | getOn (u : Caller)
  | getDec (u : Caller) (ret : Int)
  | getUnlock (u : Caller) (ret : Int)
  | got (u : Caller) (ret : Int)
  | suspended
  -- rknpu_power_put, and rknpu_power_off_delay_work
  | put (k : Release)
  | putDec (k : Release)
  | putOff (k : Release)
  | putInc (k : Release) (ret : Int)
  | putUnlock (k : Release) (ret : Int)
  -- rknpu_power_put_delay
  | putDelay (k : Release)
  | delayLock (k : Release)
  | delayRead (k : Release)
  | delayQueue (k : Release)
  | delayDec (k : Release)
  | delayUnlock
  -- rknpu_power_set; `offRead c` has counted `cmdline_power_refcount` down from `c`
  | onInc
  | offTest
  | offDec
  | offRead (c : Nat)
  | offSub (n : Int)
  | offSet
deriving DecidableEq

/-- `atomic_dec_if_positive` -/
def decIfPositive (n : Int) : Int := if 0 ≤ n - 1 then n - 1 else n

/-- What a caller does once `rknpu_power_get` has returned. -/
def afterGet : Caller → Int → List Stmt
  | .ioctl, ret => if ret ≠ 0 then [] else [.putDelay .user]
  | .suspend, ret => if ret ≠ 0 then [] else [.suspended]
  | .freeObject, ret => [.putDelay (if ret ≠ 0 then .unowned else .user)]
  | .freq, ret => [.put (if ret ≠ 0 then .unowned else .user)]
  | .cmdline, _ => []

variable (b)

def exec (a : Stmt) (x : Reply) (s : State) : Option (State × List Stmt) :=
  match a with
  | .get u => if s.lock then none else some ({ s with lock := true }, [.getInc u])
  | .getInc u =>
    some ({ s with refcount := s.refcount + 1 },
      if s.refcount + 1 = 1 then [.getOn u] else [.getUnlock u 0])
  | .getOn u =>
    let r := powerOn b x s.rails
    some ({ s with rails := r.1 }, if r.2 ≠ 0 then [.getDec u r.2] else [.getUnlock u 0])
  | .getDec u ret => some ({ s with refcount := s.refcount - 1 }, [.getUnlock u ret])
  | .getUnlock u ret => some ({ s with lock := false }, [.got u ret])
  | .got u ret =>
    some (if u = .cmdline ∧ ret = 0 then
        { s with onRefs := s.onRefs + 1, log := s.log ++ [.took] }
      else s, afterGet u ret)
  -- pm_runtime_force_suspend; if it succeeds, rknpu_resume follows later
  | .suspended => some (s, if x.ret ≠ 0 then [.put .user] else [.putDelay .user])
  | .put k => if s.lock then none else some ({ s with lock := true }, [.putDec k])
  | .putDec k =>
    some ({ s with
        refcount := decIfPositive s.refcount
        log := if 0 < s.refcount then s.log ++ [.drop k] else s.log },
      if s.refcount - 1 = 0 then [.putOff k] else [.putUnlock k 0])
  | .putOff k =>
    let r := powerOff b x s.rails
    some ({ s with rails := r.1 }, if r.2 ≠ 0 then [.putInc k r.2] else [.putUnlock k 0])
  | .putInc k ret => some ({ s with refcount := s.refcount + 1 }, [.putUnlock k ret])
  | .putUnlock _ ret =>
    some ({ s with lock := false }, if ret ≠ 0 then [.putDelay .followUp] else [])
  | .putDelay k => some (s, if s.delay = 0 then [.put k] else [.delayLock k])
  | .delayLock k => if s.lock then none else some ({ s with lock := true }, [.delayRead k])
  | .delayRead k => some (s, if s.refcount = 1 then [.delayQueue k] else [.delayDec k])
  | .delayQueue k => some ({ s with work := true, log := s.log ++ [.drop k] }, [.delayUnlock])
  | .delayDec k =>
    some ({ s with
        refcount := decIfPositive s.refcount
        log := if 0 < s.refcount then s.log ++ [.drop k] else s.log }, [.delayUnlock])
  | .delayUnlock => some ({ s with lock := false }, [])
  | .onInc => some ({ s with cmdline := s.cmdline + 1 }, [.get .cmdline])
  | .offTest => some (s, if 0 < s.refcount then [.offDec] else [])
  | .offDec =>
    if 0 ≤ s.cmdline - 1 then
      some ({ s with cmdline := s.cmdline - 1, onRefs := 0 }, [.offRead s.cmdline.toNat])
    else some (s, [])
  | .offRead _ => some (s, [.offSub s.cmdline])
  | .offSub n =>
    some ({ s with refcount := s.refcount - n, log := s.log ++ [.gave (n + 1)] }, [.offSet])
  | .offSet => some ({ s with cmdline := 0 }, [.put .off])

inductive Occurrence where
  | ioctl
  | suspend
  | freeObject
  | freq
  /-- A write to the debugfs node `power`. -/
  | on
  | off
  /-- A write to the debugfs node `delayms`. -/
  | setDelay (d : Nat)
  /-- The delayed work starts. -/
  | timer

def occur (e : Occurrence) (s : State) : Option (State × List Stmt) :=
  match e with
  | .ioctl => some (s, [.get .ioctl])
  | .suspend => some (s, [.get .suspend])
  | .freeObject => some (s, [.get .freeObject])
  | .freq => some (s, [.get .freq])
  | .on => some (s, [.onInc])
  | .off => some (s, [.offTest])
  | .setDelay d => some ({ s with delay := d }, [])
  | .timer => if s.work then some ({ s with work := false }, [.put .work]) else none

def machine : Machine State Stmt Reply Occurrence := ⟨exec b, occur⟩

end Rknpu.Power

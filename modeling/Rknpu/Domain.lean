import Rknpu.Interleaving.Machine
import Rknpu.Job

namespace Rknpu

/-- `RKNPU_MAX_IOMMU_DOMAIN_NUM` -/
def maxDomains : Int := 16

/-- `iommu_domain_id` and `iommu_domain_refcount`. -/
structure Pin where
  id : Int
  refs : Int
deriving DecidableEq

/-- What a successful `rknpu_iommu_domain_get_and_switch` does to them: nobody else may
need another domain. -/
def Pin.get (p : Pin) (d : Int) : Option Pin :=
  if d = p.id ∨ (p.refs = 0 ∧ 0 ≤ d ∧ d < maxDomains) then some ⟨d, p.refs + 1⟩ else none

/-- `rknpu_iommu_domain_put` -/
def Pin.put (p : Pin) : Pin := { p with refs := p.refs - 1 }

namespace Domain

open Interleaving

/-- What probe has found: `iommu_en`, whether the device is on a bus, `bypass_soft_reset`. -/
structure Probe where
  iommuEn : Bool
  bus : Bool
  bypassSoftReset : Bool

/-- `lock` is `domain_lock`, and a `struct iommu_domain` is known by its number. `wrote`
lists the calls that have written one of the fields of `pin`, and `calls` counts all calls. -/
structure State where
  pin : Pin
  lock : Bool
  domains : Int → Option Nat
  attached : Option Nat
  resetLock : Bool
  calls : Nat
  wrote : List Nat

/-- After `rknpu_iommu_init_domain`, where the device was attached to domain `dom`. -/
def State.init (P : Probe) (dom : Nat) : State where
  pin := ⟨0, 0⟩
  lock := false
  domains d := if P.iommuEn ∧ d = 0 then some dom else none
  attached := if P.iommuEn then some dom else none
  resetLock := false
  calls := 0
  wrote := []

structure Reply where
  ret : Int
  domain : Option Nat

inductive Stmt where
  -- rknpu_iommu_domain_get_and_switch
  | lock (n : Nat) (d : Int)
  | check (n : Nat) (d : Int)
  | refcount (n : Nat) (d : Int)
  | inc (n : Nat) (d : Int)
  | unlock (n : Nat) (d : Int)
  | fail (n : Nat) (d ret : Int)
  | retry (n : Nat) (d : Int)
  | timeout (n : Nat) (d : Int)
  -- rknpu_iommu_switch_domain
  | switchDomain (n : Nat) (d : Int)
  | source (n : Nat) (d : Int)
  | dest (n : Nat) (d : Int) (src : Option Nat)
  | alloc (n : Nat) (d : Int) (src : Option Nat)
  | detach (n : Nat) (d : Int) (src : Option Nat) (dst : Nat) (new : Bool)
  | attach (n : Nat) (d : Int) (src : Option Nat) (dst : Nat) (new : Bool)
  | reattach (n : Nat) (d : Int) (src : Option Nat) (ret : Int)
  | switchId (n : Nat) (d : Int) (dst : Nat) (new : Bool)
  | switchTable (n : Nat) (d : Int) (dst : Nat)
  -- the caller
  | returned (n : Nat) (d ret : Int)
  | put (n : Nat) (d : Int)
  -- rknpu_soft_reset
  | softReset
  | resetDomain
  | resetDetach (dom : Nat)
  | resetAttach (dom : Nat)
  | resetEnd
deriving DecidableEq

variable (P : Probe)

/-- The checks at the start of `rknpu_iommu_switch_domain`. -/
def switchDomain (s : State) (n : Nat) (d : Int) : List Stmt :=
  if !P.iommuEn then [.fail n d (-einval)]
  else if d < 0 ∨ maxDomains - 1 < d then [.fail n d (-einval)]
  else if !P.bus then [.fail n d (-efault)]
  else if d = s.pin.id then [.inc n d]
  else [.source n d]

def exec (a : Stmt) (x : Reply) (s : State) : Option (State × List Stmt) :=
  match a with
  | .lock n d => if s.lock then none else some ({ s with lock := true }, [.check n d])
  | .check n d => some (s, if d = s.pin.id then [.inc n d] else [.refcount n d])
  | .refcount n d => some (s, if s.pin.refs = 0 then [.switchDomain n d] else [.retry n d])
  | .inc n d =>
    some ({ s with pin := { s.pin with refs := s.pin.refs + 1 }, wrote := n :: s.wrote },
      [.unlock n d])
  | .unlock n d => some ({ s with lock := false }, [.returned n d 0])
  | .fail n d ret => some ({ s with lock := false }, [.returned n d ret])
  | .retry n d => some ({ s with lock := false }, [.timeout n d])
  | .timeout n d => some (s, if x.ret ≠ 0 then [.returned n d (-einval)] else [.lock n d])
  | .switchDomain n d => some (s, switchDomain P s n d)
  | .source n d =>
    some (s, if s.attached ≠ s.domains s.pin.id then [.fail n d (-einval)]
      else [.dest n d s.attached])
  | .dest n d src =>
    some (s, match s.domains d with
      | some dst => [.detach n d src dst false]
      | none => [.alloc n d src])
  | .alloc n d src =>
    some (s, match x.domain with
      | some dst => [.detach n d src dst true]
      | none => [.fail n d (-eio)])
  -- what the device is left with is the kernel's business
  | .detach n d src dst new => some ({ s with attached := x.domain }, [.attach n d src dst new])
  | .attach n d src dst new =>
    if x.ret = 0 then some ({ s with attached := some dst }, [.switchId n d dst new])
    else some (s, if new then [.fail n d x.ret] else [.reattach n d src x.ret])
  | .reattach n d src ret =>
    some (if x.ret = 0 then { s with attached := src } else s, [.fail n d ret])
  | .switchId n d dst new =>
    some ({ s with pin := { s.pin with id := d }, wrote := n :: s.wrote },
      if new then [.switchTable n d dst] else [.inc n d])
  | .switchTable n d dst =>
    some ({ s with domains := Function.update s.domains d (some dst) }, [.inc n d])
  | .returned n d ret => some (s, if ret = 0 then [.put n d] else [])
  | .put _ _ => some ({ s with pin := s.pin.put }, [])
  | .softReset =>
    some (if P.bypassSoftReset || s.resetLock then (s, [])
      else ({ s with resetLock := true }, [.resetDomain]))
  | .resetDomain =>
    if x.ret ≠ 0 then some ({ s with resetLock := false }, [])
    else some (s, match if P.iommuEn then s.attached else none with
      | some dom => [.resetDetach dom]
      | none => [.resetEnd])
  | .resetDetach dom => some ({ s with attached := x.domain }, [.resetAttach dom])
  | .resetAttach dom => some (if x.ret = 0 then { s with attached := some dom } else s, [.resetEnd])
  | .resetEnd => some ({ s with resetLock := false }, [])

inductive Occurrence where
  | get (d : Int)
  | softReset

def occur (e : Occurrence) (s : State) : Option (State × List Stmt) :=
  match e with
  | .get d => some ({ s with calls := s.calls + 1 }, [.lock s.calls d])
  | .softReset => some (s, [.softReset])

def machine : Machine State Stmt Reply Occurrence := ⟨exec P, occur⟩

/-- Between taking `domain_lock` and giving it back. -/
def lockW : Stmt → Nat
  | .check _ _ | .refcount _ _ | .inc _ _ | .unlock _ _ | .fail _ _ _ | .retry _ _
  | .switchDomain _ _ | .source _ _ | .dest _ _ _ | .alloc _ _ _ | .detach _ _ _ _ _
  | .attach _ _ _ _ _ | .reattach _ _ _ _ | .switchId _ _ _ _ | .switchTable _ _ _ => 1
  | _ => 0

def holdW : Stmt → Nat
  | .unlock _ _ | .put _ _ => 1
  | .returned _ _ ret => if ret = 0 then 1 else 0
  | _ => 0

def Stmt.selected : Stmt → Option Int
  | .inc _ d | .unlock _ d | .put _ d | .switchTable _ d _ => some d
  | .returned _ d ret => if ret = 0 then some d else none
  | _ => none

/-- In `rknpu_iommu_switch_domain`, which changes the domain. -/
def Stmt.switches : Stmt → Option Int
  | .source _ d | .dest _ d _ | .alloc _ d _ | .detach _ d _ _ _ | .attach _ d _ _ _
  | .reattach _ d _ _ | .switchId _ d _ _ => some d
  | _ => none

def Stmt.call : Stmt → Option Nat
  | .lock n _ | .check n _ | .refcount n _ | .inc n _ | .unlock n _ | .fail n _ _ | .retry n _
  | .timeout n _ | .switchDomain n _ | .source n _ | .dest n _ _ | .alloc n _ _
  | .detach n _ _ _ _ | .attach n _ _ _ _ | .reattach n _ _ _ | .switchId n _ _ _
  | .switchTable n _ _ | .returned n _ _ | .put n _ => some n
  | _ => none

/-- From here on the call can only succeed. -/
def Stmt.succeeds : Stmt → Bool
  | .switchTable _ _ _ | .inc _ _ | .unlock _ _ | .put _ _ => true
  | .returned _ _ ret => ret == 0
  | _ => false

variable {P} {G : Guard State Stmt Reply Occurrence} {C : Conf State Stmt} {dom : Nat}
  {s s' : State} {B R : Multiset Stmt} {a : Stmt} {x : Reply} {p : List Stmt}

def Stmt.coded : Stmt → Prop
  | .fail _ _ ret | .reattach _ _ _ ret => ret ≠ 0
  | _ => True

theorem exec_coded (ha : a.coded) (h : exec P a x s = some (s', p)) : ∀ b ∈ p, b.coded := by
  cases a <;> simp only [exec, switchDomain, Option.some.injEq] at h
  all_goals
    repeat' split at h
    all_goals
      cases h <;> simp_all [Stmt.coded, einval, efault, eio]

theorem occur_threads {e : Occurrence} (h : occur e s = some (s', p)) :
    (∃ d, p = [.lock s.calls d] ∧ s' = { s with calls := s.calls + 1 }) ∨
      p = [.softReset] ∧ s' = s := by
  cases e <;> cases h
  · exact .inl ⟨_, rfl, rfl⟩
  · exact .inr ⟨rfl, rfl⟩

theorem exec_lockW (hlock : lockW a = 1 → s.lock) (h : exec P a x s = some (s', p)) :
    (if s'.lock then 1 else 0 : Int) + lockW a =
      (if s.lock then 1 else 0 : Int) + load lockW (p : Multiset Stmt) := by
  cases a <;> simp only [exec, switchDomain, Option.some.injEq] at h
  all_goals
    repeat' split at h
    all_goals
      cases h <;> simp_all [lockW]

theorem exec_holdW (ha : a.coded) (h : exec P a x s = some (s', p)) :
    s'.pin.refs + holdW a = s.pin.refs + load holdW (p : Multiset Stmt) := by
  cases a <;> simp only [exec, switchDomain, Option.some.injEq] at h
  all_goals
    repeat' split at h
    all_goals
      cases h <;> simp_all [holdW, Stmt.coded, Pin.put, einval]

theorem exec_pin (h : exec P a x s = some (s', p)) :
    s'.pin = s.pin ∨ (∃ n d, a = .inc n d ∧ s'.pin = ⟨s.pin.id, s.pin.refs + 1⟩) ∨
      (∃ n d dst new, a = .switchId n d dst new ∧ s'.pin = ⟨d, s.pin.refs⟩) ∨
      ∃ n d, a = .put n d ∧ s'.pin = s.pin.put := by
  cases a with
  | inc n d => cases h; exact .inr (.inl ⟨n, d, rfl, rfl⟩)
  | switchId n d dst new => cases h; exact .inr (.inr (.inl ⟨n, d, dst, new, rfl, rfl⟩))
  | put n d => cases h; exact .inr (.inr (.inr ⟨n, d, rfl, rfl⟩))
  | _ =>
    simp only [exec, Option.some.injEq] at h
    repeat' split at h
    all_goals
      cases h
      try exact .inl rfl

theorem exec_selected {b : Stmt} {d : Int} (ha : a.coded) (h : exec P a x s = some (s', p))
    (hb : b ∈ p) (hd : b.selected = some d) :
    a.selected = some d ∨ s'.pin.id = d := by
  cases a <;> simp only [exec, switchDomain, Option.some.injEq] at h
  all_goals
    repeat' split at h
    all_goals
      cases h <;> simp_all [Stmt.selected, Stmt.coded, einval]

/-- The domain is switched only from where nobody holds a reference, and to a valid one. -/
theorem exec_switches {b : Stmt} {d : Int} (h : exec P a x s = some (s', p))
    (hb : b ∈ p) (hd : b.switches = some d) :
    a.switches = some d ∨ (∃ n, a = .switchDomain n d) ∧ 0 ≤ d ∧ d < maxDomains := by
  cases a <;> simp only [exec, switchDomain, Option.some.injEq] at h
  all_goals
    repeat' split at h
    all_goals
      cases h <;> simp_all [Stmt.switches, maxDomains]
  omega

theorem exec_checked {n : Nat} {d : Int} (h : exec P a x s = some (s', p))
    (hb : .switchDomain n d ∈ p) : s'.pin.refs = 0 := by
  cases a <;> simp only [exec, switchDomain, Option.some.injEq] at h
  all_goals
    repeat' split at h
    all_goals
      cases h <;> simp at hb
  assumption

/-- Every holder has the domain it asked for, and nobody holds one while it is switched. -/
structure Pinned (s : State) (B : Multiset Stmt) : Prop where
  selected : ∀ a ∈ B, ∀ d, a.selected = some d → s.pin.id = d
  checked : ∀ n d, .switchDomain n d ∈ B → s.pin.refs = 0
  switches : ∀ a ∈ B, ∀ d, a.switches = some d → s.pin.refs = 0 ∧ 0 ≤ d ∧ d < maxDomains
  range : 0 ≤ s.pin.id ∧ s.pin.id < maxDomains

theorem lockW_of_switches {d : Int} (h : a.switches = some d) : lockW a = 1 := by
  cases a <;> first | rfl | cases h

theorem weights_of_selected {d : Int} (h : a.selected = some d) : lockW a = 1 ∨ holdW a = 1 := by
  cases a <;> simp_all [Stmt.selected, lockW, holdW]

theorem Pinned.exec (hlock : load lockW (a ::ₘ R) ≤ 1) (hrefs : s.pin.refs = load holdW (a ::ₘ R))
    (hI : Pinned s (a ::ₘ R)) (ha : a.coded) (h : Domain.exec P a x s = some (s', p)) :
    Pinned s' ((p : Multiset Stmt) + R) := by
  have hself := Multiset.mem_cons_self a R
  have hrest : ∀ {b}, b ∈ R → b ∈ a ::ₘ R := Multiset.mem_cons_of_mem
  have hpin := exec_pin h
  -- whoever switches holds the lock and leaves no reference to the others
  have hswitch : ∀ n d dst new, a = .switchId n d dst new → ∀ b ∈ R, b.selected = none := by
    rintro n d dst new rfl b hb
    have h₁ := load_all_eq_zero lockW hlock rfl b hb
    have h₂ : holdW b = 0 := by
      have := le_load holdW (hrest hb)
      have := (hI.switches _ hself d rfl).1
      omega
    by_contra hn
    obtain ⟨d', hd'⟩ := Option.ne_none_iff_exists'.mp hn
    have := weights_of_selected hd'
    omega
  have hkeep : ∀ b ∈ R, lockW b = 1 → s.pin.refs = 0 → s'.pin.refs = 0 := by
    intro b hb hbl hz
    rcases hpin with hp | ⟨n, d, rfl, hp⟩ | ⟨n, d, dst, new, rfl, hp⟩ | ⟨n, d, rfl, hp⟩
    · rw [hp]; exact hz
    · have := load_all_eq_zero lockW hlock rfl b hb
      omega
    · rw [hp]; exact hz
    · have := le_load holdW hself
      simp only [holdW] at this
      omega
  constructor
  case selected =>
    intro b hb d hd
    rcases Multiset.mem_add.mp hb with hb | hb
    · rcases exec_selected ha h (by simpa using hb) hd with hs | hs
      · have hid := hI.selected a hself d hs
        rcases hpin with hp | ⟨n, d, rfl, hp⟩ | ⟨n, d, dst, new, rfl, hp⟩ | ⟨n, d, rfl, hp⟩
        · rw [hp]; exact hid
        · rw [hp]; exact hid
        · cases hs
        · rw [hp]; exact hid
      · exact hs
    · have hid := hI.selected b (hrest hb) d hd
      rcases hpin with hp | ⟨n, d, rfl, hp⟩ | ⟨n, d, dst, new, rfl, hp⟩ | ⟨n, d, rfl, hp⟩
      · rw [hp]; exact hid
      · rw [hp]; exact hid
      · rw [hswitch _ _ _ _ rfl b hb] at hd
        cases hd
      · rw [hp]; exact hid
  case checked =>
    intro n d hb
    rcases Multiset.mem_add.mp hb with hb | hb
    · exact exec_checked h (by simpa using hb)
    · exact hkeep _ hb rfl (hI.checked n d (hrest hb))
  case switches =>
    intro b hb d hd
    rcases Multiset.mem_add.mp hb with hb | hb
    · rcases exec_switches h (by simpa using hb) hd with hs | ⟨⟨n, rfl⟩, hs⟩
      · obtain ⟨hz, hd'⟩ := hI.switches a hself d hs
        refine ⟨?_, hd'⟩
        rcases hpin with hp | ⟨n, d, rfl, hp⟩ | ⟨n, d, dst, new, rfl, hp⟩ | ⟨n, d, rfl, hp⟩
        · rw [hp]; exact hz
        · cases hs
        · rw [hp]; exact hz
        · cases hs
      · rcases hpin with hp | ⟨n, d, hn, hp⟩ | ⟨n, d, dst, new, hn, hp⟩ | ⟨n, d, hn, hp⟩
        · rw [hp]
          exact ⟨hI.checked _ _ hself, hs⟩
        all_goals cases hn
    · obtain ⟨hz, hd'⟩ := hI.switches b (hrest hb) d hd
      exact ⟨hkeep b hb (lockW_of_switches hd) hz, hd'⟩
  case range =>
    rcases hpin with hp | ⟨n, d, rfl, hp⟩ | ⟨n, d, dst, new, rfl, hp⟩ | ⟨n, d, rfl, hp⟩
    · rw [hp]; exact hI.range
    · rw [hp]; exact hI.range
    · rw [hp]; exact (hI.switches _ hself d rfl).2
    · rw [hp]; exact hI.range

theorem Pinned.occur {e : Occurrence} (hI : Pinned s R) (h : Domain.occur e s = some (s', p)) :
    Pinned s' ((p : Multiset Stmt) + R) := by
  obtain ⟨d, rfl, rfl⟩ | ⟨rfl, rfl⟩ := occur_threads h
  all_goals
    refine ⟨fun b hb => ?_, fun n d hb => ?_, fun b hb => ?_, hI.range⟩
    · rcases Multiset.mem_add.mp hb with hb | hb
      · obtain rfl : b = _ := by simpa using hb
        rintro d ⟨⟩
      · exact hI.selected b hb
    · rcases Multiset.mem_add.mp hb with hb | hb
      · simp at hb
      · exact hI.checked n d hb
    · rcases Multiset.mem_add.mp hb with hb | hb
      · obtain rfl : b = _ := by simpa using hb
        rintro d ⟨⟩
      · exact hI.switches b hb

/-- What every statement keeps, also where a larger machine runs it. `domain_lock` is held by
exactly one call, and references by those between the count and the put. -/
structure Kept (s : State) (B : Multiset Stmt) : Prop where
  coded : ∀ a ∈ B, a.coded
  lock : (if s.lock then 1 else 0 : Int) = load lockW B
  refs : s.pin.refs = load holdW B
  pinned : Pinned s B

theorem Kept.init : Kept (State.init P dom) 0 :=
  ⟨by simp, by rfl, by rfl, by simp, by simp, by simp, by simp [State.init, maxDomains]⟩

theorem Kept.exec (hI : Kept s (a ::ₘ R)) (h : Domain.exec P a x s = some (s', p)) :
    Kept s' ((p : Multiset Stmt) + R) := by
  have hself := Multiset.mem_cons_self a R
  have hlock := hI.lock
  have hrefs := hI.refs
  have hle : load lockW (a ::ₘ R) ≤ 1 := by
    split at hlock <;> omega
  rw [load_cons] at hlock hrefs
  push_cast at hlock hrefs
  constructor
  case coded =>
    intro b hb
    rcases Multiset.mem_add.mp hb with hb | hb
    · exact exec_coded (hI.coded a hself) h b (by simpa using hb)
    · exact hI.coded b (Multiset.mem_cons_of_mem hb)
  case lock =>
    have hstep := exec_lockW (fun ha => by by_contra hn; rw [if_neg hn] at hlock; omega) h
    rw [load_add]
    push_cast
    omega
  case refs =>
    have hstep := exec_holdW (hI.coded a hself) h
    rw [load_add]
    push_cast
    omega
  case pinned => exact hI.pinned.exec hle hI.refs (hI.coded a hself) h

theorem Kept.occur {e : Occurrence} (hI : Kept s R) (h : Domain.occur e s = some (s', p)) :
    Kept s' ((p : Multiset Stmt) + R) := by
  have hpinned := hI.pinned.occur h
  have hlock := hI.lock
  have hrefs := hI.refs
  obtain ⟨d, rfl, rfl⟩ | ⟨rfl, rfl⟩ := occur_threads h
  all_goals
    refine ⟨?_, by simpa [lockW] using hlock, by simpa [holdW] using hrefs, hpinned⟩
    intro b hb
    rcases Multiset.mem_add.mp hb with hb | hb
    · obtain rfl : b = _ := by simpa using hb
      exact trivial
    · exact hI.coded b hb

theorem Kept.reach (hC : Reach (machine P) G (State.init P dom) C) : Kept C.shared C.pending :=
  hC.invariant Kept Kept.init (fun _ _ _ _ _ _ hI _ h => hI.exec h) fun _ _ _ _ _ hI _ h => hI.occur h

theorem load_holdW (hC : Reach (machine P) G (State.init P dom) C) :
    C.shared.pin.refs = load holdW C.pending := (Kept.reach hC).refs

theorem load_lockW_le_one (hC : Reach (machine P) G (State.init P dom) C) :
    load lockW C.pending ≤ 1 := by
  have := (Kept.reach hC).lock
  split at this <;> omega

theorem Pinned.reach (hC : Reach (machine P) G (State.init P dom) C) :
    Pinned C.shared C.pending := (Kept.reach hC).pinned

def callW (n : Nat) (a : Stmt) : Nat := if a.call = some n then 1 else 0

theorem exec_calls (h : exec P a x s = some (s', p)) : s'.calls = s.calls ∧
    (∀ n, load (callW n) (p : Multiset Stmt) ≤ callW n a) ∧
    ∀ b ∈ p, ∀ n, b.call = some n → a.call = some n := by
  cases a <;> simp only [exec, switchDomain, Option.some.injEq] at h
  all_goals
    repeat' split at h
    all_goals
      cases h <;> simp [callW, Stmt.call]

theorem exec_wrote (h : exec P a x s = some (s', p)) : (a.succeeds → ∀ b ∈ p, b.succeeds) ∧
    (s'.wrote = s.wrote ∨
      ∃ n, a.call = some n ∧ s'.wrote = n :: s.wrote ∧ ∀ b ∈ p, b.succeeds) := by
  cases a <;> simp only [exec, switchDomain, Option.some.injEq] at h
  all_goals
    repeat' split at h
    all_goals
      cases h <;> simp_all [Stmt.succeeds, Stmt.call]

structure Wrote (s : State) (B : Multiset Stmt) : Prop where
  fresh : ∀ a ∈ B, ∀ n, a.call = some n → n < s.calls
  wrote : ∀ n ∈ s.wrote, n < s.calls
  one : ∀ n, load (callW n) B ≤ 1
  succeeds : ∀ n ∈ s.wrote, ∀ a ∈ B, a.call = some n → a.succeeds

theorem Wrote.exec (hI : Wrote s (a ::ₘ R)) (h : Domain.exec P a x s = some (s', p)) :
    Wrote s' ((p : Multiset Stmt) + R) := by
  have hself := Multiset.mem_cons_self a R
  have hrest : ∀ {b}, b ∈ R → b ∈ a ::ₘ R := Multiset.mem_cons_of_mem
  obtain ⟨hcalls, hload, hcall⟩ := exec_calls h
  obtain ⟨hsucc, hwrote⟩ := exec_wrote h
  constructor
  case fresh =>
    intro b hb n hn
    rw [hcalls]
    rcases Multiset.mem_add.mp hb with hb | hb
    · exact hI.fresh a hself n (hcall b (by simpa using hb) n hn)
    · exact hI.fresh b (hrest hb) n hn
  case wrote =>
    intro n hn
    rw [hcalls]
    rcases hwrote with hw | ⟨m, hm, hw, -⟩
    · exact hI.wrote n (hw ▸ hn)
    · rw [hw] at hn
      rcases List.mem_cons.mp hn with rfl | hn
      · exact hI.fresh a hself n hm
      · exact hI.wrote n hn
  case one =>
    intro n
    have := hI.one n
    have := hload n
    rw [load_cons] at *
    rw [load_add]
    omega
  case succeeds =>
    intro n hn b hb hbn
    have hold : n ∈ s.wrote → b.succeeds := fun hn => by
      rcases Multiset.mem_add.mp hb with hb | hb
      · have hb : b ∈ p := by simpa using hb
        exact hsucc (hI.succeeds n hn a hself (hcall b hb n hbn)) b hb
      · exact hI.succeeds n hn b (hrest hb) hbn
    rcases hwrote with hw | ⟨m, hm, hw, hp⟩
    · exact hold (hw ▸ hn)
    · rw [hw] at hn
      rcases List.mem_cons.mp hn with rfl | hn
      · rcases Multiset.mem_add.mp hb with hb | hb
        · exact hp b (by simpa using hb)
        · have := load_all_eq_zero (callW n) (hI.one n) (if_pos hm) b hb
          rw [callW, if_pos hbn] at this
          cases this
      · exact hold hn

theorem Wrote.reach (hC : Reach (machine P) G (State.init P dom) C) :
    Wrote C.shared C.pending := by
  refine hC.invariant Wrote ⟨by simp, by simp [State.init], by simp, by simp⟩
    (fun _ _ _ _ _ _ hI _ h => hI.exec h) ?_
  intro s R e s' p hI _ h
  have hnew : load (callW s.calls) R = 0 := load_eq_zero _ fun b hb => by
    rw [callW, if_neg]
    intro hn
    exact absurd (hI.fresh b hb _ hn) (lt_irrefl _)
  obtain ⟨d, rfl, rfl⟩ | ⟨rfl, rfl⟩ := occur_threads h
  · constructor
    case fresh =>
      intro b hb n hn
      rcases Multiset.mem_add.mp hb with hb | hb
      · obtain rfl : b = _ := by simpa using hb
        cases hn
        exact Nat.lt_succ_self _
      · exact Nat.lt_succ_of_lt (hI.fresh b hb n hn)
    case wrote => exact fun n hn => Nat.lt_succ_of_lt (hI.wrote n hn)
    case one =>
      intro n
      rw [load_add]
      by_cases hn : n = s.calls
      · subst hn
        simp [callW, Stmt.call, hnew]
      · have := hI.one n
        simpa [callW, Stmt.call, Ne.symm hn] using this
    case succeeds =>
      intro n hn b hb hbn
      rcases Multiset.mem_add.mp hb with hb | hb
      · obtain rfl : b = _ := by simpa using hb
        cases hbn
        exact absurd (hI.wrote _ hn) (lt_irrefl _)
      · exact hI.succeeds n hn b hb hbn
  · constructor
    case fresh =>
      intro b hb n hn
      rcases Multiset.mem_add.mp hb with hb | hb
      · obtain rfl : b = _ := by simpa using hb
        cases hn
      · exact hI.fresh b hb n hn
    case wrote => exact hI.wrote
    case one => simpa [callW, Stmt.call] using hI.one
    case succeeds =>
      intro n hn b hb hbn
      rcases Multiset.mem_add.mp hb with hb | hb
      · obtain rfl : b = _ := by simpa using hb
        cases hbn
      · exact hI.succeeds n hn b hb hbn

/-- Any calls at any time, with any answers. -/
def anyRun : Guard State Stmt Reply Occurrence := .events fun _ => True

/-- A domain stays selected from a successful call for it to the put. -/
theorem domain_pinned (hC : Reach (machine P) anyRun (State.init P dom) C) :
    (∀ n d, .returned n d 0 ∈ C.pending ∨ .put n d ∈ C.pending → C.shared.pin.id = d) ∧
    C.shared.pin.refs = load holdW C.pending ∧ 0 ≤ C.shared.pin.refs ∧
    (∀ n d ret, .returned n d ret ∈ C.pending → ret ≠ 0 → n ∉ C.shared.wrote) ∧
    0 ≤ C.shared.pin.id ∧ C.shared.pin.id < maxDomains := by
  have hI := Pinned.reach hC
  have hrefs := load_holdW hC
  refine ⟨?_, hrefs, by omega, ?_, hI.range⟩
  · rintro n d (hb | hb)
    · exact hI.selected _ hb d rfl
    · exact hI.selected _ hb d rfl
  · intro n d ret hb hret hn
    have := (Wrote.reach hC).succeeds n hn _ hb rfl
    simp only [Stmt.succeeds, beq_iff_eq] at this
    exact hret this

def switchRun (i : Nat) : List (Label Reply Occurrence) :=
  List.replicate 6 (Label.run i ⟨0, none⟩) ++ [Label.run i ⟨0, some 5⟩] ++
    List.replicate 7 (Label.run i ⟨0, some 4⟩)

def pinRun : List (Label Reply Occurrence) :=
  [Label.env (Occurrence.get 1), .env (.get 2)] ++ switchRun 0 ++
    List.replicate 4 (Label.run 1 ⟨0, none⟩)

theorem domain_pinned_pinRun : ∃ C : Conf State Stmt, .put 0 1 ∈ C.pending ∧
    .timeout 1 2 ∈ C.pending ∧ C.shared.pin.id = 1 ∧ C.shared.pin.refs = load holdW C.pending := by
  obtain ⟨C, hC, ht⟩ := Reach.exists_of_steps (machine ⟨true, true, false⟩) anyRun
    (State.init ⟨true, true, false⟩ 4) pinRun
    (fun _ _ _ => true)
    (fun C => C.threads == [[.put 0 1], [.timeout 1 2]])
    (fun _ _ _ _ => trivial) (fun _ _ _ _ => trivial) (by decide +kernel)
  have hB : C.pending = ([.put 0 1, .timeout 1 2] : List Stmt) := by
    rw [Conf.pending, beq_iff_eq.mp ht]
    rfl
  have hput : .put 0 1 ∈ C.pending := by simp [hB]
  obtain ⟨hid, hrefs, -⟩ := domain_pinned hC
  exact ⟨C, hput, by simp [hB], hid 0 1 (.inr hput), hrefs⟩

section Refinement

/-- A statement whose call has the domain, though its reference is not yet counted. -/
def claimW : Stmt → Nat
  | .inc _ _ | .switchTable _ _ _ => 1
  | _ => 0

/-- The pinned domain as the other calls see it: the domain is selected and counted at once. -/
def pinned (s : State) (B : Multiset Stmt) : Pin := ⟨s.pin.id, s.pin.refs + load claimW B⟩

/-- Every statement takes one step of the pinned domain or none. -/
theorem exec_pinned (hlock : load lockW (a ::ₘ R) ≤ 1) (hI : Pinned s (a ::ₘ R))
    (h : exec P a x s = some (s', p)) :
    pinned s' (p + R) = pinned s (a ::ₘ R) ∨
      (∃ d, (pinned s (a ::ₘ R)).get d = some (pinned s' (p + R))) ∨
      pinned s' (p + R) = (pinned s (a ::ₘ R)).put := by
  have hself := Multiset.mem_cons_self a R
  have hclaim : lockW a = 1 → load claimW R = 0 := fun ha => load_eq_zero _ fun b hb => by
    have := load_all_eq_zero lockW hlock ha b hb
    cases b <;> simp_all [claimW, lockW]
  cases a
  case switchId n d dst new =>
    obtain ⟨hz, hd⟩ := hI.switches _ hself d rfl
    cases h
    refine .inr (.inl ⟨d, ?_⟩)
    have hR := hclaim rfl
    cases new <;> simp [pinned, Pin.get, claimW, hz, hR, hd]
  case put n d =>
    cases h
    refine .inr (.inr ?_)
    simp [pinned, Pin.put, claimW]
    omega
  case check n d =>
    simp only [exec, Option.some.injEq] at h
    split at h <;> cases h
    · rename_i hd
      exact .inr (.inl ⟨d, by simp [pinned, Pin.get, claimW, hd]; omega⟩)
    · exact .inl (by simp [pinned, claimW])
  case switchDomain n d =>
    simp only [exec, switchDomain, Option.some.injEq] at h
    repeat' split at h
    all_goals cases h
    case isFalse.isFalse.isFalse.isTrue hd =>
      exact .inr (.inl ⟨d, by simp [pinned, Pin.get, claimW, hd]; omega⟩)
    all_goals exact .inl (by simp [pinned, claimW])
  all_goals
    simp only [exec, Option.some.injEq] at h
    repeat' split at h
    all_goals
      cases h
      try (refine .inl ?_; simp [pinned, claimW]; try omega)

theorem pin_refines (hC : Reach (machine P) anyRun (State.init P dom) C) {i : Nat} {k : List Stmt}
    (hi : C.threads[i]? = some (a :: k)) (h : exec P a x C.shared = some (s', p)) :
    let q := pinned C.shared C.pending
    let q' := pinned s' (Conf.pending ⟨s', C.threads.set i (p ++ k)⟩)
    q' = q ∨ (∃ d, q.get d = some q') ∨ q' = q.put := by
  obtain ⟨R, hB, hB'⟩ := pending_run hi s' p
  have hlock := load_lockW_le_one hC
  have hI := Pinned.reach hC
  simp only [hB'] at *
  rw [hB] at hlock hI ⊢
  exact exec_pinned hlock hI h

end Refinement

end Domain

end Rknpu

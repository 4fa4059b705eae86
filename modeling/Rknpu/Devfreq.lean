import Rknpu.Interleaving.Locks
import Rknpu.Job

namespace Rknpu.Devfreq

open Interleaving

structure Opp where
  freq : Nat
  volt : Nat
deriving DecidableEq

variable (opps : List Opp)

/-- `dev_pm_opp_find_freq_ceil` and `dev_pm_opp_find_freq_floor`, in a table that is sorted. -/
def findFreqCeil (freq : Nat) : Option Opp := opps.find? fun o => decide (freq ≤ o.freq)

def findFreqFloor (freq : Nat) : Option Opp := opps.reverse.find? fun o => decide (o.freq ≤ freq)

/-- `devfreq_recommended_opp`; `upper` is `DEVFREQ_FLAG_LEAST_UPPER_BOUND`. -/
def recommendedOpp (freq : Nat) (upper : Bool) : Option Opp :=
  if upper then (findFreqFloor opps freq).or (findFreqCeil opps freq)
  else (findFreqCeil opps freq).or (findFreqFloor opps freq)

/-- Who runs: a user of the power, a read or a write of the debugfs node `freq`, or the devfreq
core after a change of the limits. -/
inductive Caller where
  | power
  | show
  | write (freq : Nat)
  | limits
deriving DecidableEq

/-- `ondemand_freq`, `current_freq` with `current_volt`, the `previous_freq` and the limits of
the devfreq device, the rate of the clock, and the locks: `power_lock`, that of the devfreq device
and `devfreq_lock`. `last` is history: whether the last update has succeeded. -/
structure State where
  ondemand : Nat
  current : Opp
  previous : Nat
  minFreq : Nat
  maxFreq : Nat
  rate : Nat
  powerLock : Bool
  dfLock : Bool
  devfreqLock : Bool
  last : Option Bool

/-- At the end of `rknpu_devfreq_init`. -/
def State.init (o : Opp) (minFreq maxFreq : Nat) : State where
  ondemand := o.freq
  current := o
  previous := o.freq
  minFreq := minFreq
  maxFreq := maxFreq
  rate := o.freq
  powerLock := false
  dfLock := false
  devfreqLock := false
  last := none

inductive Stmt where
  -- rknpu_power_get, where `up` is set, and rknpu_power_put
  | powerLock (c : Caller) (up : Bool)
  | powerCount (c : Caller) (up : Bool)
  | switchLock (c : Caller) (up : Bool)
  | switch (c : Caller) (up : Bool)
  | powerUnlock (c : Caller) (up : Bool)
  -- rknpu_freq_show and rknpu_freq_set
  | getRate (c : Caller)
  | setOndemand (freq : Nat)
  -- update_devfreq
  | dfLock (c : Caller)
  | govern (c : Caller)
  | dfUnlock (c : Caller)
  -- npu_devfreq_target
  | target (c : Caller) (freq : Nat) (upper : Bool)
  | targetLock (c : Caller) (o : Opp)
  | setRate (c : Caller) (o : Opp)
  | targetUnlock (c : Caller) (o : Opp) (ret : Int)
deriving DecidableEq

/-- Whether the count makes the power be switched, what `dev_pm_opp_set_rate` returns, and the
rate that the clock then has. -/
structure Reply where
  switches : Bool
  ret : Int
  rate : Nat

/-- `devfreq_rknpu_ondemand_func` -/
def State.ondemandFunc (s : State) : Nat := if s.ondemand ≠ 0 then s.ondemand else s.previous

/-- The frequency that `update_devfreq` asks for, with its flag. -/
def State.asked (s : State) : Nat × Bool :=
  let freq := if s.ondemandFunc < s.minFreq then s.minFreq else s.ondemandFunc
  if freq > s.maxFreq then (s.maxFreq, true) else (freq, false)

def afterPower : Caller → Bool → List Stmt
  | .show, true => [.getRate .show]
  | .write freq, true => [.getRate (.write freq)]
  | _, _ => []

/-- What follows `clk_get_rate`. -/
def afterRate (rate : Nat) : Caller → List Stmt
  | .write freq => if freq ≠ rate then [.setOndemand freq] else [.powerLock (.write freq) false]
  | c => [.powerLock c false]

def afterUpdate : Caller → List Stmt
  | .write freq => [.powerLock (.write freq) false]
  | _ => []

def exec (a : Stmt) (x : Reply) (s : State) : Option (State × List Stmt) :=
  match a with
  | .powerLock c up =>
    if s.powerLock then none else some ({ s with powerLock := true }, [.powerCount c up])
  | .powerCount c up => some (s, if x.switches then [.switchLock c up] else [.powerUnlock c up])
  -- rknpu_devfreq_lock, as there is a devfreq device
  | .switchLock c up =>
    if s.devfreqLock then none else some ({ s with devfreqLock := true }, [.switch c up])
  | .switch c up => some ({ s with devfreqLock := false }, [.powerUnlock c up])
  | .powerUnlock c up => some ({ s with powerLock := false }, afterPower c up)
  | .getRate c => some (s, afterRate s.rate c)
  | .setOndemand freq => some ({ s with ondemand := freq }, [.dfLock (.write freq)])
  | .dfLock c => if s.dfLock then none else some ({ s with dfLock := true }, [.govern c])
  | .govern c => some (s, [.target c s.asked.1 s.asked.2])
  | .dfUnlock c => some ({ s with dfLock := false }, afterUpdate c)
  | .target c freq upper =>
    match recommendedOpp opps freq upper with
    | none => some ({ s with last := some false }, [.dfUnlock c])
    | some o =>
      if o.freq = s.current.freq then
        some ({ s with previous := o.freq, last := some true }, [.dfUnlock c])
      else some (s, [.targetLock c o])
  | .targetLock c o =>
    if s.devfreqLock then none else some ({ s with devfreqLock := true }, [.setRate c o])
  | .setRate c o =>
    some (if x.ret ≠ 0 then { s with rate := x.rate, last := some false }
      else { s with rate := x.rate, current := o, last := some true }, [.targetUnlock c o x.ret])
  | .targetUnlock c o ret =>
    some (if ret ≠ 0 then { s with devfreqLock := false }
      else { s with devfreqLock := false, previous := o.freq }, [.dfUnlock c])

inductive Occurrence where
  | power (up : Bool)
  | show
  /-- A write of a frequency that is parsed. -/
  | write (freq : Nat)
  /-- The limits are changed, and the devfreq core updates. -/
  | limits (minFreq maxFreq : Nat)

def occur (e : Occurrence) (s : State) : Option (State × List Stmt) :=
  match e with
  | .power up => some (s, [.powerLock .power up])
  | .show => some (s, [.powerLock .show true])
  | .write freq => some (s, [.powerLock (.write freq) true])
  | .limits minFreq maxFreq =>
    some ({ s with minFreq := minFreq, maxFreq := maxFreq }, [.dfLock .limits])

def machine : Machine State Stmt Reply Occurrence := ⟨exec opps, occur⟩

variable {opps} {o₀ : Opp} {lo hi : Nat} {C D : Conf State Stmt} {s s' : State} {a : Stmt}
  {x : Reply} {p : List Stmt} {B R : Multiset Stmt} {G : Guard State Stmt Reply Occurrence}

section Locks

inductive Lock where
  | power
  | df
  | devfreq
deriving DecidableEq

def State.held (s : State) : Lock → Bool
  | .power => s.powerLock
  | .df => s.dfLock
  | .devfreq => s.devfreqLock

def Stmt.holds : Lock → Stmt → Nat
  | .power, .powerCount _ _ | .power, .switchLock _ _ | .power, .switch _ _
  | .power, .powerUnlock _ _ => 1
  | .df, .govern _ | .df, .dfUnlock _ | .df, .target _ _ _ | .df, .targetLock _ _
  | .df, .setRate _ _ | .df, .targetUnlock _ _ _ => 1
  | .devfreq, .switch _ _ | .devfreq, .setRate _ _ | .devfreq, .targetUnlock _ _ _ => 1
  | _, _ => 0

def Stmt.wants : Stmt → Option Lock
  | .powerLock _ _ => some .power
  | .dfLock _ => some .df
  | .switchLock _ _ | .targetLock _ _ => some .devfreq
  | _ => none

/-- `devfreq_lock` is taken last. -/
def Lock.level : Lock → Nat
  | .devfreq => 1
  | _ => 0

def locks : Locking State Stmt Lock where
  held := State.held
  holds := Stmt.holds
  wants := Stmt.wants
  level := Lock.level
  top := 1
  level_le l := by cases l <;> decide
  ordered a l m hw hpos := by
    cases a <;> cases hw <;> cases m <;> first | exact absurd hpos (Nat.lt_irrefl 0) | decide

@[simp] theorem holds_afterPower (l : Lock) (c : Caller) (up : Bool) :
    load (Stmt.holds l) (afterPower c up : Multiset Stmt) = 0 := by
  cases c <;> cases up <;> cases l <;> rfl

@[simp] theorem holds_afterUpdate (l : Lock) (c : Caller) :
    load (Stmt.holds l) (afterUpdate c : Multiset Stmt) = 0 := by
  cases c <;> cases l <;> rfl

@[simp] theorem holds_afterRate (l : Lock) (rate : Nat) (c : Caller) :
    load (Stmt.holds l) (afterRate rate c : Multiset Stmt) = 0 := by
  unfold afterRate
  repeat' split
  all_goals cases l <;> rfl

theorem kept (hC : Reach (machine opps) G (State.init o₀ lo hi) C) :
    locks.Kept C.shared C.pending := by
  intro l
  refine Reach.balance (Stmt.holds l) (fun s => if s.held l then 1 else 0) (fun _ => True)
    (fun _ _ _ _ => trivial) (by cases l <;> rfl) ?_ ?_ hC
  · intro s a x s' p _ hle h
    replace h : exec opps a x s = some (s', p) := h
    have hheld : a.holds l = 1 → s.held l := fun ha => by
      by_contra hn
      rw [if_neg hn] at hle
      omega
    cases a <;> simp only [exec, Option.some.injEq] at h
    all_goals
      repeat' split at h
      all_goals
        cases h <;> cases l <;> simp_all [State.held, Stmt.holds] <;> rfl
  · intro s e s' p h
    cases e <;> cases h <;> cases l <;> exact (Int.add_zero _).symm

end Locks

section Settle

/-- No new access, no new user of the power and no new limits. -/
def returning : Guard State Stmt Reply Occurrence := .events fun _ => False

/-- A bound on the statements that a call still has before it. -/
def span : Stmt → Nat
  | .powerUnlock _ up => if up then 16 else 1
  | .switch _ up => if up then 17 else 2
  | .switchLock _ up => if up then 18 else 3
  | .powerCount _ up => if up then 19 else 4
  | .powerLock _ up => if up then 20 else 5
  | .dfUnlock _ => 6
  | .targetUnlock _ _ _ => 7
  | .setRate _ _ => 8
  | .targetLock _ _ => 9
  | .target _ _ _ => 10
  | .govern _ => 11
  | .dfLock _ => 12
  | .setOndemand _ => 13
  | .getRate _ => 14

theorem span_exec (h : exec opps a x s = some (s', p)) :
    load span (p : Multiset Stmt) < span a ∧ p.length ≤ 1 := by
  cases a <;> simp only [exec, Option.some.injEq] at h
  case powerUnlock c up => cases h; cases c <;> cases up <;> simp [afterPower, span]
  case dfUnlock c => cases h; cases c <;> simp [afterUpdate, span]
  case getRate c =>
    cases h
    unfold afterRate
    repeat' split
    all_goals simp [span]
  case powerLock c up | powerCount c up | switchLock c up | switch c up =>
    cases up <;> (repeat' split at h) <;> cases h <;> simp [span]
  all_goals
    repeat' split at h
    all_goals
      cases h <;> simp [span]

theorem exec_isSome (h : locks.Open s a) (x : Reply) : (exec opps a x s).isSome := by
  cases a
  case powerLock =>
    have hl : s.powerLock = false := h .power rfl
    simp [exec, hl]
  case dfLock =>
    have hl : s.dfLock = false := h .df rfl
    simp [exec, hl]
  case switchLock | targetLock =>
    have hl : s.devfreqLock = false := h .devfreq rfl
    simp [exec, hl]
  all_goals
    simp only [exec]
    repeat' split
    all_goals rfl

theorem threads_single (hC : Reach (machine opps) G (State.init o₀ lo hi) C) :
    ∀ t ∈ C.threads, t.length ≤ 1 := by
  refine hC.threads_all (fun t => t.length ≤ 1) ?_ ?_
  · intro s B a k x s' p hk _ h
    have hp := (span_exec h).2
    simp only [List.length_cons] at hk
    simp only [List.length_append]
    omega
  · intro s B e s' p _ h
    cases e <;> cases h <;> simp

theorem span_ranks (opps : List Opp) (s₀ : State) :
    Ranking (machine opps) (.events fun _ => True) returning s₀ fun _ B => load span B := by
  refine .of_steps ⟨fun _ _ _ _ _ => trivial, fun _ _ _ _ => trivial⟩ (fun _ _ => True)
    (fun _ _ => trivial) ?_ fun _ _ _ _ _ _ hG _ => hG.elim
  intro s R a x s' p _ _ h
  have := (span_exec h).1
  rw [load_add, load_cons]
  omega

end Settle

section Frequency

def updateW : Stmt → Nat
  | .setOndemand _ | .dfLock _ | .govern _ => 1
  | _ => 0

/-- An update that has asked the governor and has not come to an end. -/
def aimW : Stmt → Nat
  | .target _ _ _ | .targetLock _ _ | .setRate _ _ => 1
  | _ => 0

/-- The operating point for the last request, within the limits. -/
def State.goal (opps : List Opp) (s : State) : Option Opp :=
  recommendedOpp opps s.asked.1 s.asked.2

structure Alike (s s' : State) : Prop where
  ondemand : s'.ondemand = s.ondemand
  minFreq : s'.minFreq = s.minFreq
  maxFreq : s'.maxFreq = s.maxFreq

theorem Alike.asked (h : Alike s s') (ho : s.ondemand ≠ 0) : s'.asked = s.asked := by
  simp only [State.asked, State.ondemandFunc, h.ondemand, h.minFreq, h.maxFreq, if_pos ho]

/-- What an update under way is about, where no later one has been asked for. -/
structure Aimed (opps : List Opp) (s : State) (B : Multiset Stmt) : Prop where
  target : ∀ c f u, .target c f u ∈ B → (f, u) = s.asked
  point : ∀ c o, .targetLock c o ∈ B ∨ .setRate c o ∈ B → s.goal opps = some o
  done : load aimW B = 0 → s.last = some true →
    (s.goal opps).map Opp.freq = some s.current.freq

structure Sound (opps : List Opp) (o₀ : Opp) (s : State) (B : Multiset Stmt) : Prop where
  current : s.current = o₀ ∨ s.current ∈ opps
  points : ∀ c o, .targetLock c o ∈ B ∨ .setRate c o ∈ B → o ∈ opps
  aimed : load updateW B = 0 → s.ondemand ≠ 0 → Aimed opps s B

theorem mem_of_recommendedOpp {freq : Nat} {upper : Bool} {o : Opp}
    (h : recommendedOpp opps freq upper = some o) : o ∈ opps := by
  have hceil : ∀ o, findFreqCeil opps freq = some o → o ∈ opps :=
    fun o h => List.mem_of_find?_eq_some h
  have hfloor : ∀ o, findFreqFloor opps freq = some o → o ∈ opps :=
    fun o h => List.mem_reverse.mp (List.mem_of_find?_eq_some h)
  unfold recommendedOpp at h
  split at h <;> obtain h | ⟨-, h⟩ := Option.or_eq_some_iff.mp h
  · exact hfloor o h
  · exact hceil o h
  · exact hceil o h
  · exact hfloor o h

theorem exec_alike (h : exec opps a x s = some (s', p)) (hp : load updateW (p : Multiset Stmt) = 0) :
    Alike s s' := by
  cases a <;> simp only [exec, Option.some.injEq] at h
  case setOndemand f => cases h; simp [updateW] at hp
  all_goals
    repeat' split at h
    all_goals
      cases h <;> exact ⟨rfl, rfl, rfl⟩

theorem exec_quiet (h : exec opps a x s = some (s', p)) (ha : aimW a = 0) :
    s'.current = s.current ∧ s'.last = s.last ∧
      (load aimW (p : Multiset Stmt) = 0 ∨ updateW a = 1) := by
  cases a <;> simp only [exec, Option.some.injEq] at h
  case powerUnlock c up => cases h; cases c <;> cases up <;> simp [afterPower, aimW]
  case dfUnlock c => cases h; cases c <;> simp [afterUpdate, aimW]
  case getRate c =>
    cases h
    unfold afterRate
    repeat' split
    all_goals simp [aimW]
  case govern c => cases h; exact ⟨rfl, rfl, .inr rfl⟩
  case target | targetLock | setRate => cases ha
  all_goals
    repeat' split at h
    all_goals
      cases h <;> simp [aimW]

theorem exec_points (h : exec opps a x s = some (s', p)) :
    (∀ c o, .targetLock c o ∈ p ∨ .setRate c o ∈ p → o ∈ opps ∨ a = .targetLock c o) ∧
      (s'.current = s.current ∨ ∃ c, a = .setRate c s'.current) := by
  cases a <;> simp only [exec, Option.some.injEq] at h
  case powerUnlock c up => cases h; cases c <;> cases up <;> simp [afterPower]
  case dfUnlock c => cases h; cases c <;> simp [afterUpdate]
  case getRate c =>
    cases h
    unfold afterRate
    repeat' split
    all_goals simp
  case target c f u =>
    split at h
    · cases h
      simp
    · rename_i o ho
      split at h <;> cases h
      · simp
      · refine ⟨fun d o' hd => .inl ?_, .inl rfl⟩
        simp only [List.mem_singleton, Stmt.targetLock.injEq, reduceCtorEq, or_false] at hd
        rw [hd.2]
        exact mem_of_recommendedOpp ho
  case setRate c o =>
    cases h
    split <;> simp
  all_goals
    repeat' split at h
    all_goals
      cases h <;> simp

theorem Aimed.of_done (h0 : load aimW B = 0)
    (h : s.last = some true → (s.goal opps).map Opp.freq = some s.current.freq) :
    Aimed opps s B := by
  have hnone : ∀ c ∈ B, aimW c = 0 := fun c hc => by
    have := le_load aimW hc
    omega
  refine ⟨fun c f u hm => ?_, fun c o hm => ?_, fun _ => h⟩
  · exact absurd (hnone _ hm) (by simp [aimW])
  · obtain hm | hm := hm <;> exact absurd (hnone _ hm) (by simp [aimW])

theorem Aimed.of_single {c : Stmt} (h0 : load aimW R = 0) (hc : aimW c ≠ 0)
    (htarget : ∀ d f u, .target d f u = c → (f, u) = s.asked)
    (hpoint : ∀ d o, .targetLock d o = c ∨ .setRate d o = c → s.goal opps = some o) :
    Aimed opps s (([c] : Multiset Stmt) + R) := by
  have hmem : ∀ e ∈ ([c] : Multiset Stmt) + R, aimW e ≠ 0 → e = c := fun e he hne => by
    obtain he | he := Multiset.mem_add.mp he
    · exact List.mem_singleton.mp he
    · have := le_load aimW he
      omega
  refine ⟨fun d f u hm => htarget d f u (hmem _ hm (by simp [aimW])), fun d o hm => ?_, fun hz => ?_⟩
  · obtain hm | hm := hm
    · exact hpoint d o (.inl (hmem _ hm (by simp [aimW])))
    · exact hpoint d o (.inr (hmem _ hm (by simp [aimW])))
  · rw [load_add, load_coe_cons] at hz
    omega

theorem aimW_le (c : Stmt) : aimW c ≤ c.holds .df := by
  cases c <;> simp [aimW, Stmt.holds]

/-- An update under the lock of the devfreq device is the only one. -/
theorem no_aim (hK : locks.Kept s (a ::ₘ R)) (ha : a.holds .df = 1) : load aimW R = 0 :=
  load_eq_zero _ fun c hc => by
    have := load_all_eq_zero (Stmt.holds .df) (hK.le_one .df) ha c hc
    have := aimW_le c
    omega

theorem updateW_of_aimW (ha : aimW a ≠ 0) : updateW a = 0 ∧ a.holds .df = 1 := by
  cases a <;> first | exact absurd rfl ha | exact ⟨rfl, rfl⟩

/-- What the statements of an update do while it is about the last request. -/
theorem Aimed.exec_aim (hA : Aimed opps s (a ::ₘ R)) (ha : aimW a ≠ 0) (h0 : load aimW R = 0)
    (h : exec opps a x s = some (s', p)) (hgoal : s'.goal opps = s.goal opps) :
    Aimed opps s' (p + R) := by
  have hself := Multiset.mem_cons_self a R
  cases a
  case target c f u =>
    have hasked := hA.target c f u hself
    simp only [exec] at h
    split at h
    · cases h
      exact .of_done (by simp [aimW, h0]) (by simp)
    · rename_i o ho
      have hgo : s.goal opps = some o := by
        rw [State.goal, ← hasked]
        exact ho
      split at h
      · rename_i heq
        cases h
        refine .of_done (by simp [aimW, h0]) fun _ => ?_
        rw [hgoal, hgo]
        exact congrArg some heq
      · cases h
        refine .of_single h0 (by simp [aimW]) (fun _ _ _ h => by cases h) fun d o' hd => ?_
        obtain hd | hd := hd <;> cases hd
        exact hgo
  case targetLock c o =>
    have hgo := hA.point c o (.inl hself)
    simp only [exec] at h
    split at h
    · cases h
    · cases h
      refine .of_single h0 (by simp [aimW]) (fun _ _ _ h => by cases h) fun d o' hd => ?_
      obtain hd | hd := hd <;> cases hd
      exact hgoal.trans hgo
  case setRate c o =>
    have hgo := hA.point c o (.inr hself)
    simp only [exec, Option.some.injEq] at h
    cases h
    refine .of_done (by simp [aimW, h0]) fun hlast => ?_
    rw [hgoal, hgo]
    split at hlast <;> rename_i hx
    · cases hlast
    · rw [if_neg hx]
      rfl
  all_goals exact absurd rfl ha

theorem exec_updates (h : exec opps a x s = some (s', p)) (ha : updateW a = 1)
    (hp : load updateW (p : Multiset Stmt) = 0) :
    ∃ c, a = .govern c ∧ s' = s ∧ p = [.target c s.asked.1 s.asked.2] := by
  cases a <;> simp only [exec, Option.some.injEq] at h
  case govern c =>
    cases h
    exact ⟨c, rfl, rfl, rfl⟩
  case setOndemand f => cases h; simp [updateW] at hp
  case dfLock c => split at h <;> cases h; simp [updateW] at hp
  all_goals cases ha

namespace Sound

theorem aimed_exec (hK : locks.Kept s (a ::ₘ R)) (hI : Sound opps o₀ s (a ::ₘ R))
    (h : Devfreq.exec opps a x s = some (s', p))
    (hup : load updateW ((p : Multiset Stmt) + R) = 0) (ho : s'.ondemand ≠ 0) :
    Aimed opps s' (p + R) := by
  rw [load_add] at hup
  have halike := exec_alike h (by omega)
  rw [halike.ondemand] at ho
  have hasked := halike.asked ho
  have hgoal : s'.goal opps = s.goal opps := by rw [State.goal, State.goal, hasked]
  by_cases hu : updateW a = 1
  · -- it has asked for the request that is the last one
    obtain ⟨c, rfl, rfl, rfl⟩ := exec_updates h hu (by omega)
    refine .of_single (no_aim hK rfl) (by simp [aimW]) (fun d f u hd => ?_) fun d o hd => ?_
    · cases hd
      rfl
    · obtain hd | hd := hd <;> cases hd
  have hu0 : updateW a = 0 := by
    cases a <;> first | rfl | exact absurd rfl hu
  have hA := hI.aimed (by rw [load_cons]; omega) ho
  by_cases ha : aimW a = 0
  · obtain ⟨hcur, hlast, hp⟩ := exec_quiet h ha
    have hp := hp.resolve_right hu
    have hmem : ∀ e ∈ (p : Multiset Stmt) + R, aimW e ≠ 0 → e ∈ a ::ₘ R := fun e he hne => by
      obtain he | he := Multiset.mem_add.mp he
      · have := le_load aimW he
        omega
      · exact Multiset.mem_cons_of_mem he
    refine ⟨fun c f u hm => ?_, fun c o hm => ?_, fun hz hl => ?_⟩
    · rw [hasked]
      exact hA.target c f u (hmem _ hm (by simp [aimW]))
    · rw [hgoal]
      obtain hm | hm := hm
      · exact hA.point c o (.inl (hmem _ hm (by simp [aimW])))
      · exact hA.point c o (.inr (hmem _ hm (by simp [aimW])))
    · rw [load_add] at hz
      rw [hgoal, hcur]
      exact hA.done (by rw [load_cons]; omega) (hlast ▸ hl)
  · exact hA.exec_aim ha (no_aim hK (updateW_of_aimW ha).2) h hgoal

theorem exec (hK : locks.Kept s (a ::ₘ R)) (hI : Sound opps o₀ s (a ::ₘ R))
    (h : Devfreq.exec opps a x s = some (s', p)) : Sound opps o₀ s' (p + R) := by
  obtain ⟨hpoints, hcurrent⟩ := exec_points h
  refine ⟨?_, fun c o hm => ?_, fun hup ho => aimed_exec hK hI h hup ho⟩
  · obtain hcur | ⟨c, rfl⟩ := hcurrent
    · rw [hcur]
      exact hI.current
    · exact .inr (hI.points c _ (.inr (Multiset.mem_cons_self _ _)))
  · have hcases : (.targetLock c o ∈ p ∨ .setRate c o ∈ p) ∨
        .targetLock c o ∈ R ∨ .setRate c o ∈ R := by
      simp only [Multiset.mem_add, Multiset.mem_coe] at hm
      tauto
    obtain hp | hR := hcases
    · obtain ho | rfl := hpoints c o hp
      · exact ho
      · exact hI.points c o (.inl (Multiset.mem_cons_self _ _))
    · exact hI.points c o (hR.imp Multiset.mem_cons_of_mem Multiset.mem_cons_of_mem)

theorem occur {e : Occurrence} (hI : Sound opps o₀ s R) (h : Devfreq.occur e s = some (s', p)) :
    Sound opps o₀ s' (p + R) := by
  cases e
  case limits =>
    cases h
    refine ⟨hI.current, fun c o hm => hI.points c o (by simpa using hm), fun hup => ?_⟩
    simp [updateW] at hup
  all_goals
    cases h
    refine ⟨hI.current, fun c o hm => hI.points c o (by simpa using hm), fun hup ho => ?_⟩
    obtain ⟨htarget, hpoint, hdone⟩ := hI.aimed (by simpa [updateW] using hup) ho
    exact ⟨fun c f u hm => htarget c f u (by simpa using hm),
      fun c o hm => hpoint c o (by simpa using hm), fun hz => hdone (by simpa [aimW] using hz)⟩

theorem reach (hC : Reach (machine opps) G (State.init o₀ lo hi) C) :
    Sound opps o₀ C.shared C.pending := by
  refine hC.invariant_with locks.Kept (Sound opps o₀) (fun C hC => kept hC) ?_ ?_ ?_
  · refine ⟨.inl rfl, fun c o hm => by simp at hm, fun _ _ => .of_done rfl fun hl => ?_⟩
    cases hl
  · exact fun s R a x s' p hK hI _ h => hI.exec hK h
  · exact fun s R e s' p _ hI _ h => hI.occur h

end Sound

end Frequency

end Rknpu.Devfreq

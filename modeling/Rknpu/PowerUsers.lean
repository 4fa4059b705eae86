import Rknpu.PowerRefs
import Rknpu.PowerRelease

namespace Rknpu.Power

open Interleaving

variable {b : Board} {C : Conf State Stmt} {s s' : State} {R : Multiset Stmt} {a : Stmt}
  {x : Reply} {p : List Stmt}

section Users

/-- Users that look at the result of `rknpu_power_get`, and the delayed work. -/
def userCalls : Guard State Stmt Reply Occurrence := .events fun e =>
  match e with
  | .ioctl | .suspend | .timer => True
  | .setDelay d => d ≠ 0
  | _ => False

def Stmt.byUser : Stmt → Prop
  | .get u | .getInc u | .getOn u | .getDec u _ | .getUnlock u _ | .got u _ => u.checks
  | .put k | .putDec k | .putOff k | .putInc k _ | .putUnlock k _ | .putDelay k | .delayLock k
  | .delayRead k | .delayQueue k | .delayDec k => k ≠ .unowned ∧ k ≠ .off
  | .onInc | .offTest | .offDec | .offRead _ | .offSub _ | .offSet => False
  | _ => True

theorem exec_byUser (ha : a.byUser) (h : exec b a x s = some (s', p)) :
    s'.onRefs = s.onRefs ∧ ∀ c ∈ p, c.byUser := by
  cases a <;> simp only [exec, Option.some.injEq] at h
  case got u ret =>
    cases u <;> cases h <;> by_cases hr : ret = 0 <;> simp_all [Stmt.byUser, Caller.checks, afterGet]
  all_goals
    repeat' split at h
    all_goals
      cases h <;> simp_all [Stmt.byUser]

theorem byUser (hC : Reach (machine b) userCalls State.init C) :
    C.shared.onRefs = 0 ∧ ∀ a ∈ C.pending, a.byUser := by
  refine hC.invariant (fun s B => s.onRefs = 0 ∧ ∀ a ∈ B, a.byUser) (by simp [State.init]) ?_ ?_
  · rintro s R a x s' p ⟨hs, hB⟩ - h
    obtain ⟨hrefs, hp⟩ := exec_byUser (hB a (Multiset.mem_cons_self a R)) h
    exact ⟨hrefs.trans hs, fun c hc => (Multiset.mem_add.mp hc).elim (fun hc => hp c hc)
      fun hc => hB c (Multiset.mem_cons_of_mem hc)⟩
  · rintro s R e s' p ⟨hs, hB⟩ hG h
    have hp : s'.onRefs = s.onRefs ∧ ∀ c ∈ p, c.byUser := by
      cases e
      case timer =>
        obtain ⟨-, h⟩ := Option.ite_none_right_eq_some.mp h
        cases h
        simp [Stmt.byUser]
      case ioctl | suspend | setDelay =>
        cases h
        simp [Stmt.byUser, Caller.checks]
      all_goals exact hG.elim
    exact ⟨hp.1.trans hs, fun c hc => (Multiset.mem_add.mp hc).elim (fun hc => hp.2 c hc) (hB c)⟩

theorem balanced_of_users (hC : Reach (machine b) userCalls State.init C) :
    Reach (machine b) (balancedGuard b) State.init C := by
  refine hC.restrict (fun C hC a x ha _ => ?_) (fun _ _ _ _ => trivial)
  have hu := (byUser hC).2 a ha
  refine ⟨?_, ?_, ?_, ?_⟩
  · rintro rfl
    exact absurd hu (by simp [Stmt.byUser, Caller.checks])
  · rintro (rfl | rfl) <;> exact absurd rfl hu.1
  · rintro rfl
    exact hu.elim
  · rintro rfl
    exact hu.elim

def users (B : Multiset Stmt) : Nat := load (refW .user) B

def delayedReleases (s : State) (B : Multiset Stmt) : Nat :=
  (if s.work then 1 else 0) + load (refW .work) B

/-- The failed power-offs whose `rknpu_power_put_delay` has not yet run. -/
def followUps (B : Multiset Stmt) : Nat := load (refW .followUp) B

theorem load_holdW (B : Multiset Stmt) :
    load holdW B = users B + load (refW .work) B + followUps B + load (refW .off) B := by
  induction B using Multiset.induction with
  | empty => rfl
  | cons a B ih =>
    simp only [users, followUps, load_cons, holdW] at ih ⊢
    omega

theorem switching_unlocked {B : Multiset Stmt} (h : load lockW B = 0) :
    ∀ a ∈ B, a.switching = false := fun a ha => by
  have := le_load lockW ha
  by_contra hn
  have := lockW_of_switching (Bool.eq_true_of_not_eq_false hn)
  omega

theorem Rails.on_enables (n : Int) (r : Resource) :
    (if 0 < n then Rails.on b else .off).enables r = if b.has r ∧ 0 < n then 1 else 0 := by
  by_cases hn : 0 < n <;> simp [Rails.on, Rails.off, hn]

/-- The counter, the delayed releases and the resources agree wherever `power_lock` is free, and
nobody switches the NPU off that a user holds. -/
def Sound (b : Board) (C : Conf State Stmt) : Prop :=
  (C.shared.lock = false →
    C.shared.refcount =
      users C.pending + delayedReleases C.shared C.pending + followUps C.pending ∧
    delayedReleases C.shared C.pending ≤ 1 ∧
    (∀ r, C.shared.rails.enables r = if b.has r ∧ 0 < C.shared.refcount then 1 else 0) ∧
    C.shared.rails.devfreqLock = false) ∧
  ∀ k, .putOff k ∈ C.pending → users C.pending = 0

theorem sound_of_users (hC : Reach (machine b) userCalls State.init C) : Sound b C := by
  have hB := balanced_of_users hC
  have hI := Refs.reach hB
  obtain ⟨hrefs, hu⟩ := byUser hC
  have hoff : load (refW .off) C.pending = 0 := load_eq_zero _ fun a ha => by
    have := hu a ha
    cases a <;> simp_all [refW, Stmt.byUser] <;> exact fun h => this.2 h.symm
  have hhold := load_holdW C.pending
  refine ⟨fun hl => ?_, fun k hk => ?_⟩
  · have hlock := load_lockW hC
    rw [hl] at hlock
    have hrails := hI.rails (switching_unlocked (by simpa using hlock.symm))
    refine ⟨?_, hI.one, fun r => ?_, ?_⟩
    · have := hI.balance
      simp only [delayedReleases]
      push_cast
      omega
    · rw [hrails, Rails.on_enables]
    · rw [hrails]
      split <;> rfl
  · have h0 := (hI.expects _ hk _ _ rfl).1
    have := hI.balance
    split at this <;> omega

theorem probed_eq_init (h : ¬b.staysOn x) : State.probed b x = State.init := by
  simp only [State.probed, (powerOff_on b x).mpr h, State.init]

/-- What a failing `rknpu_power_off` leaves of probe: no reference, and everything on. -/
theorem not_sound_probed (h : b.staysOn x) : ¬Sound b ⟨State.probed b x, []⟩ := fun hs => by
  have hrails : (State.probed b x).rails = .on b :=
    powerOff_failed ((powerOff_failed_iff x _).mpr h)
  have hclks : (State.probed b x).rails.enables .clks = 0 := by
    simpa [State.probed, State.init] using (hs.1 rfl).2.2.1 .clks
  rw [hrails] at hclks
  simp [Rails.on, Board.has] at hclks

/-- The protocol is sound from where probe leaves it exactly if probe has switched the NPU off. -/
theorem power_sound_iff (b : Board) (x : Reply) :
    (∀ C, Reach (machine b) userCalls (State.probed b x) C → Sound b C) ↔ ¬b.staysOn x := by
  constructor
  · intro hall hx
    exact not_sound_probed hx (hall _ .init)
  · intro hx C hC
    rw [probed_eq_init hx] at hC
    exact sound_of_users hC

def Reply.ok : Reply := ⟨fun _ => 0, 0⟩

def usersRun : List (Label Reply Occurrence) :=
  [Label.env Occurrence.ioctl, .env .ioctl] ++ List.replicate 10 (Label.run 0 Reply.ok) ++
    List.replicate 4 (Label.run 1 Reply.ok)

theorem power_sound_usersRun : ∃ C : Conf State Stmt, C.shared.lock = false ∧
    users C.pending = 1 ∧ C.shared.work = true ∧ C.shared.refcount = 2 ∧
    C.shared.rails.enables .vdd = 1 := by
  obtain ⟨C, hC, ht⟩ := Reach.exists_of_steps
    (machine ⟨true, true, true, true, true, false, true⟩) userCalls
    (State.probed ⟨true, true, true, true, true, false, true⟩ .ok) usersRun
    (fun _ _ _ => true)
    (fun C => !C.shared.lock && C.shared.work && C.shared.refcount == 2 &&
      C.threads == [[], [.putDelay .user]])
    (fun _ _ _ _ => trivial) (by
      intro e he s B
      simp only [usersRun, List.mem_append, List.mem_cons, List.mem_replicate] at he
      simp at he
      subst he
      trivial) (by decide +kernel)
  simp only [Bool.and_eq_true, Bool.not_eq_true', beq_iff_eq] at ht
  obtain ⟨⟨⟨hl, hw⟩, hr⟩, ht⟩ := ht
  have hu : users C.pending = 1 := by
    rw [Conf.pending, ht]
    rfl
  obtain ⟨-, -, hen, -⟩ := ((power_sound_iff _ .ok).mpr (fun h => h.2 rfl) C hC).1 hl
  exact ⟨C, hl, hu, hw, hr, by rw [hen, hr]; rfl⟩

/-- A probe whose `rknpu_power_off` gives up, as it does wherever the device is in an IOMMU group
and has several power domains. -/
theorem power_unsound : ¬∀ (b : Board) (x : Reply) (C : Conf State Stmt),
    Reach (machine b) userCalls (State.probed b x) C → Sound b C := by
  intro h
  exact not_sound_probed (grouped_staysOn 10) (h .multiple (.grouped 10) _ .init)

end Users

section Debugfs

def Event.onRefs : Event → Int
  | .drop _ => 0
  | .took => 1
  | .gave n => -n

/-- The references of successful `on` writes that no `off` has given back yet. -/
def outstanding (l : List Event) : Int := (l.map Event.onRefs).sum

theorem outstanding_concat (l : List Event) (e : Event) :
    outstanding (l ++ [e]) = outstanding l + e.onRefs := by
  simp [outstanding]

/-- Every `off` has given back exactly what the `on` writes before it had taken. -/
def GivesBack (l : List Event) : Prop := ∀ l₁ n, l₁ ++ [.gave n] <+: l → n = outstanding l₁

theorem GivesBack.concat {l : List Event} {e : Event} (h : GivesBack l)
    (he : ∀ n, e = .gave n → n = outstanding l) : GivesBack (l ++ [e]) := fun l₁ n hl => by
  rcases List.prefix_concat_iff.mp hl with heq | hl
  · obtain ⟨rfl, hlast⟩ := List.append_inj' heq rfl
    exact he n (List.singleton_inj.mp hlast).symm
  · exact h l₁ n hl

structure Balanced (s : State) (B : Multiset Stmt) : Prop where
  owned : .drop .unowned ∉ s.log
  givesBack : GivesBack s.log
  outstanding : Power.outstanding s.log = s.onRefs + load claimW B

theorem exec_log (h : exec b a x s = some (s', p)) :
    s'.log = s.log ∨
      (∃ k, s'.log = s.log ++ [.drop k] ∧
        ((a = .putDec k ∨ a = .delayDec k) ∧ 0 < s.refcount ∨ a = .delayQueue k)) ∨
      (s'.log = s.log ++ [.took] ∧ a = .got .cmdline 0) ∨
      ∃ n, s'.log = s.log ++ [.gave (n + 1)] ∧ a = .offSub n := by
  cases a <;> simp only [exec, Option.some.injEq] at h
  case got u ret =>
    cases h
    by_cases hu : u = .cmdline ∧ ret = 0
    · simp [hu]
    · simp [hu]
  case putDec k => cases h; by_cases hr : 0 < s.refcount <;> simp [hr]
  case delayDec k => cases h; by_cases hr : 0 < s.refcount <;> simp [hr]
  case delayQueue k => cases h; simp
  case offSub n => cases h; simp
  all_goals
    repeat' split at h
    all_goals
      cases h <;> exact .inl rfl

namespace Balanced

/-- No reference is dropped that was not taken. -/
theorem not_unowned (ha : a.coded) (hG : (balancedGuard b).run s (a ::ₘ R) a x)
    (hI : Refs b s (a ::ₘ R)) {k : Release}
    (h : (a = .putDec k ∨ a = .delayDec k) ∧ 0 < s.refcount ∨ a = .delayQueue k) :
    k ≠ .unowned := by
  rintro rfl
  obtain ⟨rfl | rfl, hr⟩ | rfl := h
  · have := hG.2.1 (.inl rfl)
    omega
  · have := (hI.expects _ (Multiset.mem_cons_self _ _) _ _ rfl).1
    omega
  · exact ha rfl

/-- The claim of an `off` write is all that is outstanding. -/
theorem claim_eq (hI : Refs b s (a ::ₘ R)) (ha : offW a = 1) :
    load claimW R = 0 ∧ s.onRefs = 0 := by
  have hle := le_load offW (Multiset.mem_cons_self a R)
  obtain ⟨h1, -, h0⟩ := hI.node.off (by omega)
  refine ⟨load_eq_zero _ fun c hc => ?_, h0⟩
  have := load_all_eq_zero offW (by omega) ha c hc
  cases c <;> simp_all [offW, claimW]

theorem outstanding_exec (hG : (balancedGuard b).run s (a ::ₘ R) a x)
    (hI : Refs b s (a ::ₘ R)) (hbal : Balanced s (a ::ₘ R)) (h : exec b a x s = some (s', p)) :
    Power.outstanding s'.log = s'.onRefs + load claimW ((p : Multiset Stmt) + R) := by
  have hout := hbal.outstanding
  rw [load_cons] at hout
  rw [load_add]
  push_cast at hout ⊢
  have hself := Multiset.mem_cons_self a R
  cases a <;> simp only [exec, Option.some.injEq] at h
  case got u ret =>
    cases u <;> cases h <;> by_cases hr : ret = 0 <;>
      simp [claimW, afterGet, hr, outstanding_concat, Event.onRefs] at hout ⊢ <;> omega
  case putDec k =>
    cases h
    by_cases hr : 0 < s.refcount <;> by_cases h1 : s.refcount - 1 = 0 <;>
      simp [hr, h1, claimW, outstanding_concat, Event.onRefs] at hout ⊢ <;> exact hout
  case delayDec k =>
    cases h
    by_cases hr : 0 < s.refcount <;>
      simp [hr, claimW, outstanding_concat, Event.onRefs] at hout ⊢ <;> exact hout
  case offDec =>
    split at h <;> cases h
    · obtain ⟨-, hoff, hcmd⟩ := hI.node.claims hG (by omega)
      simp [claimW] at hout ⊢
      omega
    · simpa [claimW] using hout
  case offRead c =>
    obtain ⟨hc, hcmd⟩ := hI.node.read c hself
    cases h
    simp [claimW] at hout ⊢
    omega
  case offSub n =>
    obtain ⟨hn, hn0⟩ := hI.node.sub n hself
    cases h
    simp [claimW, outstanding_concat, Event.onRefs] at hout ⊢
    omega
  all_goals
    repeat' split at h
    all_goals
      cases h <;> simp [claimW, outstanding_concat, Event.onRefs] at hout ⊢ <;> exact hout

theorem exec_step (ha : a.coded) (hI : Refs b s (a ::ₘ R)) (hbal : Balanced s (a ::ₘ R))
    (hG : (balancedGuard b).run s (a ::ₘ R) a x) (h : exec b a x s = some (s', p)) :
    Balanced s' (p + R) := by
  refine ⟨?_, ?_, outstanding_exec hG hI hbal h⟩
  · obtain hl | ⟨k, hl, hk⟩ | ⟨hl, -⟩ | ⟨n, hl, -⟩ := exec_log h <;> rw [hl]
    · exact hbal.owned
    · have := not_unowned ha hG hI hk
      simp [hbal.owned, Ne.symm this]
    · simp [hbal.owned]
    · simp [hbal.owned]
  · obtain hl | ⟨k, hl, hk⟩ | ⟨hl, -⟩ | ⟨n, hl, rfl⟩ := exec_log h <;> rw [hl]
    · exact hbal.givesBack
    · exact hbal.givesBack.concat (by simp)
    · exact hbal.givesBack.concat (by simp)
    · refine hbal.givesBack.concat fun m hm => ?_
      obtain ⟨hR, h0⟩ := claim_eq hI rfl
      have hn := (hI.node.sub n (Multiset.mem_cons_self _ _)).2
      have hout := hbal.outstanding
      rw [load_cons, hR, h0] at hout
      simp only [claimW] at hout
      cases hm
      omega

theorem reach (hC : Reach (machine b) (balancedGuard b) State.init C) :
    Balanced C.shared C.pending := by
  refine hC.invariant_with (fun s B => (∀ c ∈ B, c.coded) ∧ Refs b s B) Balanced
    (fun C hC => ⟨coded hC, Refs.reach hC⟩) ⟨by simp [State.init], ?_, rfl⟩
    (fun s R a x s' p hJ hI hG h =>
      exec_step (hJ.1 a (Multiset.mem_cons_self a R)) hJ.2 hI hG h) ?_
  · intro l n hl
    simp [State.init] at hl
  · intro s R e s' p _ hI _ h
    obtain ⟨hown, hgives, hout⟩ := hI
    obtain ⟨rfl, ⟨u, hu, rfl⟩ | rfl | rfl⟩ | ⟨d, rfl, rfl⟩ | ⟨hw, rfl, rfl⟩ := occur_threads h <;>
      exact ⟨hown, hgives, by simpa [claimW] using hout⟩

end Balanced

theorem power_balanced (hC : Reach (machine b) (balancedGuard b) State.init C) :
    .drop .unowned ∉ C.shared.log ∧ GivesBack C.shared.log ∧
      users C.pending ≤ C.shared.refcount := by
  have hbal := Balanced.reach hC
  refine ⟨hbal.owned, hbal.givesBack, ?_⟩
  have := (Refs.reach hC).balance
  have := load_holdW C.pending
  split at * <;> omega

def nodeRun : List (Label Reply Occurrence) :=
  [Label.env Occurrence.on] ++ List.replicate 6 (Label.run 0 Reply.ok) ++
    [Label.env Occurrence.ioctl] ++ List.replicate 4 (Label.run 1 Reply.ok) ++
    [Label.env Occurrence.off] ++ List.replicate 8 (Label.run 2 Reply.ok)

def nodeTest (b : Board) (C : Conf State Stmt) (a : Stmt) (x : Reply) : Bool :=
  match a with
  | .getOn .cmdline => (powerOn b x C.shared.rails).2 == 0
  | .putDec .unowned | .delayRead .unowned => C.shared.refcount == 0
  | .offDec => load onW C.pending == 0 && load offW C.pending == 0
  | .onInc => load offW C.pending == 0
  | _ => true

theorem power_balanced_nodeRun : ∃ C : Conf State Stmt, .gave 1 ∈ C.shared.log ∧
    .drop .unowned ∉ C.shared.log ∧ users C.pending = 1 ∧ users C.pending ≤ C.shared.refcount := by
  obtain ⟨C, hC, ht⟩ := Reach.exists_of_steps
    (machine ⟨true, true, true, true, true, false, true⟩)
    (balancedGuard ⟨true, true, true, true, true, false, true⟩) State.init nodeRun
    (nodeTest ⟨true, true, true, true, true, false, true⟩)
    (fun C => C.shared.log.contains (.gave 1) && C.threads == [[], [.putDelay .user], []])
    (fun C a x h => by
      refine ⟨?_, ?_, ?_, ?_⟩
      · rintro rfl
        exact beq_iff_eq.mp h
      · rintro (rfl | rfl) <;> exact beq_iff_eq.mp h
      · rintro rfl -
        simpa [nodeTest] using h
      · rintro rfl
        exact beq_iff_eq.mp h)
    (fun _ _ _ _ => trivial) (by decide +kernel)
  simp only [Bool.and_eq_true, beq_iff_eq, List.contains_iff_mem] at ht
  obtain ⟨hgave, ht⟩ := ht
  have hu : users C.pending = 1 := by
    rw [Conf.pending, ht]
    rfl
  obtain ⟨hdrop, -, hle⟩ := power_balanced hC
  exact ⟨C, hgave, hdrop, hu, hle⟩

/-- A `rknpu_power_on` that fails at its first regulator. -/
def Reply.fail : Reply := ⟨fun _ => -5, 0⟩

/-- The debugfs access fails to switch the power on, an ioctl succeeds, and then the access
drops a reference all the same. -/
def freqRun : List (Label Reply Occurrence) :=
  [Label.env Occurrence.freq] ++ List.replicate 6 (Label.run 0 Reply.fail) ++
    [Label.env Occurrence.ioctl] ++
    List.replicate 5 (Label.run 1 Reply.ok) ++ List.replicate 4 (Label.run 0 Reply.ok)

theorem freq_drops : ∃ C : Conf State Stmt,
    Reach (machine ⟨true, true, true, true, true, false, true⟩) (.events fun _ => True)
      State.init C ∧
    .drop .unowned ∈ C.shared.log ∧ users C.pending = 1 ∧ C.shared.refcount = 0 ∧
    C.shared.rails.enables .clks = 0 := by
  obtain ⟨C, hC, ht⟩ := Reach.exists_of_steps
    (machine ⟨true, true, true, true, true, false, true⟩) (.events fun _ => True) State.init
    freqRun
    (fun _ _ _ => true)
    (fun C => C.shared.log.contains (.drop .unowned) && C.shared.refcount == 0 &&
      C.shared.rails.enables .clks == 0 && C.threads == [[], [.putDelay .user]])
    (fun _ _ _ _ => trivial) (fun _ _ _ _ => trivial) (by decide +kernel)
  simp only [Bool.and_eq_true, beq_iff_eq, List.contains_iff_mem] at ht
  obtain ⟨⟨⟨hdrop, hr⟩, hen⟩, ht⟩ := ht
  exact ⟨C, hC, hdrop, by rw [Conf.pending, ht]; rfl, hr, hen⟩

end Debugfs

end Rknpu.Power

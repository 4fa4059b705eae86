import Rknpu.Power

namespace Rknpu.Power

open Interleaving

/-- The references of kind `k` that a statement has still to give back. -/
def refW (k : Release) : Stmt → Nat
  | .getOn _ | .getDec _ _ | .suspended => if k = .user then 1 else 0
  | .getUnlock _ ret | .got _ ret => if k = .user ∧ ret = 0 then 1 else 0
  | .put k' | .putDec k' | .putDelay k' | .delayLock k' | .delayRead k' | .delayQueue k'
  | .delayDec k' => if k = k' ∧ k ≠ .unowned then 1 else 0
  | .putUnlock _ ret => if k = .followUp ∧ ret ≠ 0 then 1 else 0
  | .offRead c => if k = .off then c else 0
  | .offSub n => if k = .off then (n + 1).toNat else 0
  | .offSet => if k = .off then 1 else 0
  | _ => 0

def holdW (a : Stmt) : Nat := refW .user a + refW .work a + refW .followUp a + refW .off a

/-- Between taking `power_lock` and giving it back. -/
def lockW : Stmt → Nat
  | .getInc _ | .getOn _ | .getDec _ _ | .getUnlock _ _ | .putDec _ | .putOff _ | .putInc _ _
  | .putUnlock _ _ | .delayRead _ | .delayQueue _ | .delayDec _ | .delayUnlock => 1
  | _ => 0

/-- An `on` write that has counted itself, until its `rknpu_power_get` has returned. -/
def onW : Stmt → Nat
  | .get .cmdline | .getInc .cmdline | .getOn .cmdline | .getDec .cmdline _
  | .getUnlock .cmdline _ | .got .cmdline _ => 1
  | _ => 0

/-- An `off` write between its `atomic_dec_if_positive` and its `atomic_set`. -/
def offW : Stmt → Nat
  | .offRead _ | .offSub _ | .offSet => 1
  | _ => 0

/-- The references that an `off` write is about to give back. -/
def claimW : Stmt → Nat
  | .offRead c => c
  | .offSub n => (n + 1).toNat
  | _ => 0

/-- What a statement under `power_lock` relies on: the count and what is switched on. -/
def Stmt.expects (b : Board) : Stmt → Option (Int × Rails)
  | .getOn _ | .getDec _ _ => some (1, .off)
  | .putOff _ | .putInc _ _ => some (0, .on b)
  | .delayQueue _ => some (1, .on b)
  | .delayDec .unowned => some (0, .off)
  | _ => none

def Stmt.switching : Stmt → Bool
  | .getOn _ | .getDec _ _ | .putOff _ | .putInc _ _ => true
  | _ => false

/-- The condition on callers that do not look at the result of `rknpu_power_get`, and on
writes to the debugfs node `power` that overlap. -/
def balancedGuard (b : Board) : Guard State Stmt Reply Occurrence where
  run s B a x :=
    (a = .getOn .cmdline → (powerOn b x s.rails).2 = 0) ∧
    (a = .putDec .unowned ∨ a = .delayRead .unowned → s.refcount = 0) ∧
    (a = .offDec → 0 < s.cmdline → load onW B = 0 ∧ load offW B = 0) ∧
    (a = .onInc → load offW B = 0)
  env _ _ _ := True

def Stmt.coded : Stmt → Prop
  | .getDec u ret => u ≠ .cmdline ∧ ret ≠ 0
  | .putInc _ ret => ret ≠ 0
  | .delayQueue k => k ≠ .unowned
  | .getUnlock u ret | .got u ret => u = .cmdline → ret = 0
  | _ => True

/-- How the counter of the debugfs node relates to the references behind it, also while
an `off` write takes them. -/
structure Node (s : State) (B : Multiset Stmt) : Prop where
  counted : load offW B = 0 → s.cmdline = s.onRefs + load onW B
  off : 0 < load offW B → load offW B = 1 ∧ load onW B = 0 ∧ s.onRefs = 0
  read : ∀ c : Nat, .offRead c ∈ B → 0 < c ∧ (c : Int) = s.cmdline + 1
  sub : ∀ n, .offSub n ∈ B → n = s.cmdline ∧ 0 ≤ n

structure Refs (b : Board) (s : State) (B : Multiset Stmt) : Prop where
  balance : s.refcount = (if s.work then 1 else 0) + s.onRefs + load holdW B
  one : (if s.work then 1 else 0) + load (refW .work) B ≤ 1
  expects : ∀ a ∈ B, ∀ n t, a.expects b = some (n, t) → s.refcount = n ∧ s.rails = t
  two : ∀ k, k ≠ .unowned → .delayDec k ∈ B → 2 ≤ s.refcount
  rails : (∀ a ∈ B, a.switching = false) → s.rails = if 0 < s.refcount then .on b else .off
  node : Node s B

variable {b : Board} {G : Guard State Stmt Reply Occurrence} {C : Conf State Stmt}
  {s s' : State} {B R : Multiset Stmt} {a : Stmt} {x : Reply} {p : List Stmt}

theorem occur_threads {e : Occurrence} (h : occur e s = some (s', p)) :
    (s' = s ∧ ((∃ u, u ≠ .cmdline ∧ p = [.get u]) ∨ p = [.onInc] ∨ p = [.offTest])) ∨
      (∃ d, s' = { s with delay := d } ∧ p = []) ∨
      s.work ∧ s' = { s with work := false } ∧ p = [.put .work] := by
  cases e <;> simp only [occur] at h
  case timer =>
    split at h <;> cases h
    exact .inr (.inr ⟨‹_›, rfl, rfl⟩)
  case setDelay d => cases h; exact .inr (.inl ⟨d, rfl, rfl⟩)
  all_goals
    cases h
    simp

/-- `power_lock` is held by exactly one thread. -/
theorem load_lockW (hC : Reach (machine b) G State.init C) :
    (if C.shared.lock then 1 else 0 : Int) = load lockW C.pending := by
  refine Reach.balance lockW (fun s => if s.lock then 1 else 0) (fun _ => True)
    (fun _ _ _ _ => trivial) (by rfl) ?_ ?_ hC
  · intro s a x s' p _ hle h
    replace h : exec b a x s = some (s', p) := h
    have hlock : lockW a = 1 → s.lock := fun ha => by
      by_contra hn
      rw [if_neg hn] at hle
      omega
    cases a <;> simp only [exec, Option.some.injEq] at h
    case got u ret => cases u <;> cases h <;> simp [afterGet, lockW] <;> split <;> simp [lockW]
    all_goals
      repeat' split at h
      all_goals
        cases h <;> simp_all [lockW]
  · intro s e s' p h
    obtain ⟨rfl, ⟨u, -, rfl⟩ | rfl | rfl⟩ | ⟨d, rfl, rfl⟩ | ⟨hw, rfl, rfl⟩ := occur_threads h <;>
      simp [lockW]

theorem exec_coded (ha : a.coded) (hG : (balancedGuard b).run s B a x)
    (h : exec b a x s = some (s', p)) : ∀ c ∈ p, c.coded := by
  cases a <;> simp only [exec, Option.some.injEq] at h
  case getOn u =>
    split at h
    · cases h
      refine List.forall_mem_singleton.mpr ⟨?_, ‹_›⟩
      rintro rfl
      exact absurd (hG.1 rfl) ‹_›
    · cases h
      simp [Stmt.coded]
  case delayRead k =>
    have hk := hG.2.1
    split at h
    · cases h
      refine List.forall_mem_singleton.mpr ?_
      rintro rfl
      have := hk (.inr rfl)
      omega
    · cases h
      simp [Stmt.coded]
  case got u ret =>
    cases u <;> cases h <;> simp only [afterGet] <;> (try split) <;> simp [Stmt.coded]
  all_goals
    repeat' split at h
    all_goals
      cases h <;> simp_all [Stmt.coded]

theorem coded (hC : Reach (machine b) (balancedGuard b) State.init C) :
    ∀ a ∈ C.pending, a.coded := by
  refine hC.pending_all Stmt.coded (fun _ _ _ _ _ _ ha hG h => exec_coded ha hG h) ?_
  intro s B e s' p _ h
  obtain ⟨rfl, ⟨u, -, rfl⟩ | rfl | rfl⟩ | ⟨d, rfl, rfl⟩ | ⟨hw, rfl, rfl⟩ := occur_threads h <;>
    simp [Stmt.coded]

/-- Outside `power_lock` only an `off` write touches the count, and nothing is switched. -/
theorem exec_unlocked (ha : lockW a = 0) (h : exec b a x s = some (s', p)) :
    s'.rails = s.rails ∧ s'.work = s.work ∧
      (s'.refcount = s.refcount ∨ ∃ n, a = .offSub n ∧ s'.refcount = s.refcount - n) ∧
      ∀ c ∈ p, c.expects b = none ∧ c.switching = false ∧ ∀ k, c ≠ .delayDec k := by
  cases a <;> simp only [exec, Option.some.injEq] at h
  case got u ret =>
    cases u <;> cases h <;> simp only [afterGet] <;> (try split) <;>
      simp [Stmt.expects, Stmt.switching]
  all_goals
    repeat' split at h
    all_goals
      cases h <;> simp_all [Stmt.expects, Stmt.switching, lockW]

theorem holdW_of_expects (ha : a.coded) {n : Int} {t : Rails} (h : a.expects b = some (n, t)) :
    (holdW a : Int) = n := by
  cases a <;> simp only [Stmt.expects, reduceCtorEq] at h
  case delayDec k =>
    cases k <;> simp_all [holdW, refW]
  case delayQueue k =>
    cases k <;> simp_all [holdW, refW, Stmt.coded]
  all_goals simp_all [holdW, refW]

theorem holdW_offSub (n : Int) : holdW (.offSub n) = (n + 1).toNat := by simp [holdW, refW]

theorem holdW_delayDec {k : Release} (hk : k ≠ .unowned) : holdW (.delayDec k) = 1 := by
  cases k <;> simp_all [holdW, refW]

theorem holdW_delayRead {k : Release} (hk : k ≠ .unowned) : holdW (.delayRead k) = 1 := by
  cases k <;> simp_all [holdW, refW]

theorem lockW_of_expects {n : Int} {t : Rails} (h : a.expects b = some (n, t)) : lockW a = 1 := by
  cases a <;> simp_all [Stmt.expects, lockW]

theorem lockW_of_switching (h : a.switching) : lockW a = 1 := by
  cases a <;> simp_all [Stmt.switching, lockW]

theorem load_pair (f : Stmt → Nat) {c : Stmt} (hc : c ∈ R) :
    f a + f c ≤ load f (a ::ₘ R) := by
  have := le_load f hc
  rw [load_cons]
  omega

theorem exec_cmdline (ha : a.coded) (h : Power.exec b a x s = some (s', p))
    (hoff : offW a = 0) (hdec : a = .offDec → s.cmdline ≤ 0) :
    load offW (p : Multiset Stmt) = 0 ∧
      s'.cmdline + s.onRefs + onW a = s.cmdline + s'.onRefs + load onW (p : Multiset Stmt) ∧
      (s'.cmdline = s.cmdline ∨ a = .onInc) ∧ (s'.onRefs = s.onRefs ∨ onW a = 1) := by
  cases a <;> simp only [Power.exec, Option.some.injEq] at h
  case offDec =>
    rw [if_neg (by have := hdec rfl; omega)] at h
    cases h
    simp [onW]
  case got u ret =>
    cases u <;> cases h <;> by_cases hr : ret = 0 <;>
      simp [onW, offW, afterGet, hr, Stmt.coded] at ha ⊢
    omega
  case offRead | offSub | offSet => simp [offW] at hoff
  case get u => cases u <;> simp at h <;> obtain ⟨-, rfl, rfl⟩ := h <;> simp [onW, offW]
  case getInc u => cases u <;> cases h <;> split <;> simp [onW, offW]
  case getOn u => cases u <;> cases h <;> split <;> simp [onW, offW]
  case getDec u ret => cases u <;> cases h <;> simp [onW, offW, Stmt.coded] at ha ⊢
  case getUnlock u ret => cases u <;> cases h <;> simp [onW, offW]
  all_goals
    repeat' split at h
    all_goals
      cases h <;> simp [onW, offW]
      try omega

namespace Node

/-- An `off` write that claims something is alone among the writers of the node. -/
theorem claims (hG : (balancedGuard b).run s (.offDec ::ₘ R) .offDec x)
    (hI : Node s (.offDec ::ₘ R)) (hc : 0 < s.cmdline) :
    load onW R = 0 ∧ load offW R = 0 ∧ s.cmdline = s.onRefs := by
  obtain ⟨hon, hoff⟩ := hG.2.2.1 rfl hc
  have hcount := hI.counted hoff
  simp only [load_cons, onW, offW] at hon hoff hcount
  exact ⟨by omega, by omega, by omega⟩

theorem of_offW {c : Stmt} (hB : load offW B = 0) (hc : c ∈ B) : offW c = 0 := by
  have := le_load offW hc
  omega

theorem of_counted (hB : load offW B = 0) (h : s.cmdline = s.onRefs + load onW B) : Node s B where
  counted _ := h
  off hlt := absurd hB (by omega)
  read c hc := absurd (of_offW hB hc) (by simp [offW])
  sub n hn := absurd (of_offW hB hn) (by simp [offW])

theorem exec_other (ha : a.coded) (hG : (balancedGuard b).run s (a ::ₘ R) a x)
    (hI : Node s (a ::ₘ R)) (h : Power.exec b a x s = some (s', p))
    (hoff : offW a = 0) (hdec : a = .offDec → s.cmdline ≤ 0) : Node s' (p + R) := by
  obtain ⟨hp, hcount, hcmd, hrefs⟩ := exec_cmdline ha h hoff hdec
  have hload : load offW (p + R) = load offW (a ::ₘ R) := by
    rw [load_add, load_cons]
    omega
  by_cases hR : load offW (a ::ₘ R) = 0
  · have := hI.counted hR
    refine of_counted (hload.trans hR) ?_
    rw [load_cons] at this
    rw [load_add]
    push_cast at this ⊢
    omega
  obtain ⟨h1, hon, h0⟩ := hI.off (Nat.pos_of_ne_zero hR)
  rw [load_cons] at hon
  have hcmd' : s'.cmdline = s.cmdline := hcmd.resolve_right fun h => hR (hG.2.2.2 h)
  have hmem : ∀ c ∈ (p : Multiset Stmt) + R, offW c = 1 → c ∈ a ::ₘ R := fun c hc h1 =>
    (Multiset.mem_add.mp hc).elim (fun hc => absurd (of_offW hp hc) (by omega))
      Multiset.mem_cons_of_mem
  refine ⟨fun h => absurd (hload.symm.trans h) hR, fun _ => ⟨hload.trans h1, ?_, ?_⟩,
    fun c hc => ?_, fun n hn => ?_⟩
  · rw [load_add]
    omega
  · omega
  · exact hcmd' ▸ hI.read c (hmem _ hc rfl)
  · exact hcmd' ▸ hI.sub n (hmem _ hn rfl)

theorem exec_step (ha : a.coded) (hG : (balancedGuard b).run s (a ::ₘ R) a x)
    (hI : Node s (a ::ₘ R)) (h : Power.exec b a x s = some (s', p)) : Node s' (p + R) := by
  have hself := Multiset.mem_cons_self a R
  by_cases hdec : a = .offDec ∧ 0 < s.cmdline
  · obtain ⟨rfl, hc⟩ := hdec
    obtain ⟨hon, hoff, hcount⟩ := claims hG hI hc
    simp only [Power.exec, if_pos (show 0 ≤ s.cmdline - 1 by omega), Option.some.injEq] at h
    cases h
    refine ⟨fun h => by simp [offW] at h, fun _ => ⟨?_, ?_, rfl⟩, fun c hc => ?_, fun n hn => ?_⟩
    · simp [offW, hoff]
    · simp [onW, hon]
    · rcases Multiset.mem_add.mp hc with hc | hc
      · simp only [Multiset.mem_coe, List.mem_singleton, Stmt.offRead.injEq] at hc
        subst hc
        simp only
        omega
      · exact absurd (of_offW hoff hc) (by simp [offW])
    · rcases Multiset.mem_add.mp hn with hn | hn
      · simp at hn
      · exact absurd (of_offW hoff hn) (by simp [offW])
  by_cases hoff : offW a = 0
  · exact exec_other ha hG hI h hoff fun h => by
      by_contra hn
      exact hdec ⟨h, by omega⟩
  -- the steps of an `off` write: there is only the one
  have hlt : 0 < load offW (a ::ₘ R) := by
    have := le_load offW hself
    omega
  obtain ⟨h1, hon, h0⟩ := hI.off hlt
  have hR : load offW R = 0 := by
    rw [load_cons] at h1
    omega
  rw [load_cons] at hon
  cases a <;> simp only [offW, not_true_eq_false] at hoff
  case offRead c =>
    obtain ⟨hc, hcmd⟩ := hI.read c hself
    cases h
    refine ⟨fun h => by simp [offW] at h, fun _ => ⟨?_, ?_, h0⟩, fun d hd => ?_, fun n hn => ?_⟩
    · simp [offW, hR]
    · simp [onW]
      omega
    · rcases Multiset.mem_add.mp hd with hd | hd
      · simp at hd
      · exact absurd (of_offW hR hd) (by simp [offW])
    · rcases Multiset.mem_add.mp hn with hn | hn
      · simp only [Multiset.mem_coe, List.mem_singleton, Stmt.offSub.injEq] at hn
        omega
      · exact absurd (of_offW hR hn) (by simp [offW])
  case offSub n =>
    cases h
    refine ⟨fun h => by simp [offW] at h, fun _ => ⟨?_, ?_, h0⟩, fun d hd => ?_, fun n hn => ?_⟩
    · simp [offW, hR]
    · simp [onW]
      omega
    · rcases Multiset.mem_add.mp hd with hd | hd
      · simp at hd
      · exact absurd (of_offW hR hd) (by simp [offW])
    · rcases Multiset.mem_add.mp hn with hn | hn
      · simp at hn
      · exact absurd (of_offW hR hn) (by simp [offW])
  case offSet =>
    cases h
    refine of_counted (by simp [offW, hR]) ?_
    simp [onW, h0]
    omega

end Node

namespace Refs

theorem nonneg (hI : Refs b s B) : 0 ≤ s.refcount := by
  have := hI.balance
  split at this <;> omega

theorem holdW_le (hI : Refs b s B) (ha : a ∈ B) : (holdW a : Int) ≤ s.refcount := by
  have := hI.balance
  have := le_load holdW ha
  split at * <;> omega

theorem holdW_pair_le (hI : Refs b s (a ::ₘ R)) {c : Stmt} (hc : c ∈ R) :
    (holdW a + holdW c : Int) ≤ s.refcount := by
  have := hI.balance
  have := load_pair holdW (a := a) hc
  split at * <;> omega

theorem balance_exec (ha : a.coded) (hG : (balancedGuard b).run s (a ::ₘ R) a x)
    (hI : Refs b s (a ::ₘ R)) (h : Power.exec b a x s = some (s', p)) :
    s'.refcount = (if s'.work then 1 else 0) + s'.onRefs +
      load holdW ((p : Multiset Stmt) + R) := by
  have hbal := hI.balance
  have hself := Multiset.mem_cons_self a R
  have hle := hI.holdW_le hself
  rw [load_cons] at hbal
  rw [load_add]
  push_cast at hbal ⊢
  cases a <;> simp only [Power.exec, Option.some.injEq] at h
  case got u ret =>
    cases u <;> cases h <;> by_cases hr : ret = 0 <;>
      simp [holdW, refW, afterGet, hr] at hbal ⊢ <;> omega
  case putDec k =>
    have hk : k = .unowned → s.refcount = 0 := fun hk => hG.2.1 (.inl (by rw [hk]))
    obtain ⟨rfl, rfl⟩ := h
    by_cases h1 : s.refcount - 1 = 0 <;> cases k <;>
      simp [holdW, refW, decIfPositive, h1] at hbal hle hk ⊢ <;> omega
  case delayQueue k =>
    obtain ⟨h1, -⟩ := hI.expects _ hself _ _ rfl
    cases h
    cases hw : s.work <;> cases k <;> simp [holdW, refW, hw, Stmt.coded] at hbal ha ⊢ <;> omega
  case delayDec k =>
    have hk : k = .unowned → s.refcount = 0 := by
      rintro rfl
      exact (hI.expects _ hself _ _ rfl).1
    cases h
    cases k <;> simp [holdW, refW, decIfPositive] at hbal hle hk ⊢ <;> omega
  case offDec =>
    split at h <;> cases h
    · obtain ⟨hon, hoff⟩ := hG.2.2.1 rfl (by omega)
      have := hI.node.counted hoff
      simp [holdW, refW] at hbal ⊢
      omega
    · simpa [holdW, refW] using hbal
  case offRead c =>
    obtain ⟨hc, hc'⟩ := hI.node.read c hself
    cases h
    simp [holdW, refW] at hbal ⊢
    omega
  case offSub n =>
    obtain ⟨hn, hn'⟩ := hI.node.sub n hself
    cases h
    simp [holdW, refW] at hbal ⊢
    omega
  all_goals
    repeat' split at h
    all_goals
      cases h <;> simp [holdW, refW, Stmt.coded, *] at hbal ha ⊢ <;> try omega

theorem one_exec (ha : a.coded) (hI : Refs b s (a ::ₘ R)) (h : Power.exec b a x s = some (s', p)) :
    (if s'.work then 1 else 0) + load (refW .work) ((p : Multiset Stmt) + R) ≤ 1 := by
  have hone := hI.one
  rw [load_cons] at hone
  rw [load_add]
  cases a <;> simp only [Power.exec, Option.some.injEq] at h
  case delayQueue k =>
    -- the count is 1, and that is the reference that the work is given
    obtain ⟨h1, -⟩ := hI.expects _ (Multiset.mem_cons_self _ _) _ _ rfl
    have hbal := hI.balance
    have hhold := holdW_of_expects (b := b) ha rfl
    have hle : load (refW .work) R ≤ load holdW R := load_mono _ fun c _ => by
      simp only [holdW]
      omega
    rw [load_cons] at hbal
    cases h
    split at hbal <;> simp [refW] <;> omega
  case got u ret =>
    cases u <;> cases h <;> by_cases hr : ret = 0 <;> simp [refW, afterGet, hr] at hone ⊢ <;> omega
  all_goals
    repeat' split at h
    all_goals
      cases h <;> simp [refW] at hone ⊢ <;> try omega

theorem expects_other (ha : ∀ c ∈ a ::ₘ R, c.coded) (hlock : load lockW (a ::ₘ R) ≤ 1)
    (hI : Refs b s (a ::ₘ R)) (h : Power.exec b a x s = some (s', p)) {c : Stmt} (hc : c ∈ R)
    {n : Int} {t : Rails} (he : c.expects b = some (n, t)) : s'.refcount = n ∧ s'.rails = t := by
  have hcons : c ∈ a ::ₘ R := Multiset.mem_cons_of_mem hc
  have ha0 : lockW a = 0 := by
    have := load_pair lockW (a := a) hc
    have := lockW_of_expects he
    omega
  obtain ⟨hrails, -, hcount, -⟩ := exec_unlocked ha0 h
  obtain ⟨hn, ht⟩ := hI.expects c hcons n t he
  refine ⟨?_, hrails.trans ht⟩
  obtain hcount | ⟨m, rfl, -⟩ := hcount
  · exact hcount.trans hn
  · -- an `off` write has a reference of its own left, which the count includes
    have hhold := holdW_of_expects (ha c hcons) he
    have hpair := hI.holdW_pair_le hc
    have hm := (hI.node.sub m (Multiset.mem_cons_self _ _)).2
    rw [holdW_offSub] at hpair
    omega

theorem switching_other (hlock : load lockW (a ::ₘ R) ≤ 1) (ha : lockW a = 1) :
    ∀ c ∈ R, c.switching = false := fun c hc => by
  have := load_all_eq_zero lockW hlock ha c hc
  by_contra hn
  have := lockW_of_switching (Bool.eq_true_of_not_eq_false hn)
  omega

/-- What is switched on is known to the thread that has the lock and is not switching. -/
theorem rails_locked (hlock : load lockW (a ::ₘ R) ≤ 1) (hI : Refs b s (a ::ₘ R))
    (ha : lockW a = 1) (hs : a.switching = false) :
    s.rails = if 0 < s.refcount then .on b else .off :=
  hI.rails fun _ hc => (Multiset.mem_cons.mp hc).elim (fun h => h ▸ hs)
    (switching_other hlock ha _)

theorem expects_next (ha : a.coded) (hlock : load lockW (a ::ₘ R) ≤ 1)
    (hG : (balancedGuard b).run s (a ::ₘ R) a x)
    (hI : Refs b s (a ::ₘ R)) (h : Power.exec b a x s = some (s', p)) {c : Stmt} (hc : c ∈ p)
    {n : Int} {t : Rails} (he : c.expects b = some (n, t)) : s'.refcount = n ∧ s'.rails = t := by
  have hself := Multiset.mem_cons_self a R
  have hnn := hI.nonneg
  have hrails := rails_locked hlock hI
  cases a <;> simp only [Power.exec, Option.some.injEq] at h
  case getInc u =>
    have hr := hrails rfl rfl
    cases h
    split at hc <;> simp at hc <;> subst hc <;> simp [Stmt.expects] at he
    obtain ⟨rfl, rfl⟩ := he
    exact ⟨by omega, hr.trans (if_neg (by omega))⟩
  case getOn u =>
    obtain ⟨h1, h2⟩ := hI.expects _ hself _ _ rfl
    cases h
    split at hc <;> simp at hc <;> subst hc <;> simp [Stmt.expects] at he
    rename_i hf
    obtain ⟨rfl, rfl⟩ := he
    rw [h2] at hf ⊢
    exact ⟨h1, powerOn_failed hf⟩
  case putDec k =>
    have hr := hrails rfl rfl
    cases h
    split at hc <;> simp at hc <;> subst hc <;> simp [Stmt.expects] at he
    obtain ⟨rfl, rfl⟩ := he
    exact ⟨by simp [decIfPositive]; omega, hr.trans (if_pos (by omega))⟩
  case putOff k =>
    obtain ⟨h1, h2⟩ := hI.expects _ hself _ _ rfl
    cases h
    split at hc <;> simp at hc <;> subst hc <;> simp [Stmt.expects] at he
    rename_i hf
    obtain ⟨rfl, rfl⟩ := he
    rw [h2] at hf ⊢
    exact ⟨h1, powerOff_failed hf⟩
  case delayRead k =>
    have hr := hrails rfl rfl
    cases h
    split at hc <;> simp at hc <;> subst hc
    · simp only [Stmt.expects, Option.some.injEq, Prod.mk.injEq] at he
      obtain ⟨rfl, rfl⟩ := he
      exact ⟨‹_›, hr.trans (if_pos (by omega))⟩
    · cases k <;> simp [Stmt.expects] at he
      obtain ⟨rfl, rfl⟩ := he
      have h0 := hG.2.1 (.inr rfl)
      exact ⟨h0, hr.trans (if_neg (by omega))⟩
  case got u ret =>
    cases u <;> cases h <;> simp only [afterGet] at hc <;> (try split at hc) <;> simp at hc <;>
      subst hc <;> simp [Stmt.expects] at he
  all_goals
    repeat' split at h
    all_goals
      cases h <;> simp at hc <;> try (subst hc; simp [Stmt.expects] at he)

theorem two_exec (hlock : load lockW (a ::ₘ R) ≤ 1) (hI : Refs b s (a ::ₘ R))
    (h : Power.exec b a x s = some (s', p)) {k : Release} (hk : k ≠ .unowned)
    (hc : .delayDec k ∈ (p : Multiset Stmt) + R) : 2 ≤ s'.refcount := by
  have hself := Multiset.mem_cons_self a R
  rcases Multiset.mem_add.mp hc with hc | hc
  · cases a <;> simp only [Power.exec, Option.some.injEq] at h
    case delayRead k' =>
      cases h
      split at hc <;> simp at hc
      subst hc
      have := hI.holdW_le hself
      rw [holdW_delayRead hk] at this
      omega
    case got u ret =>
      cases u <;> cases h <;> simp only [afterGet] at hc <;> (try split at hc) <;> simp at hc
    all_goals
      repeat' split at h
      all_goals
        cases h <;> simp at hc
  · have h2 := hI.two k hk (Multiset.mem_cons_of_mem hc)
    have ha0 : lockW a = 0 := by
      have := load_pair lockW (a := a) hc
      have : lockW (.delayDec k) = 1 := rfl
      omega
    obtain ⟨-, -, hcount | ⟨m, rfl, hcount⟩, -⟩ := exec_unlocked ha0 h
    · omega
    · have hpair := hI.holdW_pair_le hc
      have hm := (hI.node.sub m hself).2
      rw [holdW_offSub, holdW_delayDec hk] at hpair
      omega

theorem rails_exec (hlock : load lockW (a ::ₘ R) ≤ 1)
    (hI : Refs b s (a ::ₘ R)) (h : Power.exec b a x s = some (s', p))
    (hs : ∀ c ∈ (p : Multiset Stmt) + R, c.switching = false) :
    s'.rails = if 0 < s'.refcount then .on b else .off := by
  have hself := Multiset.mem_cons_self a R
  have hnn := hI.nonneg
  by_cases hl : lockW a = 0
  · have hrails := hI.rails fun c hc => (Multiset.mem_cons.mp hc).elim
      (fun hc => by
        by_contra hn
        have := lockW_of_switching (Bool.eq_true_of_not_eq_false hn)
        subst hc
        omega) fun hc => hs c (Multiset.mem_add.mpr (.inr hc))
    obtain ⟨hr, -, hcount | ⟨m, rfl, hm⟩, -⟩ := exec_unlocked hl h
    · rw [hr, hcount, hrails]
    · have hle := hI.holdW_le hself
      have := (hI.node.sub m hself).2
      rw [holdW_offSub] at hle
      rw [hr, hrails, if_pos (by omega), if_pos (by omega)]
  have hl1 : lockW a = 1 := by
    have := le_load lockW hself
    omega
  have hrails := rails_locked hlock hI hl1
  have hp : ∀ c ∈ p, c.switching = false := fun c hc =>
    hs c (Multiset.mem_add.mpr (.inl (Multiset.mem_coe.mpr hc)))
  cases a <;> simp only [lockW, not_true_eq_false] at hl <;>
    simp only [Power.exec, Option.some.injEq] at h
  case getInc u =>
    have hr := hrails rfl
    cases h
    split at hp
    · simp [Stmt.switching] at hp
    · rw [hr, if_pos (by omega), if_pos (by simp; omega)]
  case getOn u =>
    obtain ⟨h1, h2⟩ := hI.expects _ hself _ _ rfl
    cases h
    split at hp
    · simp [Stmt.switching] at hp
    · rename_i hf
      rw [h2] at hf ⊢
      rw [powerOn_succeeded (not_not.mp hf), if_pos (by simp [h1])]
  case getDec u ret =>
    obtain ⟨h1, h2⟩ := hI.expects _ hself _ _ rfl
    cases h
    rw [h2, if_neg (by simp; omega)]
  case putDec k =>
    have hr := hrails rfl
    cases h
    split at hp
    · simp [Stmt.switching] at hp
    · refine hr.trans (if_congr ?_ rfl rfl)
      simp only [decIfPositive]
      split <;> omega
  case putOff k =>
    obtain ⟨h1, h2⟩ := hI.expects _ hself _ _ rfl
    cases h
    split at hp
    · simp [Stmt.switching] at hp
    · rename_i hf
      rw [h2] at hf ⊢
      rw [powerOff_succeeded (not_not.mp hf), if_neg (by simp [h1])]
  case putInc k ret =>
    obtain ⟨h1, h2⟩ := hI.expects _ hself _ _ rfl
    cases h
    rw [h2, if_pos (by simp; omega)]
  case delayDec k =>
    have hr := hrails rfl
    cases h
    refine hr.trans (if_congr ?_ rfl rfl)
    simp only [decIfPositive]
    by_cases hk : k = .unowned
    · subst hk
      have h0 := (hI.expects _ hself _ _ rfl).1
      split <;> omega
    · have h2 := hI.two k hk hself
      split <;> omega
  case delayRead | delayQueue | delayUnlock | getUnlock | putUnlock =>
    cases h
    exact hrails rfl

theorem exec_step (ha : ∀ c ∈ a ::ₘ R, c.coded) (hlock : load lockW (a ::ₘ R) ≤ 1)
    (hI : Refs b s (a ::ₘ R)) (hG : (balancedGuard b).run s (a ::ₘ R) a x)
    (h : Power.exec b a x s = some (s', p)) : Refs b s' (p + R) := by
  have haa := ha a (Multiset.mem_cons_self a R)
  exact {
    balance := balance_exec haa hG hI h
    one := one_exec haa hI h
    expects := fun c hc n t he => (Multiset.mem_add.mp hc).elim
      (fun hc => expects_next haa hlock hG hI h (Multiset.mem_coe.mp hc) he)
      fun hc => expects_other ha hlock hI h hc he
    two := fun k hk hc => two_exec hlock hI h hk hc
    rails := rails_exec hlock hI h
    node := hI.node.exec_step haa hG h }

theorem occur_step {e : Occurrence} (hI : Refs b s R) (h : occur e s = some (s', p)) :
    Refs b s' (p + R) := by
  have hp : ∀ c ∈ p, c.expects b = none ∧ c.switching = false ∧ onW c = 0 ∧ offW c = 0 ∧
      ∀ k, c ≠ .delayDec k := by
    obtain ⟨rfl, ⟨u, hu, rfl⟩ | rfl | rfl⟩ | ⟨d, rfl, rfl⟩ | ⟨hw, rfl, rfl⟩ := occur_threads h
    · cases u <;> simp_all [Stmt.expects, Stmt.switching, onW, offW]
    all_goals simp [Stmt.expects, Stmt.switching, onW, offW]
  have hsame : s'.refcount = s.refcount ∧ s'.cmdline = s.cmdline ∧ s'.rails = s.rails ∧
      s'.onRefs = s.onRefs := by
    obtain ⟨rfl, -⟩ | ⟨d, rfl, -⟩ | ⟨hw, rfl, -⟩ := occur_threads h <;> simp
  have htokens : (if s'.work then 1 else 0) + load holdW (p : Multiset Stmt) =
        (if s.work then 1 else 0) ∧
      (if s'.work then 1 else 0) + load (refW .work) (p : Multiset Stmt) =
        (if s.work then 1 else 0) := by
    obtain ⟨rfl, ⟨u, hu, rfl⟩ | rfl | rfl⟩ | ⟨d, rfl, rfl⟩ | ⟨hw, rfl, rfl⟩ := occur_threads h <;>
      simp_all [holdW, refW]
  obtain ⟨hcount, hcmd, hr, hon⟩ := hsame
  have honp : load onW (p : Multiset Stmt) = 0 :=
    load_eq_zero _ fun c hc => (hp c (Multiset.mem_coe.mp hc)).2.2.1
  have hoffp : load offW (p : Multiset Stmt) = 0 :=
    load_eq_zero _ fun c hc => (hp c (Multiset.mem_coe.mp hc)).2.2.2.1
  have hold : ∀ c ∈ (p : Multiset Stmt) + R,
      (c.expects b = none ∧ offW c = 0 ∧ ∀ k, c ≠ .delayDec k) ∨ c ∈ R := fun c hc =>
    (Multiset.mem_add.mp hc).imp_left fun hc => by
      obtain ⟨h1, -, -, h4, h5⟩ := hp c (Multiset.mem_coe.mp hc)
      exact ⟨h1, h4, h5⟩
  have hbal := hI.balance
  have hone := hI.one
  refine ⟨?_, ?_, fun c hc n t he => ?_, fun k hk hc => ?_, fun hs => ?_,
    fun h => ?_, fun h => ?_, fun c hc => ?_, fun n hn => ?_⟩
  · rw [load_add]
    have := congrArg (Nat.cast (R := Int)) htokens.1
    push_cast at this ⊢
    omega
  · rw [load_add]
    omega
  · rcases hold c hc with ⟨h1, -, -⟩ | hc
    · exact absurd (h1.symm.trans he) (by simp)
    · rw [hcount, hr]
      exact hI.expects c hc n t he
  · rcases hold _ hc with ⟨-, -, h5⟩ | hc
    · exact absurd rfl (h5 k)
    · exact hcount ▸ hI.two k hk hc
  · rw [hr, hcount]
    exact hI.rails fun c hc => hs c (Multiset.mem_add.mpr (.inr hc))
  · rw [load_add] at h ⊢
    rw [hcmd, hon, hI.node.counted (by omega), honp, Nat.zero_add]
  · rw [load_add] at h ⊢
    rw [load_add, hoffp, honp, hon, Nat.zero_add, Nat.zero_add]
    exact hI.node.off (by omega)
  · rcases hold _ hc with ⟨-, h2, -⟩ | hc
    · exact absurd h2 (by simp [offW])
    · exact hcmd ▸ hI.node.read c hc
  · rcases hold _ hn with ⟨-, h2, -⟩ | hn
    · exact absurd h2 (by simp [offW])
    · exact hcmd ▸ hI.node.sub n hn

theorem reach (hC : Reach (machine b) (balancedGuard b) State.init C) :
    Refs b C.shared C.pending := by
  refine hC.invariant_with
    (fun _ B => (∀ c ∈ B, c.coded) ∧ load lockW B ≤ 1) (Refs b)
    (fun C hC => ⟨coded hC, ?_⟩) ?_ (fun s R a x s' p hJ hI hG h => hI.exec_step hJ.1 hJ.2 hG h)
    (fun s R e s' p _ hI _ h => hI.occur_step h)
  · have := load_lockW hC
    split at this <;> omega
  · exact ⟨rfl, by simp [State.init], by simp, by simp, fun _ => rfl,
      ⟨fun _ => rfl, by simp, by simp, by simp⟩⟩

end Refs

end Rknpu.Power

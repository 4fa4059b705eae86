import Rknpu.Interleaving.Returns
import Rknpu.System

namespace Rknpu

open Interleaving

/-- An entry of `srsts`: whether it is NULL, and what the calls on it answer. -/
structure ResetControl where
  null : Bool
  assertRet : BitVec 32
  deassertRet : BitVec 32

def resetCall (null : Bool) (ret : BitVec 32) : BitVec 32 :=
  if null then .ofInt 32 (-einval) else if ret.slt 0 then ret else 0

/-- `rknpu_reset_assert` -/
def resetAssert (r : ResetControl) : BitVec 32 := resetCall r.null r.assertRet

/-- `rknpu_reset_deassert` -/
def resetDeassert (r : ResetControl) : BitVec 32 := resetCall r.null r.deassertRet

inductive LineCall where
  | assert (i : Nat)
  | deassert (i : Nat)
deriving DecidableEq

/-- One of the loops over the controls, from index `i` on: the errors are collected in
`ret`, and the loop goes on. A NULL control is not passed on. -/
def lineLoop (f : ResetControl → BitVec 32) (call : Nat → LineCall) :
    Nat → List ResetControl → BitVec 32 × List LineCall → BitVec 32 × List LineCall
  | _, [], q => q
  | i, r :: l, q =>
    lineLoop f call (i + 1) l (q.1 ||| f r, if r.null then q.2 else q.2 ++ [call i])

/-- What `rknpu_soft_reset` does with the controls. -/
def resetLines (l : List ResetControl) : BitVec 32 × List LineCall :=
  lineLoop resetDeassert .deassert 0 l (lineLoop resetAssert .assert 0 l (0, []))

def lineAnswers (l : List ResetControl) (a : Stmt) (x : Int) : Prop :=
  a = .resetHw → x = (resetLines l).1.toInt

/-- What `soft_reseting` gates: `rknpu_job_next` goes on to the lists, and the wait for a
job that is not done does not end before its time. -/
structure Ungated (P : Platform) (s : Dev) : Prop where
  next : ∀ c x, exec P (.jobNext c) x s = some (s, [.pickUp c])
  wait : ∀ j n x, (s.jobs j).done = false → 0 < x → exec P (.waitEvent j n) x s = none

/-- How `rknpu_soft_reset` has to leave the device. -/
structure ResetEnded (P : Platform) (l : List ResetControl) (s : Dev) : Prop where
  unlocked : s.resetLock = false
  cleared : s.softReseting = false
  deasserted : ∀ i r, l[i]? = some r → resetAssert r = 0 → .deassert i ∈ (resetLines l).2
  ungated : Ungated P s

def ResetControl.works (r : ResetControl) : Prop := resetAssert r = 0 ∧ resetDeassert r = 0

variable {P : Platform} {s : Dev} {l : List ResetControl}
  {f : ResetControl → BitVec 32} {call : Nat → LineCall} {i : Nat} {q : BitVec 32 × List LineCall}

theorem lineLoop_ret : (lineLoop f call i l q).1 = 0 ↔ q.1 = 0 ∧ ∀ r ∈ l, f r = 0 := by
  induction l generalizing i q with
  | nil => simp [lineLoop]
  | cons r l ih =>
    rw [lineLoop, ih]
    simp only [BitVec.ofNat_eq_ofNat, BitVec.or_eq_zero_iff, List.forall_mem_cons, and_assoc]

theorem resetLines_ret : (resetLines l).1 = 0 ↔ ∀ r ∈ l, r.works := by
  simp only [resetLines, lineLoop_ret, true_and, ResetControl.works, forall₂_and]

theorem lineLoop_keeps {e : LineCall} (he : e ∈ q.2) : e ∈ (lineLoop f call i l q).2 := by
  induction l generalizing i q with
  | nil => exact he
  | cons r l ih =>
    refine ih ?_
    dsimp only
    split
    · exact he
    · exact List.mem_append_left _ he

theorem lineLoop_calls {n : Nat} {r : ResetControl} (hr : l[n]? = some r) (hn : r.null = false) :
    call (i + n) ∈ (lineLoop f call i l q).2 := by
  induction l generalizing i n q with
  | nil => simp at hr
  | cons r' l ih =>
    cases n with
    | zero =>
      obtain rfl : r' = r := by simpa using hr
      have hq : (if r'.null then q.2 else q.2 ++ [call i]) = q.2 ++ [call i] := if_neg (by simp [hn])
      rw [lineLoop, hq]
      exact lineLoop_keeps (List.mem_append_right _ List.mem_cons_self)
    | succ n =>
      rw [Nat.add_comm n, ← Nat.add_assoc]
      exact ih (by simpa using hr)

theorem not_null_of_assert {r : ResetControl} (h : resetAssert r = 0) : r.null = false := by
  cases hn : r.null
  · rfl
  · exact absurd h (by simp [resetAssert, resetCall, hn, einval])

/-- Whatever the first loop has met, the second goes over all controls. -/
theorem deassert_called {r : ResetControl} (hr : l[i]? = some r) (h : resetAssert r = 0) :
    .deassert i ∈ (resetLines l).2 := by
  have hcall : .deassert (0 + i) ∈ (lineLoop resetDeassert .deassert 0 l
      (lineLoop resetAssert .assert 0 l (0, []))).2 := lineLoop_calls hr (not_null_of_assert h)
  rwa [Nat.zero_add] at hcall

theorem ungated (h : s.softReseting = false) : Ungated P s where
  next c x := by simp [exec, jobNext, h]
  wait j n x hd hx := by simp [exec, waitEvent, hd, h, hx]

theorem returns_other {a : Stmt} {s' t : Dev} {p k : List Stmt} (ha : a ≠ .resetHw)
    (he : ∀ x, exec P a x s = some (s', p)) :
    Returns (driver P) (lineAnswers l) s (a :: k) t ↔
      Returns (driver P) (lineAnswers l) s' (p ++ k) t :=
  Returns.iff_of_exec (x := 0) (fun h => absurd h ha) he

theorem returns_resetHw {t : Dev} :
    Returns (driver P) (lineAnswers l) s [.resetHw] t ↔
      Returns (driver P) (lineAnswers l) (resetHw s (resetLines l).1.toInt).1
        (resetHw s (resetLines l).1.toInt).2 t := by
  constructor
  · intro h
    cases h with
    | cons hans hrun h =>
      obtain rfl := hans rfl
      obtain ⟨rfl, rfl⟩ := Prod.mk.injEq .. ▸ Option.some.inj hrun
      rwa [List.append_nil] at h
  · intro h
    refine .cons (fun _ => rfl) rfl ?_
    rwa [List.append_nil]

theorem toInt_ret {v : BitVec 32} : v.toInt = 0 ↔ v = 0 := by
  rw [← BitVec.toInt_inj]
  rfl

/-- The call comes to its end, and does so as `ResetEnded` says. -/
def EndsReset (P : Platform) (l : List ResetControl) (s : Dev) : Prop :=
  (∃ t, Returns (driver P) (lineAnswers l) s [.softReset] t) ∧
    ∀ t, Returns (driver P) (lineAnswers l) s [.softReset] t → ResetEnded P l t

def Dev.marked (s : Dev) : Dev := { s with resetLock := true, softReseting := true }

theorem softReset_returns {t : Dev} (hb : P.bypassSoftReset = false) (hl : s.resetLock = false) :
    Returns (driver P) (lineAnswers l) s [.softReset] t ↔
      Returns (driver P) (lineAnswers l) s.marked [.resetHw] t := by
  have h₁ : ∀ x, exec P .softReset x s = some ({ s with resetLock := true }, [.resetMark]) :=
    fun _ => by simp [exec, softReset, hb, hl]
  have h₂ : ∀ x, exec P .resetMark x { s with resetLock := true } = some (s.marked, [.resetHw]) :=
    fun _ => rfl
  exact (returns_other (by simp) h₁).trans (returns_other (by simp) h₂)

/-- A failure returns before the flag is cleared. -/
theorem resetHw_failed {t : Dev} (hr : (resetLines l).1 ≠ 0) :
    Returns (driver P) (lineAnswers l) s [.resetHw] t ↔ t = { s with resetLock := false } := by
  have hx : (resetLines l).1.toInt ≠ 0 := fun h => hr (toInt_ret.mp h)
  rw [returns_resetHw, resetHw, if_neg hx]
  exact Returns.nil_iff

theorem resetHw_worked {t : Dev} (hr : (resetLines l).1 = 0) :
    Returns (driver P) (lineAnswers l) s [.resetHw] t ↔
      t = (resetUnlock (stateInit P (resetEnd (resetHw s 0).1).1).1).1 := by
  have hx : (resetLines l).1.toInt = 0 := toInt_ret.mpr hr
  rw [returns_resetHw, hx]
  have h₁ : ∀ x, exec P .resetEnd x (resetHw s 0).1 = some (resetEnd (resetHw s 0).1) := fun _ => rfl
  have h₂ : ∀ x, exec P .stateInit x (resetEnd (resetHw s 0).1).1 =
    some (stateInit P (resetEnd (resetHw s 0).1).1) := fun _ => rfl
  have h₃ : ∀ x, exec P .resetUnlock x (stateInit P (resetEnd (resetHw s 0).1).1).1 =
    some (resetUnlock (stateInit P (resetEnd (resetHw s 0).1).1).1) := fun _ => rfl
  exact (((returns_other (by simp) h₁).trans (returns_other (by simp) h₂)).trans
    (returns_other (by simp) h₃)).trans Returns.nil_iff

theorem resetUnlock_flags :
    (resetUnlock (stateInit P (resetEnd (resetHw s 0).1).1).1).1.resetLock = false ∧
      (resetUnlock (stateInit P (resetEnd (resetHw s 0).1).1).1).1.softReseting = false := by
  unfold stateInit
  split <;> exact ⟨rfl, rfl⟩

/-- A soft reset that gets the lock ends as it should exactly if every control could be
asserted and deasserted: after an error the flag stays set. -/
theorem soft_reset_ends_iff (P : Platform) (l : List ResetControl) (s : Dev)
    (hb : P.bypassSoftReset = false) (hl : s.resetLock = false) :
    EndsReset P l s ↔ ∀ r ∈ l, r.works := by
  rw [← resetLines_ret, EndsReset]
  simp only [softReset_returns hb hl]
  by_cases hr : (resetLines l).1 = 0
  · obtain ⟨hlock, hflag⟩ := resetUnlock_flags (P := P) (s := s.marked)
    simp only [resetHw_worked hr, forall_eq, exists_eq, true_and, iff_true_right hr]
    exact ⟨hlock, hflag, fun _ _ => deassert_called, ungated hflag⟩
  · simp only [resetHw_failed hr, forall_eq, exists_eq, true_and, hr, iff_false]
    exact fun h => Bool.noConfusion h.cleared

def workingControls : List ResetControl := [⟨false, 0, 0⟩, ⟨false, 0, 0⟩]

theorem soft_reset_ends_working : workingControls.length = 2 ∧
    EndsReset (board rk3588Config) workingControls Dev.init :=
  ⟨rfl, (soft_reset_ends_iff (board rk3588Config) workingControls Dev.init rfl rfl).mpr (by
    simp only [workingControls, ResetControl.works]
    decide)⟩

def stuckControls : List ResetControl := [⟨false, 0, 0⟩, ⟨false, 0, .ofInt 32 (-5)⟩]

theorem soft_reset_stuck : ¬∀ (P : Platform) (l : List ResetControl) (s : Dev),
    P.bypassSoftReset = false → s.resetLock = false → EndsReset P l s := by
  intro h
  have he := h (board rk3588Config) stuckControls Dev.init rfl rfl
  have hret :
      Returns (driver (board rk3588Config)) (lineAnswers stuckControls) Dev.init [.softReset] _ :=
    (softReset_returns rfl rfl).mpr ((resetHw_failed (by decide)).mpr rfl)
  exact Bool.noConfusion (he.2 _ hret).cleared

end Rknpu

import Rknpu.Interleaving.Locks
import Rknpu.PowerRelease
import Rknpu.PowerUsers

namespace Rknpu.Power

open Interleaving

variable {b : Board} {C D : Conf State Stmt} {s s' : State} {R : Multiset Stmt} {a : Stmt}
  {x : Reply} {p : List Stmt} {k : List Stmt}

section Line

theorem exec_single (h : exec b a x s = some (s', p)) : p.length ≤ 1 := by
  cases a <;> simp only [exec, Option.some.injEq] at h
  case got u ret => cases u <;> cases h <;> by_cases hr : ret = 0 <;> simp [afterGet, hr]
  all_goals
    repeat' split at h
    all_goals
      cases h <;> simp

theorem threads_single {G : Guard State Stmt Reply Occurrence} (hC : Reach (machine b) G State.init C) :
    ∀ t ∈ C.threads, t.length ≤ 1 := by
  refine hC.threads_all (fun t => t.length ≤ 1) ?_ ?_
  · intro s B a k x s' p hk _ h
    have hp := exec_single h
    simp only [List.length_cons] at hk
    simp only [List.length_append]
    omega
  · intro s B e s' p _ h
    obtain ⟨-, ⟨u, -, rfl⟩ | rfl | rfl⟩ | ⟨d, -, rfl⟩ | ⟨-, -, rfl⟩ := occur_threads h <;> simp

/-- `power_lock`, the only one. -/
def powerLock : Locking State Stmt Unit where
  held s _ := s.lock
  holds _ := lockW
  wants
    | .get _ | .put _ | .delayLock _ => some ()
    | _ => none
  level _ := 0
  top := 0
  level_le _ := Nat.le_refl 0
  ordered a _ _ hw hpos := by
    cases a <;> first | (cases hw; done) | exact absurd hpos (by simp [lockW])

theorem exec_isSome (h : powerLock.Open s a) (x : Reply) : (exec b a x s).isSome := by
  cases a
  case get | put | delayLock =>
    have hl : s.lock = false := h () rfl
    simp [exec, hl]
  all_goals
    simp only [exec]
    repeat' split
    all_goals rfl

variable {H : Guard State Stmt Reply Occurrence}

theorem pending_eq_zero_of_final {G : Guard State Stmt Reply Occurrence}
    (hC : Reach (machine b) G State.init C) (hF : Final (machine b) H C)
    (hrun : ∀ a ∈ C.pending, ∃ x, H.run C.shared C.pending a x) : C.pending = 0 :=
  hF.pending_eq_zero_of_locks (K := powerLock) (fun _ => load_lockW hC) (threads_single hC)
    fun a ha hopen => by
      obtain ⟨x, hx⟩ := hrun a ha
      exact ⟨x, hx, exec_isSome hopen x⟩

end Line

/-- Where no call is left, the only reference is that of a queued delayed release. -/
theorem rest_state (hC : Reach (machine b) userCalls State.init C) (h0 : C.pending = 0) :
    C.shared.refcount = (if C.shared.work then 1 else 0) ∧
      C.shared.rails = (if C.shared.work then .on b else .off) ∧ C.shared.lock = false := by
  have hI := Refs.reach (balanced_of_users hC)
  have hlock := load_lockW hC
  have hbalance := hI.balance
  have hrails := hI.rails (by simp [h0])
  rw [h0] at hlock hbalance
  rw [(byUser hC).1] at hbalance
  refine ⟨by simpa using hbalance, ?_, by simpa using hlock⟩
  cases hw : C.shared.work <;> simp_all

theorem usersRun_reaches : ∃ C : Conf State Stmt, Reach (machine .multiple) userCalls State.init C ∧
    C.shared.work = true ∧ users C.pending = 1 := by
  obtain ⟨C, hC, ht⟩ := Reach.exists_of_steps (machine .multiple) userCalls State.init usersRun
    (fun _ _ _ => true) (fun C => C.shared.work && C.threads == [[], [.putDelay .user]])
    (fun _ _ _ _ => trivial) (by
      intro e he s B
      simp only [usersRun, List.mem_append, List.mem_cons, List.mem_replicate] at he
      simp at he
      subst he
      trivial) (by decide +kernel)
  simp only [Bool.and_eq_true, beq_iff_eq] at ht
  obtain ⟨hw, ht⟩ := ht
  exact ⟨C, hC, hw, by rw [Conf.pending, ht]; rfl⟩

section Returns

/-- No new call begins, and no delayed release. -/
def returning : Guard State Stmt Reply Occurrence := .events fun _ => False

/-- A bound on the statements of a call where every `rknpu_power_off` fails. -/
def span : Stmt → Nat
  | .delayUnlock => 1
  | .delayQueue _ | .delayDec _ => 2
  | .delayRead _ => 3
  | .delayLock _ => 4
  | .putDelay _ => 5
  | .putUnlock _ _ => 6
  | .putInc _ _ => 7
  | .putOff _ => 8
  | .putDec _ => 9
  | .put _ => 10
  | .suspended | .offSet => 11
  | .got _ _ | .offSub _ => 12
  | .getUnlock _ _ | .offRead _ => 13
  | .getDec _ _ | .offDec => 14
  | .getOn _ | .offTest => 15
  | .getInc _ => 16
  | .get _ => 17
  | .onInc => 18

theorem exec_delay (h : exec b a x s = some (s', p)) : s'.delay = s.delay := by
  cases a <;> simp only [exec, Option.some.injEq] at h
  case got u ret => cases h; split <;> rfl
  all_goals
    repeat' split at h
    all_goals
      cases h <;> rfl

theorem delayed (hC : Reach (machine b) userCalls State.init C) : C.shared.delay ≠ 0 := by
  refine hC.invariant (fun s _ => s.delay ≠ 0) (by simp [State.init]) ?_ ?_
  · intro s R a x s' p hs _ h
    rw [exec_delay h]
    exact hs
  · intro s R e s' p hs hG h
    cases e
    case timer =>
      obtain ⟨-, h⟩ := Option.ite_none_right_eq_some.mp h
      cases h
      exact hs
    case setDelay d =>
      cases h
      exact hG
    all_goals
      cases h
      exact hs

theorem span_exec (hd : s.delay ≠ 0) (h : exec b a x s = some (s', p)) :
    load span (p : Multiset Stmt) < span a := by
  cases a <;> simp only [exec, Option.some.injEq] at h
  case got u ret => cases u <;> cases h <;> by_cases hr : ret = 0 <;> simp [afterGet, span, hr]
  all_goals
    repeat' split at h
    all_goals
      cases h <;> simp_all [span]

theorem span_ranks (b : Board) :
    Ranking (machine b) userCalls returning State.init fun _ B => load span B := by
  refine .of_steps ⟨fun _ _ _ _ _ => trivial, fun _ _ _ h => h.elim⟩ (fun s _ => s.delay ≠ 0)
    (fun C hC => delayed hC) ?_ fun _ _ _ _ _ _ hG _ => hG.elim
  intro s R a x s' p hs _ h
  have := span_exec hs h
  rw [load_add, load_cons]
  omega

/-- Whether `rknpu_power_on` and `rknpu_power_off` succeed or fail and whoever gets `power_lock`
first, the calls that have begun return after at most so many steps, and they leave nothing but
a delayed release. -/
theorem calls_return (hC : Reach (machine b) userCalls State.init C) :
    ∀ n D, Path (machine b) returning C n D →
      n + load span D.pending ≤ load span C.pending ∧
      (∃ m E, Path (machine b) returning D m E ∧ Final (machine b) returning E) ∧
      (Final (machine b) returning D → D.pending = 0 ∧
        D.shared.refcount = (if D.shared.work then 1 else 0) ∧
        D.shared.rails = (if D.shared.work then .on b else .off) ∧ D.shared.lock = false) := by
  intro n D hp
  have hR := span_ranks b
  have hD := hC.path hR.within hp
  refine ⟨hR.path_le hC hp, hR.exists_final hD, fun hF => ?_⟩
  have h0 := pending_eq_zero_of_final hD hF fun a _ => ⟨Reply.ok, trivial⟩
  exact ⟨h0, rest_state hD h0⟩

theorem calls_return_usersRun : ∃ C D : Conf State Stmt, C.shared.work = true ∧
    users C.pending = 1 ∧ (∃ n ≤ load span C.pending, Path (machine .multiple) returning C n D) ∧
    D.pending = 0 ∧ D.shared.lock = false := by
  obtain ⟨C, hC, hw, hu⟩ := usersRun_reaches
  obtain ⟨n, D, hp, hF⟩ := (calls_return hC 0 C .refl).2.1
  obtain ⟨hle, -, hend⟩ := calls_return hC n D hp
  obtain ⟨h0, -, -, hl⟩ := hend hF
  exact ⟨C, D, hw, hu, ⟨n, Nat.le_of_add_right_le hle, hp⟩, h0, hl⟩

end Returns

section Release

/-- No new call begins but the delayed release, and the IOMMU is disabled in time. -/
def quiet (b : Board) : Guard State Stmt Reply Occurrence where
  run _ _ a x := ∀ k, a = .putOff k → ¬b.staysOn x
  env _ _ e := e = .timer

/-- A bound on the statements of a call and of the delayed release that it queues. -/
def weight : Stmt → Nat
  | .delayUnlock => 1
  | .putUnlock _ ret => if ret = 0 then 1 else 11
  | .putOff _ | .delayDec _ => 2
  | .putDec _ => 3
  | .put _ => 4
  | .offSet => 5
  | .offSub _ => 6
  | .delayQueue _ | .offRead _ => 7
  | .delayRead _ | .offDec => 8
  | .delayLock _ | .offTest => 9
  | .putDelay _ => 10
  | .suspended => 11
  | .putInc _ _ | .got _ _ => 12
  | .getUnlock _ _ => 13
  | .getDec _ _ => 14
  | .getOn _ => 15
  | .getInc _ => 16
  | .get _ => 17
  | .onInc => 18

def work (s : State) : Nat := if s.work then 5 else 0

def rank (s : State) (B : Multiset Stmt) : Nat := load weight B + work s

theorem weight_exec (hx : ∀ k, a = .putOff k → ¬b.staysOn x) (h : exec b a x s = some (s', p)) :
    load weight (p : Multiset Stmt) + work s' < weight a + work s := by
  cases a <;> simp only [exec, Option.some.injEq] at h
  case got u ret =>
    cases u <;> cases h <;> by_cases hr : ret = 0 <;> simp [afterGet, weight, work, hr]
  case putOff k =>
    have h0 : (powerOff b x s.rails).2 = 0 := by
      by_contra hne
      exact hx k rfl ((powerOff_failed_iff x s.rails).mp hne)
    rw [if_neg (not_not.mpr h0)] at h
    cases h
    simp [weight, work]
  case delayQueue k =>
    cases h
    cases hw : s.work <;> simp [weight, work, hw]
  case putInc k ret =>
    cases h
    by_cases hr : ret = 0 <;> simp [weight, work, hr]
  all_goals
    repeat' split at h
    all_goals
      cases h <;> simp_all [weight, work]

theorem rank_ranks (b : Board) : Ranking (machine b) userCalls (quiet b) State.init rank := by
  refine .of_steps ⟨fun _ _ _ _ _ => trivial, fun _ _ e he => by cases he; trivial⟩
    (fun _ _ => True) (fun _ _ => trivial) ?_ ?_
  · intro s R a x s' p _ hG h
    have := weight_exec hG h
    simp only [rank, load_add, load_cons]
    omega
  · rintro s R e s' p - rfl h
    obtain ⟨hw, h⟩ := Option.ite_none_right_eq_some.mp h
    cases h
    simp [rank, work, weight, hw]
    omega

/-- Once no new call comes in and the IOMMU is disabled in time, the NPU is switched off: the
calls that have begun and the delayed release take at most `rank` steps more, whatever their
order, and then nothing is enabled and no reference is left. -/
theorem power_settles (hC : Reach (machine b) userCalls State.init C) :
    ∀ n D, Path (machine b) (quiet b) C n D →
      n + rank D.shared D.pending ≤ rank C.shared C.pending ∧
      (∃ m E, Path (machine b) (quiet b) D m E ∧ Final (machine b) (quiet b) E) ∧
      (Final (machine b) (quiet b) D → D.pending = 0 ∧ D.shared.work = false ∧
        D.shared.refcount = 0 ∧ D.shared.rails = .off ∧ D.shared.lock = false) := by
  intro n D hp
  have hR := rank_ranks b
  have hD := hC.path hR.within hp
  refine ⟨hR.path_le hC hp, hR.exists_final hD, fun hF => ?_⟩
  have h0 := pending_eq_zero_of_final hD hF fun a _ => ⟨Reply.ok, fun _ _ h => h.2 rfl⟩
  have hw : D.shared.work = false := by
    by_contra hw
    have hG : (quiet b).env D.shared D.pending .timer := rfl
    exact hF _ (.env hG (if_pos (Bool.eq_true_of_not_eq_false hw)))
  obtain ⟨hr, hrails, hl⟩ := rest_state hD h0
  rw [hw] at hr hrails
  exact ⟨h0, hw, hr, hrails, hl⟩

theorem power_settles_usersRun : ∃ C D : Conf State Stmt, C.shared.work = true ∧
    users C.pending = 1 ∧
    (∃ n ≤ rank C.shared C.pending, Path (machine .multiple) (quiet .multiple) C n D) ∧
    D.shared.refcount = 0 ∧ D.shared.rails = .off := by
  obtain ⟨C, hC, hw, hu⟩ := usersRun_reaches
  obtain ⟨n, D, hp, hF⟩ := (power_settles hC 0 C .refl).2.1
  obtain ⟨hle, -, hend⟩ := power_settles hC n D hp
  obtain ⟨-, -, hr, hrails, -⟩ := hend hF
  exact ⟨C, D, hw, hu, ⟨n, Nat.le_of_add_right_le hle, hp⟩, hr, hrails⟩

end Release

end Rknpu.Power

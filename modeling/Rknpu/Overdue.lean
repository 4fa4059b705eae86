import Rknpu.Clock
import Rknpu.Interleaving.Returns
import Rknpu.Nodes

namespace Rknpu

open Interleaving

variable (P : Platform)

/-- The loop of `rknpu_schedule_core_index` over the cores from `i` on. -/
def selectIndex (s : Dev) : Nat → Nat → Int → Nat → Nat
  | 0, _, _, coreIndex => coreIndex
  | n + 1, i, taskNum, coreIndex =>
    if s.taskNum i < taskNum then selectIndex s n (i + 1) (toInt (s.taskNum i)) i
    else selectIndex s n (i + 1) taskNum coreIndex

/-- `rknpu_schedule_core_index` -/
def scheduleCoreIndex (s : Dev) : Nat :=
  selectIndex s (P.config.numIrqs - 1) 1 (toInt (s.taskNum 0)) 0

/-- The cores on which `rknpu_job_schedule` enqueues a job with that mask. -/
def Dev.target (s : Dev) (mask c : Nat) : Prop :=
  c < P.config.numIrqs ∧ if mask = 0 then c = scheduleCoreIndex P s else inMask mask c

/-- The job has been committed for its timeout, which is in milliseconds. -/
def Dev.expired (s : Dev) (j : JobId) : Prop :=
  ((s.jobs j).args.timeout * 10 ^ 6 : Int) ≤ s.clock - (s.jobs j).hwCommitTime

/-- The expired jobs are gone from the cores of the new job, and no other is gone or reset. -/
structure Recovered (s t : Dev) (mask : Nat) : Prop where
  removed : ∀ c j, t.target P mask c → s.slot c = some j → s.expired j → t.slot c ≠ some j
  kept : ∀ c j, s.slot c = some j → ¬s.expired j → t.slot c = some j ∧ t.engine c = s.engine c

/-- `rknpu_job_timeout_clean` takes the job off core `c`. -/
def Dev.cleans (s : Dev) (mask c : Nat) (j : JobId) : Prop :=
  c < P.config.numIrqs ∧ inMask mask c ∧ s.slot c = some j ∧ overdue s.clock (s.jobs j)

/-- The jobs of the mask that are overdue for the recovery are expired, no job that is not suffers
from a reset, and the core of a job with no mask has no expired job. -/
structure RecoveryFits (s : Dev) (mask : Nat) : Prop where
  cleaned : ∀ c j, s.cleans P mask c j → s.expired j
  reset : (∃ c j, s.cleans P mask c j) → P.bypassSoftReset = false → s.resetLock = false →
    ∀ c j, s.slot c = some j → ¬s.expired j → s.engine c = .idle
  auto : mask = 0 → ∀ j, s.slot (scheduleCoreIndex P s) = some j → ¬s.expired j

structure Untouched (s t : Dev) : Prop where
  clock : t.clock = s.clock
  taskNum : t.taskNum = s.taskNum
  resetLock : t.resetLock = s.resetLock
  overdue : ∀ j, Rknpu.overdue t.clock (t.jobs j) = Rknpu.overdue s.clock (s.jobs j)

def Linked (s : Dev) : Prop :=
  ∀ c, (s.todoList c).Nodup ∧ ∀ j ∈ s.todoList c, (s.jobs j).head c = .linked

variable {P} {ok : Stmt → Int → Prop} {s t u : Dev} {a : Stmt} {x : Int} {p k : List Stmt} {j : JobId}
  {mask i c : Nat}

theorem Untouched.refl (s : Dev) : Untouched s s := ⟨rfl, rfl, rfl, fun _ => rfl⟩

theorem Untouched.trans (h : Untouched s t) (h' : Untouched t u) : Untouched s u :=
  ⟨h'.clock.trans h.clock, h'.taskNum.trans h.taskNum, h'.resetLock.trans h.resetLock,
    fun j => (h'.overdue j).trans (h.overdue j)⟩

theorem overdue_congr {b b' : Job} (now : Int) (ht : b'.args.timeout = b.args.timeout)
    (hs : b'.timestamp = b.timestamp) : overdue now b' = overdue now b := by
  rw [overdue, overdue, ht, hs]

/-- What `rknpu_soft_reset` may do to the cores. -/
theorem softReset_leaves (h : Returns (driver P) ok u [.softReset] t) :
    Untouched u t ∧ t.slot = u.slot ∧ t.jobs = u.jobs ∧ t.todoList = u.todoList ∧
      (t.engine = u.engine ∨
        t.engine = (fun _ => .idle) ∧ P.bypassSoftReset = false ∧ u.resetLock = false) ∧
      ((∀ x, ok .resetHw x → x = 0) → P.bypassSoftReset = false → u.resetLock = false →
        t.engine = fun _ => .idle) := by
  obtain ⟨x, u₁, p₁, -, h₁, h⟩ := h.head
  simp only [driver, exec, softReset, Option.some.injEq] at h₁
  split at h₁ <;> rename_i hfree
  · cases h₁
    rw [Returns.nil_iff.mp h]
    refine ⟨.refl u, rfl, rfl, rfl, .inl rfl, fun _ hb hl => ?_⟩
    simp [hb, hl] at hfree
  rw [Bool.or_eq_true, not_or, Bool.not_eq_true, Bool.not_eq_true] at hfree
  obtain ⟨hb, hl⟩ := hfree
  cases h₁
  obtain ⟨x₂, u₂, p₂, -, h₂, h⟩ := h.head
  cases h₂
  obtain ⟨x₃, u₃, p₃, hx, h₃, h⟩ := h.head
  simp only [driver, exec, resetHw, Option.some.injEq] at h₃
  split at h₃ <;> rename_i hzero
  · cases h₃
    obtain ⟨x₄, u₄, p₄, -, h₄, h⟩ := h.head
    cases h₄
    obtain ⟨x₅, u₅, p₅, -, h₅, h⟩ := h.head
    simp only [driver, exec, stateInit, Option.some.injEq] at h₅
    split at h₅ <;> cases h₅ <;> obtain ⟨x₆, u₆, p₆, -, h₆, h⟩ := h.head <;> cases h₆ <;>
      rw [Returns.nil_iff.mp h] <;>
      exact ⟨⟨rfl, rfl, hl.symm, fun _ => rfl⟩, rfl, rfl, rfl, .inr ⟨rfl, hb, hl⟩, fun _ _ _ => rfl⟩
  · cases h₃
    rw [Returns.nil_iff.mp h]
    exact ⟨⟨rfl, rfl, hl.symm, fun _ => rfl⟩, rfl, rfl, rfl, .inl rfl,
      fun hok => absurd (hok x₃ hx) hzero⟩

theorem softReset_ends (hx : ∀ a, ok a 0) (u : Dev) : ∃ t, Returns (driver P) ok u [.softReset] t := by
  by_cases hfree : P.bypassSoftReset || u.resetLock
  · refine ⟨u, .cons (hx _) (x := 0) (p := []) ?_ .nil⟩
    simp [driver, exec, softReset, hfree]
  · have hreset : exec P .softReset 0 u = some ({ u with resetLock := true }, [.resetMark]) := by
      simp [exec, softReset, hfree]
    exact ⟨_, .cons (hx _) hreset (.cons (hx _) rfl (.cons (hx _) rfl (.cons (hx _) rfl
      (.cons (hx _) rfl (.cons (hx _) rfl .nil)))))⟩

theorem untouched_unlinkAll (s : Dev) (j : JobId) : Untouched s (unlinkAll P s j) := by
  refine ⟨rfl, rfl, rfl, fun i => overdue_congr _ ?_ ?_⟩ <;>
    simp only [unlinkAll, setJob_jobs] <;> split <;> simp [*]

theorem Linked.clears (hL : Linked s) (ha : s.clears j a) (h : exec P a x s = some (t, p)) :
    Linked t := by
  obtain ⟨htodo, hhead, -⟩ := clears_effect ha h
  intro c
  obtain ⟨hnodup, hlinked⟩ := hL c
  rw [htodo]
  split
  · rename_i hc
    refine ⟨hnodup.erase j, fun k hk => ?_⟩
    have hkj : k ≠ j := by
      rintro rfl
      exact hnodup.not_mem_erase hk
    rw [hhead, if_neg fun h => hkj h.1]
    exact hlinked k (List.mem_of_mem_erase hk)
  · rename_i hc
    refine ⟨hnodup, fun k hk => ?_⟩
    rw [hhead, if_neg, hlinked k hk]
    rintro ⟨rfl, hlt⟩
    exact hc ⟨hlt, by simp [hlinked k hk]⟩

theorem drain_leaves {l : List Stmt} (hl : l = [.drain i] ∨ (∃ j, l = [.drainWork j i]) ∨ l = [])
    (h : Returns (driver P) ok u l t) : Untouched u t ∧ t.slot = u.slot ∧ t.engine = u.engine := by
  induction h with
  | nil => exact ⟨.refl _, rfl, rfl⟩
  | @cons a x u u' t p k _ he _ ih =>
    rcases hl with hl | ⟨j, hl⟩ | hl
    · obtain ⟨rfl, rfl⟩ := List.cons_eq_cons.mp hl
      simp only [driver, exec, drain, Option.some.injEq] at he
      split at he <;> cases he
      · exact ih (.inr (.inr rfl))
      · obtain ⟨hu, hs, he⟩ := ih (.inr (.inl ⟨_, rfl⟩))
        exact ⟨(untouched_unlinkAll _ _).trans hu, hs, he⟩
    · obtain ⟨rfl, rfl⟩ := List.cons_eq_cons.mp hl
      cases he
      obtain ⟨hu, hs, he⟩ := ih (.inl rfl)
      exact ⟨⟨hu.clock, hu.taskNum, hu.resetLock, hu.overdue⟩, hs, he⟩
    · cases hl

theorem drain_ends (hx : ∀ a, ok a 0) (hi : i < P.config.numIrqs) (hL : Linked u) :
    ∃ t, Returns (driver P) ok u [.drain i] t ∧ Linked t := by
  induction hn : (u.todoList i).length generalizing u with
  | zero =>
    refine ⟨u, .cons (hx _) (x := 0) (p := []) ?_ .nil, hL⟩
    simp [driver, exec, drain, List.length_eq_zero_iff.mp hn]
  | succ n ih =>
    obtain ⟨j, rest, hlist⟩ := List.exists_cons_of_length_eq_add_one hn
    have hexec : exec P (.drain i) 0 u = some (unlinkAll P u j, [.drainWork j i]) := by
      simp [exec, drain, hlist]
    have hcl : u.clears j (.drain i) := by simp [Dev.clears, hlist]
    have hlinked := hL.clears hcl hexec
    have hhead := (hL i).2 j (by simp [hlist])
    have hlength : ((unlinkAll P u j).todoList i).length = n := by
      rw [(clears_effect hcl hexec).1, if_pos ⟨hi, by simp [hhead]⟩, hlist, List.erase_cons_head]
      simpa [hlist] using hn
    obtain ⟨t, ht, hLt⟩ := ih (u := (unlinkAll P u j).scheduleWork j) hlinked hlength
    exact ⟨t, .cons (hx _) hexec (.cons (hx _) rfl ht), hLt⟩

theorem cancel_leaves (h : Returns (driver P) ok u [.cancel j i] t) :
    Untouched u t ∧ t.engine = u.engine ∧
      ∀ c, t.slot c = if c < P.config.numIrqs ∧ u.slot c = some j then none else u.slot c := by
  obtain ⟨_, u₁, p₁, -, h₁, h⟩ := h.head
  cases h₁
  obtain ⟨_, u₂, p₂, -, h₂, h⟩ := h.head
  cases h₂
  obtain ⟨hu, hs, he⟩ := drain_leaves (.inl rfl) h
  have hunlink := untouched_unlinkAll (P := P) u j
  refine ⟨hunlink.trans ⟨hu.clock, hu.taskNum, hu.resetLock, hu.overdue⟩, he, fun c => ?_⟩
  rw [hs]
  rfl

theorem cancel_ends (hx : ∀ a, ok a 0) (hi : i < P.config.numIrqs) (hL : Linked u) (j : JobId) :
    ∃ t, Returns (driver P) ok u [.cancel j i] t ∧ Linked t := by
  have hlinked := hL.clears (P := P) (j := j) (a := .cancel j i) (x := 0) rfl rfl
  obtain ⟨t, ht, hLt⟩ := drain_ends (u := (cancel P u j i).1.scheduleWork j) hx hi hlinked
  exact ⟨t, .cons (hx _) rfl (.cons (hx _) rfl ht), hLt⟩

theorem timeoutClean_past (hi : P.config.numIrqs ≤ i) : timeoutClean P u mask i = (u, []) := by
  rw [timeoutClean, if_neg (Nat.not_lt.mpr hi)]

theorem timeoutClean_cases {m : Nat} (hi : i < P.config.numIrqs) :
    (∃ j, u.cleans P m i j ∧
      timeoutClean P u m i = (u, [.softReset, .cancel j i, .timeoutClean m (i + 1)])) ∨
    (∀ j, ¬u.cleans P m i j) ∧ timeoutClean P u m i = (u, [.timeoutClean m (i + 1)]) := by
  rw [timeoutClean, if_pos hi]
  split <;> rename_i hm
  swap
  · exact .inr ⟨fun j hj => hm hj.2.1, rfl⟩
  split <;> rename_i hj
  · refine .inr ⟨fun k hk => ?_, rfl⟩
    cases hj.symm.trans hk.2.2.1
  split <;> rename_i hover
  · exact .inl ⟨_, ⟨hi, hm, hj, hover⟩, rfl⟩
  · refine .inr ⟨fun k hk => ?_, rfl⟩
    cases hj.symm.trans hk.2.2.1
    exact hover hk.2.2.2

/-- The recovery from `s` has come to core `i`, in the state `u`. -/
structure Recovering (P : Platform) (ok : Stmt → Int → Prop) (s : Dev) (mask i : Nat) (u : Dev) :
    Prop where
  untouched : Untouched s u
  slot : ∀ c, u.slot c = s.slot c ∨
    u.slot c = none ∧ ∃ d < i, ∃ j, s.slot c = some j ∧ s.cleans P mask d j
  gone : ∀ c < i, ∀ j, s.cleans P mask c j → u.slot c = none
  engine : u.engine = s.engine ∨
    u.engine = (fun _ => .idle) ∧ P.bypassSoftReset = false ∧ s.resetLock = false ∧
      ∃ d j, s.cleans P mask d j
  reset : (∀ x, ok .resetHw x → x = 0) → P.bypassSoftReset = false → s.resetLock = false →
    (∃ d < i, ∃ j, s.cleans P mask d j) → u.engine = fun _ => .idle

namespace Recovering

theorem zero (s : Dev) : Recovering P ok s mask 0 s :=
  ⟨.refl s, fun _ => .inl rfl, fun _ h => absurd h (by omega), .inl rfl,
    fun _ _ _ ⟨_, h, _⟩ => absurd h (by omega)⟩

theorem skip (hR : Recovering P ok s mask i u) (hno : ∀ j, s.cleans P mask i j → u.slot i = none) :
    Recovering P ok s mask (i + 1) u := by
  refine ⟨hR.untouched, fun c => ?_, fun c hc j hj => ?_, hR.engine, fun hz hb hl ⟨d, hd, j, hj⟩ => ?_⟩
  · obtain hsame | ⟨hnone, d, hd, hclean⟩ := hR.slot c
    · exact .inl hsame
    · exact .inr ⟨hnone, d, by omega, hclean⟩
  · obtain hc | rfl := Nat.lt_succ_iff_lt_or_eq.mp hc
    · exact hR.gone c hc j hj
    · exact hno j hj
  · refine hR.reset hz hb hl ?_
    obtain hd | rfl := Nat.lt_succ_iff_lt_or_eq.mp hd
    · exact ⟨d, hd, j, hj⟩
    · obtain hsame | ⟨-, d, hd, k, -, hk⟩ := hR.slot d
      · cases (hno j hj).symm.trans (hsame.trans hj.2.2.1)
      · exact ⟨d, hd, k, hk⟩

theorem clean (hR : Recovering P ok s mask i u) (hc : s.cleans P mask i j)
    (h : Returns (driver P) ok u [.softReset, .cancel j i] t) :
    Recovering P ok s mask (i + 1) t := by
  obtain ⟨v, hreset, hcancel⟩ := Returns.of_append (p := [Stmt.softReset]) h
  obtain ⟨huv, hslot, -, -, hengine, hzero⟩ := softReset_leaves hreset
  obtain ⟨hvt, hengine', hslot'⟩ := cancel_leaves hcancel
  have hlock := hR.untouched.resetLock
  have hkeep : ∀ c, u.slot c = none → t.slot c = none := fun c hn => by
    rw [hslot', hslot, hn, ite_self]
  refine ⟨(hR.untouched.trans huv).trans hvt, fun c => ?_, fun c hci k hk => ?_, ?_,
    fun hz hb hl _ => ?_⟩
  · obtain hsame | ⟨hnone, d, hd, hclean⟩ := hR.slot c
    · rw [hslot', hslot, hsame]
      split
      · rename_i hj
        exact .inr ⟨rfl, i, by omega, j, hj.2, hc⟩
      · exact .inl rfl
    · exact .inr ⟨hkeep c hnone, d, by omega, hclean⟩
  · obtain hci | rfl := Nat.lt_succ_iff_lt_or_eq.mp hci
    · exact hkeep c (hR.gone c hci k hk)
    · obtain hsame | ⟨hnone, -⟩ := hR.slot c
      · rw [hslot', hslot, hsame, if_pos ⟨hc.1, hc.2.2.1⟩]
      · exact hkeep c hnone
  · rw [hengine']
    obtain he | ⟨he, hb, hl⟩ := hengine
    · rw [he]
      exact hR.engine
    · exact .inr ⟨he, hb, hlock ▸ hl, i, j, hc⟩
  · rw [hengine']
    exact hzero hz hb (hlock.trans hl)

theorem cleans_of (hR : Recovering P ok s mask i u) (hj : u.cleans P mask c j) :
    s.cleans P mask c j := by
  obtain ⟨hc, hm, hslot, hover⟩ := hj
  rw [hR.untouched.overdue] at hover
  obtain hsame | ⟨hnone, -⟩ := hR.slot c
  · exact ⟨hc, hm, hsame ▸ hslot, hover⟩
  · cases hnone.symm.trans hslot

theorem slot_of_not_cleans (hR : Recovering P ok s mask i u) (hno : ¬u.cleans P mask c j)
    (hj : s.cleans P mask c j) : u.slot c = none := by
  obtain ⟨hc, hm, hslot, hover⟩ := hj
  obtain hsame | ⟨hnone, -⟩ := hR.slot c
  · rw [← hR.untouched.overdue] at hover
    exact absurd ⟨hc, hm, hsame ▸ hslot, hover⟩ hno
  · exact hnone

end Recovering

/-- The loop, from core `i` on. -/
theorem recovering_of_returns {d : Nat} (hd : P.config.numIrqs = i + d)
    (hR : Recovering P ok s mask i u) (h : Returns (driver P) ok u [.timeoutClean mask i] t) :
    Recovering P ok s mask P.config.numIrqs t := by
  induction d generalizing i u with
  | zero =>
    obtain rfl : P.config.numIrqs = i := hd
    obtain ⟨_, u₁, p₁, -, h₁, h⟩ := h.head
    simp only [driver, exec, timeoutClean_past le_rfl] at h₁
    cases h₁
    rw [Returns.nil_iff.mp h]
    exact hR
  | succ d ih =>
    have hd' : P.config.numIrqs = i + 1 + d := by omega
    obtain ⟨_, u₁, p₁, -, h₁, h⟩ := h.head
    simp only [driver, exec] at h₁
    obtain ⟨j, hj, he⟩ | ⟨hno, he⟩ :=
      timeoutClean_cases (u := u) (m := mask) (by omega : i < P.config.numIrqs)
    · rw [he] at h₁
      cases h₁
      obtain ⟨v, hclean, h⟩ := Returns.of_append (p := [Stmt.softReset, .cancel j i]) h
      exact ih hd' (hR.clean (hR.cleans_of hj) hclean) h
    · rw [he] at h₁
      cases h₁
      exact ih hd' (hR.skip fun j hj => hR.slot_of_not_cleans (hno j) hj) h

theorem timeoutClean_ends {d : Nat} (hx : ∀ a, ok a 0) (hd : P.config.numIrqs ≤ i + d)
    (hL : Linked u) : ∃ t, Returns (driver P) ok u [.timeoutClean mask i] t := by
  have hstep : ∀ {u : Dev} {i : Nat} {p : List Stmt} {t : Dev}, timeoutClean P u mask i = (u, p) →
      Returns (driver P) ok u (p ++ []) t → Returns (driver P) ok u [.timeoutClean mask i] t :=
    fun he h => .cons (hx _) (x := 0) (congrArg some he) h
  induction d generalizing i u with
  | zero => exact ⟨u, hstep (timeoutClean_past hd) .nil⟩
  | succ d ih =>
    have hd' : P.config.numIrqs ≤ i + 1 + d := by omega
    by_cases hi : i < P.config.numIrqs
    swap
    · exact ⟨u, hstep (timeoutClean_past (Nat.not_lt.mp hi)) .nil⟩
    obtain ⟨j, hj, he⟩ | ⟨-, he⟩ := timeoutClean_cases (u := u) (m := mask) hi
    · obtain ⟨v, hv⟩ := softReset_ends (P := P) hx u
      obtain ⟨-, -, hjobs, htodo, -⟩ := softReset_leaves hv
      have hLv : Linked v := fun c => by
        rw [hjobs, htodo]
        exact hL c
      obtain ⟨w, hw, hLw⟩ := cancel_ends hx hi hLv j
      obtain ⟨t, ht⟩ := ih hd' hLw
      exact ⟨t, hstep he (hv.append (hw.append ht))⟩
    · obtain ⟨t, ht⟩ := ih hd' hL
      exact ⟨t, hstep he ht⟩

variable {G : Guard Dev Stmt Int Occurrence} {C : Conf Dev Stmt}

theorem linked_reach (hC : Reach (driver P) G Dev.init C) : Linked C.shared :=
  fun c => ⟨List.nodup_iff_count_le_one.mpr fun j => (Queued.reach hC).count_todo_le j c,
    fun j hj => (Nodes.reach hC).linked j c hj⟩

/-- An expired job is overdue, as it was allocated before it was committed. -/
theorem overdue_of_expired (hT : Timed s) (hj : s.slot c = some j) (he : s.expired j) :
    overdue s.clock (s.jobs j) := by
  have hle := hT.slot c j hj
  unfold Dev.expired at he
  rw [overdue, decide_eq_true_iff, Int.tdiv_eq_ediv_of_nonneg (by omega)]
  omega

theorem inMask_zero (c : Nat) : inMask 0 c = false := by simp [inMask]

theorem selectIndex_congr (h : t.taskNum = s.taskNum) (n i coreIndex : Nat) (taskNum : Int) :
    selectIndex t n i taskNum coreIndex = selectIndex s n i taskNum coreIndex := by
  induction n generalizing i taskNum coreIndex with
  | zero => rfl
  | succ n ih => simp only [selectIndex, h, ih]

theorem selectIndex_lt {n i coreIndex : Nat} {taskNum : Int} (h : coreIndex < i + n) :
    selectIndex s n i taskNum coreIndex < i + n := by
  induction n generalizing i taskNum coreIndex with
  | zero => exact h
  | succ n ih =>
    have hsucc : i + 1 + n = i + (n + 1) := by omega
    rw [selectIndex, ← hsucc]
    split
    · exact ih (by omega : i < i + 1 + n)
    · exact ih (by omega : coreIndex < i + 1 + n)

theorem scheduleCoreIndex_lt (s : Dev) : scheduleCoreIndex P s < P.config.numIrqs := by
  have hpos := P.config.numIrqs_pos
  have hlt : selectIndex s (P.config.numIrqs - 1) 1 (toInt (s.taskNum 0)) 0 <
      1 + (P.config.numIrqs - 1) := selectIndex_lt (by omega)
  rw [scheduleCoreIndex]
  omega

theorem returns_single {v : Dev} (hx : ∀ a, ok a 0) (he : ∀ x, exec P a x u = some (v, p)) :
    Returns (driver P) ok u [a] t ↔ Returns (driver P) ok v p t := by
  have h := Returns.iff_of_exec (M := driver P) (k := []) (u := t) (hx a) he
  rwa [List.append_nil] at h

theorem selectCore_returns (hx : ∀ a, ok a 0) {n coreIndex : Nat} {taskNum : Int}
    (hn : P.config.numIrqs = i + n) :
    Returns (driver P) ok u [.selectCore j i taskNum coreIndex] t ↔
      Returns (driver P) ok (u.setJob j (resolveCore · (selectIndex u n i taskNum coreIndex)))
        [.domainGet j] t := by
  induction n generalizing i taskNum coreIndex with
  | zero =>
    refine returns_single hx fun x => ?_
    simp [exec, selectCore, hn, selectIndex]
  | succ n ih =>
    have hi : i < P.config.numIrqs := by omega
    rw [selectIndex]
    split <;> rename_i hless
    · rw [← ih (by omega)]
      refine returns_single hx fun x => ?_
      simp [exec, selectCore, hi, hless]
    · rw [← ih (by omega)]
      refine returns_single hx fun x => ?_
      simp [exec, selectCore, hi, hless]

theorem inMask_coreMaskOf {d : Nat} (hc : c < 3) (hd : d < 3) : inMask (coreMaskOf d) c ↔ c = d := by
  interval_cases c <;> interval_cases d <;> decide

theorem jobSchedule_target (hx : ∀ a, ok a 0) (u : Dev) (j : JobId) : ∃ v,
    (∀ t, Returns (driver P) ok u [.jobSchedule j] t ↔ Returns (driver P) ok v [.domainGet j] t) ∧
    ∀ c, c < P.config.numIrqs ∧ inMask (v.jobs j).args.coreMask c ↔
      u.target P (u.jobs j).args.coreMask c := by
  have hle := P.config.numIrqs_le
  by_cases hmask : (u.jobs j).args.coreMask = 0
  · refine ⟨u.setJob j (resolveCore · (scheduleCoreIndex P u)), fun t => ?_, fun c => ?_⟩
    · rw [scheduleCoreIndex, ← selectCore_returns hx (by have := P.config.numIrqs_pos; omega)]
      refine returns_single hx fun x => ?_
      simp [exec, jobSchedule, hmask]
    · rw [Dev.target, if_pos hmask, setJob_jobs, if_pos rfl]
      refine and_congr_right fun hc => ?_
      exact inMask_coreMaskOf (by omega) ((scheduleCoreIndex_lt u).trans_le hle)
  · refine ⟨u, fun t => ?_, fun c => by rw [Dev.target, if_neg hmask]⟩
    refine returns_single hx fun x => ?_
    simp [exec, jobSchedule, hmask]

theorem Recovering.slot_eq (hR : Recovering P ok s mask i u) (hj : s.slot c = some j)
    (hno : ∀ d, ¬s.cleans P mask d j) : u.slot c = some j := by
  obtain hsame | ⟨-, d, -, k, hk, hcl⟩ := hR.slot c
  · rw [hsame, hj]
  · cases hj.symm.trans hk
    exact absurd hcl (hno d)

theorem not_cleans_zero : ¬s.cleans P 0 c j := fun h => by
  simpa [inMask_zero] using h.2.1

/-- The recovery can come to its end, with no more than is to be cleaned on the way. -/
theorem recovering_reach (hC : Reach (driver P) G Dev.init C) (mask : Nat) :
    ∃ t, Returns (driver P) (fun _ _ => True) C.shared [.timeoutClean mask 0] t ∧
      Recovering P (fun _ x => x = 0) C.shared mask P.config.numIrqs t := by
  obtain ⟨t, ht⟩ : ∃ t, Returns (driver P) (fun _ x => x = 0) C.shared [.timeoutClean mask 0] t :=
    timeoutClean_ends (d := P.config.numIrqs) (fun _ => rfl) (by omega) (linked_reach hC)
  exact ⟨t, ht.mono fun _ _ _ => trivial,
    recovering_of_returns (Nat.zero_add _).symm (.zero C.shared) ht⟩

theorem expired_of_cleans (hC : Reach (driver P) G Dev.init C)
    (h : ∀ t, Returns (driver P) (fun _ _ => True) C.shared [.timeoutClean mask 0] t →
      Recovered P C.shared t mask) (hj : C.shared.cleans P mask c j) : C.shared.expired j := by
  obtain ⟨t, ht, hR⟩ := recovering_reach hC mask
  by_contra hno
  have htj := ((h t ht).kept c j hj.2.2.1 hno).1
  cases (hR.gone c hj.1 j hj).symm.trans htj

/-- The recovery removes all that is expired, and nothing else, if and only if it fits. -/
theorem recovered_iff (hC : Reach (driver P) G Dev.init C) (mask : Nat) :
    (∀ t, Returns (driver P) (fun _ _ => True) C.shared [.timeoutClean mask 0] t →
      Recovered P C.shared t mask) ↔ RecoveryFits P C.shared mask := by
  have hselect : ∀ t, Untouched C.shared t → scheduleCoreIndex P t = scheduleCoreIndex P C.shared :=
    fun t ht => by rw [scheduleCoreIndex, scheduleCoreIndex, ht.taskNum, selectIndex_congr ht.taskNum]
  constructor
  · intro h
    obtain ⟨t, ht, hR⟩ := recovering_reach hC mask
    refine ⟨fun c j hj => expired_of_cleans hC h hj, fun ⟨c, j, hj⟩ hb hl d k hk hno => ?_,
      fun hmask j hj he => ?_⟩
    · rw [← ((h t ht).kept d k hk hno).2, hR.reset (fun _ h => h) hb hl ⟨c, hj.1, j, hj⟩]
    · subst hmask
      have htj := hR.slot_eq hj fun _ => not_cleans_zero
      refine (h t ht).removed _ j ⟨?_, ?_⟩ hj he htj
      · exact hselect t hR.untouched ▸ scheduleCoreIndex_lt t
      · rw [if_pos rfl, hselect t hR.untouched]
  · intro hF t ht
    have hR := recovering_of_returns (Nat.zero_add _).symm (.zero C.shared) ht
    refine ⟨fun c j htarget hj he htj => ?_, fun c j hj hno => ⟨?_, ?_⟩⟩
    · obtain ⟨hc, hon⟩ := htarget
      split at hon <;> rename_i hmask
      · rw [hselect t hR.untouched] at hon
        exact hF.auto hmask j (hon ▸ hj) he
      · have hover := overdue_of_expired (Timed.reach hC) hj he
        cases (hR.gone c hc j ⟨hc, hon, hj, hover⟩).symm.trans htj
    · exact hR.slot_eq hj fun d hcl => hno (hF.cleaned d j hcl)
    · obtain he | ⟨he, hb, hl, d, k, hcl⟩ := hR.engine
      · rw [he]
      · rw [he, hF.reset ⟨d, k, hcl⟩ hb hl c j hj hno]

def agedRun (d : Nat) : List (Label Int Occurrence) :=
  Label.env (Occurrence.submit (oneTask 3 1)) :: List.replicate 25 (Label.run 0 0) ++
    [Label.env (Occurrence.tick d)]

def agedTest (d : Int) (C : Conf Dev Stmt) : Bool :=
  C.shared.slot 0 == some 0 && C.shared.jobNum == 1 &&
    C.shared.clock - (C.shared.jobs 0).timestamp == d &&
    C.shared.clock - (C.shared.jobs 0).hwCommitTime == d && (C.shared.jobs 0).args.timeout == 1000

theorem recovered_agedRun : ∃ C : Conf Dev Stmt, C.shared.slot 0 = some 0 ∧
    ∀ t, Returns (driver (board rk356xConfig)) (fun _ _ => True) C.shared [.timeoutClean 1 0] t →
      Recovered (board rk356xConfig) C.shared t 1 ∧ t.slot 0 ≠ some 0 := by
  obtain ⟨C, hC, htest⟩ := Reach.exists_of_steps (driver (board rk356xConfig))
    (.events fun _ => True) Dev.init (agedRun (10 ^ 9)) (fun _ _ _ => true) (agedTest (10 ^ 9))
    (fun _ _ _ _ => trivial) (fun _ _ _ _ => trivial) (by decide +kernel)
  simp only [agedTest, Bool.and_eq_true, beq_iff_eq] at htest
  obtain ⟨⟨⟨⟨hslot, hnum⟩, -⟩, hcommit⟩, htimeout⟩ := htest
  have hexpired : C.shared.expired 0 := by
    rw [Dev.expired, hcommit, htimeout]
    norm_num
  have honly : ∀ c j, C.shared.slot c = some j → C.shared.expired j := fun c j hj => by
    have hQ := Queued.reach hC
    have hlt := hQ.lt_jobNum (hQ.enqueued_of_slot hj)
    rw [hnum] at hlt
    obtain rfl : j = 0 := Nat.lt_one_iff.mp hlt
    exact hexpired
  have hfits : RecoveryFits (board rk356xConfig) C.shared 1 :=
    ⟨fun c j hj => honly c j hj.2.2.1, fun _ _ _ c j hj hno => absurd (honly c j hj) hno,
      fun hmask => absurd hmask (by decide)⟩
  refine ⟨C, hslot, fun t ht => ?_⟩
  have hrec := (recovered_iff hC 1).mpr hfits t ht
  have htarget : t.target (board rk356xConfig) 1 0 := by
    refine ⟨by decide, ?_⟩
    rw [if_neg one_ne_zero]
    decide
  exact ⟨hrec, hrec.removed 0 0 htarget hslot hexpired⟩

/-- The timeout of one second is over after one millisecond. -/
theorem cancelled_early : ¬∀ (P : Platform) (C : Conf Dev Stmt) (mask : Nat) (t : Dev),
    Reach (driver P) (.events fun _ => True) Dev.init C →
      Returns (driver P) (fun _ _ => True) C.shared [.timeoutClean mask 0] t →
        Recovered P C.shared t mask := by
  intro hall
  obtain ⟨C, hC, htest⟩ := Reach.exists_of_steps (driver (board rk356xConfig))
    (.events fun _ => True) Dev.init (agedRun (10 ^ 6)) (fun _ _ _ => true) (agedTest (10 ^ 6))
    (fun _ _ _ _ => trivial) (fun _ _ _ _ => trivial) (by decide +kernel)
  simp only [agedTest, Bool.and_eq_true, beq_iff_eq] at htest
  obtain ⟨⟨⟨⟨hslot, -⟩, hage⟩, hcommit⟩, htimeout⟩ := htest
  have hcleans : C.shared.cleans (board rk356xConfig) 1 0 0 := by
    refine ⟨by decide, by decide, hslot, ?_⟩
    rw [overdue, hage, htimeout]
    decide
  have hexpired := expired_of_cleans hC (fun t ht => hall _ C 1 t hC ht) hcleans
  rw [Dev.expired, hcommit, htimeout] at hexpired
  norm_num at hexpired

end Rknpu

import Rknpu.Done
import Rknpu.Handlers

namespace Rknpu

open Interleaving

def signals (l : List Event) : List JobId :=
  l.filterMap fun | .fenceSignal j => some j | _ => none

def Before (s : Dev) (j i : JobId) : Prop :=
  ∃ m n, (s.jobs j).fence = some m ∧ (s.jobs i).fence = some n ∧ m < n

/-- The numbers of two jobs do not contradict that `j` comes first. -/
def InOrder (s : Dev) (j i : JobId) : Prop :=
  ∀ m n, (s.jobs j).fence = some m → (s.jobs i).fence = some n → m < n

/-- `rknpu_irq_handler` and `rknpu_job_done` on core `c` for job `j`, until the core is released. -/
def handlerW (j : JobId) (c : Nat) : Stmt → Nat
  | .irqStatus i d | .irqCheck i d _ | .irqClear d (.done i) | .jobDone i _ d
  | .releaseCore i _ d => if i = j ∧ d = c then 1 else 0
  | _ => 0

/-- Job `j` is on a list or in a slot, or has still to be counted down or signalled. -/
def Outstanding (s : Dev) (B : Multiset Stmt) (j : JobId) : Prop :=
  (∃ c, j ∈ s.todoList c ∨ s.slot c = some j) ∨
    0 < load (interruptDecW j) B + load (untilW 4 j) B

/-- Fence jobs are enqueued in the order of their numbers, each on all cores of an earlier one
that is outstanding, and no job is cancelled under a handler. -/
def timelineGuard : Guard Dev Stmt Int Occurrence where
  run s B a _ :=
    Counts.Genuine s (B.erase a) a ∧
    (∀ i n, a = .enqueue i → (s.jobs i).fence = some n →
      ∀ j m, .enqueue j ∈ s.log → (s.jobs j).fence = some m → m < n ∧
        (Outstanding s B j → ∀ c, inMask (s.mask j) c → inMask (s.mask i) c)) ∧
    ∀ j i c, a = .cancel j i → s.slot c = some j → load (handlerW j c) B = 0
  env _ _ e := interrupts e

variable {P : Platform} {s s' : Dev} {B R : Multiset Stmt} {a : Stmt} {x : Int} {p : List Stmt}
  {i j : JobId} {c : Nat} {r : Int} {e : Occurrence} {C : Conf Dev Stmt}

theorem InOrder.not_before (h : InOrder s j i) : ¬Before s i j := by
  rintro ⟨m, n, hm, hn, hlt⟩
  have := h n m hn hm
  omega

theorem Before.irrefl : ¬Before s j j := by
  rintro ⟨m, n, hm, hn, hlt⟩
  rw [hm, Option.some.injEq] at hn
  omega

theorem pairwise_congr (s' : Dev) {l : List JobId} (h : ∀ j ∈ l, (s'.jobs j).fence = (s.jobs j).fence)
    (hl : l.Pairwise (InOrder s)) : l.Pairwise (InOrder s') := by
  refine hl.imp_of_mem fun hj hi ho => ?_
  rw [InOrder, h _ hj, h _ hi]
  exact ho

theorem inOrder_or {l : List JobId} (hl : l.Pairwise (InOrder s)) (hi : i ∈ l) (hj : j ∈ l)
    (hne : i ≠ j) : InOrder s i j ∨ InOrder s j i :=
  have _ : Std.Symm fun a b => InOrder s a b ∨ InOrder s b a := ⟨fun _ _ => Or.symm⟩
  List.Pairwise.forall (R := fun a b => InOrder s a b ∨ InOrder s b a) (hl.imp Or.inl) hi hj hne

theorem fence_exec (hQ : Queued P s (a ::ₘ R)) (hj : 0 < s.log.count (.enqueue j))
    (h : exec P a x s = some (s', p)) : (s'.jobs j).fence = (s.jobs j).fence := by
  refine exec_get (f := .fence) ?_ h
  cases a with
  | fenceOut i =>
    have := hQ.not_enqueued (j := i) (by simp [preW])
    simp only [Stmt.writes, beq_eq_false_iff_ne]
    rintro rfl
    omega
  | pc g i d n => cases g <;> rfl
  | _ => rfl

theorem fence_occur (hQ : Queued P s R) (hj : 0 < s.log.count (.enqueue j))
    (h : occur P e s = some (s', p)) : (s'.jobs j).fence = (s.jobs j).fence :=
  occur_get (f := .fence) (fun _ => (hQ.lt_jobNum hj).ne) (by simp) h

section Project

variable {β : Type} {f : Event → Option β}

theorem exec_project (hf : ∀ ev, a.logs ev → f ev = none) (h : exec P a x s = some (s', p)) :
    s'.log.filterMap f = s.log.filterMap f := by
  obtain ⟨es, hl, hes⟩ := exec_logs h
  rw [hl, List.filterMap_append,
    List.filterMap_eq_nil_iff.mpr fun ev hev => hf ev (hes ev hev), List.append_nil]

theorem occur_project (hf : ∀ c j k, f (.complete c j k) = none)
    (h : occur P e s = some (s', p)) : s'.log.filterMap f = s.log.filterMap f := by
  obtain ⟨es, hl, hes⟩ := occur_logs h
  have hz : es.filterMap f = [] := List.filterMap_eq_nil_iff.mpr fun ev hev => by
    obtain ⟨c, j, k, rfl⟩ := hes ev hev
    exact hf c j k
  rw [hl, List.filterMap_append, hz, List.append_nil]

end Project

theorem enqueued_exec (ha : ∀ i, a ≠ .enqueue i) (h : exec P a x s = some (s', p)) :
    enqueued s'.log = enqueued s.log :=
  exec_project (fun ev hev => by
    cases ev with
    | enqueue i =>
      cases a with
      | enqueue k => exact absurd rfl (ha k)
      | pc g => cases g <;> cases hev
      | _ => cases hev
    | _ => rfl) h

theorem picked_exec (ha : a ≠ .pickUp c) (h : exec P a x s = some (s', p)) :
    picked s'.log c = picked s.log c :=
  exec_project (fun ev hev => by
    cases ev with
    | pickup d i =>
      refine if_neg ?_
      rintro rfl
      cases a with
      | pickUp d => exact ha (by rw [beq_iff_eq.mp hev])
      | pc g => cases g <;> cases hev
      | _ => cases hev
    | _ => rfl) h

theorem released_exec (ha : ∀ i r, a ≠ .releaseCore i r c) (h : exec P a x s = some (s', p)) :
    released s'.log c = released s.log c :=
  exec_project (fun ev hev => by
    cases ev with
    | release d i =>
      refine if_neg ?_
      rintro rfl
      cases a with
      | releaseCore k r d =>
        obtain ⟨-, hd⟩ := Bool.and_eq_true_iff.mp hev
        exact ha k r (by rw [beq_iff_eq.mp hd])
      | pc g => cases g <;> cases hev
      | _ => cases hev
    | _ => rfl) h

theorem signals_exec (ha : ∀ i q, a ≠ .doneFence i q) (h : exec P a x s = some (s', p)) :
    signals s'.log = signals s.log :=
  exec_project (fun ev hev => by
    cases ev with
    | fenceSignal i =>
      cases a with
      | doneFence k q => exact absurd rfl (ha k q)
      | pc g => cases g <;> cases hev
      | _ => cases hev
    | _ => rfl) h

theorem irqEntry_exec (h : exec P a x s = some (s', p)) (hj : (s.jobs j).irqEntry c) :
    (s'.jobs j).irqEntry c := by
  by_cases ha : ∃ d, a = .irqEnter d
  · obtain ⟨d, rfl⟩ := ha
    simp only [exec, irqEnter, Option.some.injEq] at h
    split at h <;> cases h
    · exact hj
    · rename_i i hi
      rw [setJob_jobs]
      split
      · rename_i hij
        subst hij
        by_cases hd : c = d
        · subst hd
          exact Function.update_self ..
        · simpa [Function.update_of_ne hd] using hj
      · exact hj
  · have hw : a.writes j .irqEntry = false := by
      cases a with
      | irqEnter d => exact absurd ⟨d, rfl⟩ ha
      | pc g i d n => cases g <;> rfl
      | _ => rfl
    rw [show (s'.jobs j).irqEntry = (s.jobs j).irqEntry from exec_get (f := .irqEntry) hw h]
    exact hj

def Stmt.ending (a : Stmt) : Option JobId :=
  match a with
  | .interruptDec j _ _ => some j
  | _ => (stage a).map Prod.fst

theorem stage_of_ending (hj : a.ending = some j) :
    (∃ r c, a = .interruptDec j r c) ∨ ∃ n, stage a = some (j, n) := by
  unfold Stmt.ending at hj
  split at hj
  · rw [Option.some.injEq] at hj
    exact .inl ⟨_, _, by rw [hj]⟩
  · obtain ⟨⟨i, n⟩, hs, rfl⟩ := Option.map_eq_some_iff.mp hj
    exact .inr ⟨n, hs⟩

theorem exec_ending {b : Stmt} (h : exec P a x s = some (s', p)) (hb : b ∈ p)
    (hj : b.ending = some j) : a.ending = some j ∨ ∃ r c, a = .releaseCore j r c := by
  rcases stage_of_ending hj with ⟨r, c, rfl⟩ | ⟨n, hn⟩
  · refine .inr ?_
    by_contra ha
    push Not at ha
    exact exec_interruptDecs ha h r c hb
  left
  cases hs : stage a with
  | none =>
    by_cases hi : ∃ i r c, a = .interruptDec i r c
    · obtain ⟨i, r, c, rfl⟩ := hi
      obtain ⟨-, rfl⟩ := interruptDec_effect h
      split at hb
      · rw [List.mem_singleton.mp hb] at hj
        exact hj
      · cases hb
    · push Not at hi
      rw [exec_finishing hs hi h b hb] at hn
      cases hn
  | some q =>
    obtain ⟨i, m⟩ := q
    obtain ⟨d, rfl, hd⟩ := exec_stage hs h
    rw [List.mem_singleton.mp hb, hd] at hn
    split at hn
    · cases hn
      cases a <;> first | exact congrArg (Option.map Prod.fst) hs | cases hs
    · cases hn

theorem exec_tail (h : exec P a x s = some (s', p)) : ∀ b ∈ p.tail, b.ending = none := by
  cases exec_flow h
  case jobCommit i l =>
    intro b hb
    obtain ⟨c, -, rfl⟩ := List.mem_map.mp (List.mem_of_mem_tail hb)
    rfl
  all_goals
    simp only [List.tail_nil, List.tail_cons, List.forall_mem_cons, List.not_mem_nil, false_imp_iff,
      implies_true, and_true]
    try first | rfl | exact ⟨rfl, rfl⟩

/-- A thread finishes one job at a time, and within a handler of the core that it has
released last. -/
def Closing (s : Dev) (t : List Stmt) : Prop :=
  (∀ b ∈ t.tail, b.ending = none) ∧
    ∀ a ∈ t, ∀ j, a.ending = some j →
      ∃ c, .irqReturn c ∈ t ∧ (released s.log c).getLast? = some j

theorem Closing.run {k : List Stmt} (hN : Nested (a :: k)) (hT : Closing s (a :: k))
    (h : exec P a x s = some (s', p)) : Closing s' (p ++ k) := by
  refine ⟨fun b hb => ?_, fun b hb j hj => ?_⟩
  · cases p with
    | nil => exact hT.1 b (List.mem_of_mem_tail hb)
    | cons d p =>
      rcases List.mem_append.mp hb with hb | hb
      · exact exec_tail h b hb
      · exact hT.1 b hb
  rcases List.mem_append.mp hb with hb | hb
  · rcases exec_ending h hb hj with ha | ⟨r, c, rfl⟩
    · obtain ⟨c, hc, hl⟩ := hT.2 a List.mem_cons_self j ha
      refine ⟨c, ?_, ?_⟩
      · rcases List.mem_cons.mp hc with rfl | hc
        · cases ha
        · exact List.mem_append_right _ hc
      · rwa [released_exec (by rintro i r rfl; cases ha) h]
    · have hpos := hN.2 c
      rw [load_coe_cons, load_coe_cons] at hpos
      simp only [doneAtW, if_true, returnW] at hpos
      obtain ⟨d, hd, hw⟩ := load_pos _ (by omega : 0 < load (returnW c) (k : Multiset Stmt))
      obtain rfl : d = .irqReturn c := by
        cases d <;> simp only [returnW, lt_self_iff_false] at hw
        split at hw
        · rename_i hc
          rw [hc]
        · cases hw
      refine ⟨c, List.mem_append_right _ (by simpa using hd), ?_⟩
      obtain ⟨-, -, -, -, hl⟩ := releaseCore_effect h
      rw [hl, released_append]
      simp [released]
  · rw [hT.1 b hb] at hj
    cases hj

theorem Closing.other {k t : List Stmt} (hS : Serial s B) (hN : Nested (a :: k))
    (hle : ((a :: k : List Stmt) : Multiset Stmt) + (t : Multiset Stmt) ≤ B) (hT : Closing s t)
    (h : exec P a x s = some (s', p)) : Closing s' t := by
  refine ⟨hT.1, fun b hb j hj => ?_⟩
  obtain ⟨c, hc, hl⟩ := hT.2 b hb j hj
  refine ⟨c, hc, ?_⟩
  rw [released_exec ?_ h]
  · exact hl
  rintro i r rfl
  have hpos := hN.2 c
  have hone := hS c
  have hload := load_le (returnW c) hle
  have ht : 0 < load (returnW c) (t : Multiset Stmt) := by
    have := le_load (returnW c) (Multiset.mem_coe.mpr hc)
    simp only [returnW, if_true] at this
    omega
  rw [load_coe_cons] at hpos
  simp only [doneAtW, if_true] at hpos
  rw [load_add] at hload
  split at hone <;> omega

theorem occur_ending (h : occur P e s = some (s', p)) : ∀ b ∈ p, b.ending = none := by
  intro b hb
  have hst := occur_stage h b hb
  have hw := (occur_weights h · 0 |>.1)
  cases b with
  | interruptDec i r c =>
    have := le_load (interruptDecW i) (Multiset.mem_coe.mpr hb)
    rw [hw i, interruptDecW, if_pos rfl] at this
    omega
  | _ => simp only [Stmt.ending, hst, Option.map_none]

theorem closing {G : Guard Dev Stmt Int Occurrence} (hG : ∀ s B e, G.env s B e → interrupts e)
    (hC : Reach (driver P) G Dev.init C) : ∀ t ∈ C.threads, Closing C.shared t := by
  refine hC.each Closing ?_ ?_ ?_
  · intro D a k x s p hD hk hT _ h
    exact hT.run (nested hG hD _ hk) h
  · intro D a k t x s p hD hk hle hT _ h
    exact hT.other (Serial.reach hD) (nested hG hD _ hk) hle h
  · intro D e s p hD _ h
    refine ⟨⟨fun b hb => occur_ending h b (List.mem_of_mem_tail hb), fun b hb j hj => ?_⟩,
      fun t _ hT => ⟨hT.1, fun b hb j hj => ?_⟩⟩
    · rw [occur_ending h b hb] at hj
      cases hj
    · obtain ⟨c, hc, hl⟩ := hT.2 b hb j hj
      refine ⟨c, hc, ?_⟩
      rwa [show released s.log c = released D.shared.log c from occur_project (fun _ _ _ => rfl) h]

/-- Every core works on the fence jobs in the order of their numbers, and a job is on all
cores of the earlier ones that are outstanding. -/
structure Timeline (s : Dev) (B : Multiset Stmt) : Prop where
  order : (enqueued s.log).Pairwise (InOrder s)
  last : ∀ c j, s.slot c = some j → (picked s.log c).getLast? = some j
  handler : ∀ j c, 0 < load (handlerW j c) B →
    s.slot c = some j ∧ (s.jobs j).irqEntry c
  covers : ∀ j i, 0 < s.log.count (.enqueue j) → 0 < s.log.count (.enqueue i) → Before s j i →
    Outstanding s B j → ∀ c, inMask (s.mask j) c → inMask (s.mask i) c
  done : ∀ c, (released s.log c).Pairwise (InOrder s)
  once : ∀ j, s.log.count (.fenceSignal j) + load (untilW 4 j) B ≤ finished s j

theorem handlerW_le (j : JobId) (c : Nat) (a : Stmt) : handlerW j c a ≤ lookW c a + doneAtW c a := by
  cases a with
  | irqClear d e =>
    cases e with
    | done i => simp only [handlerW, lookW, doneAtW]; split <;> simp_all
    | _ => exact Nat.zero_le _
  | _ =>
    first
      | exact Nat.zero_le _
      | (simp only [handlerW, lookW, doneAtW]; split <;> simp_all)

theorem exec_handlerW (ha : ∀ d, a ≠ .irqEnter d) (h : exec P a x s = some (s', p)) (j : JobId)
    (c : Nat) : load (handlerW j c) (p : Multiset Stmt) ≤ handlerW j c a := by
  cases exec_flow h
  case jobCommit =>
    rw [load_commits_eq_zero fun _ => rfl]
    exact Nat.zero_le _
  case irqEnter d i => exact absurd rfl (ha d)
  all_goals simp [handlerW]

theorem irqEnter_effect (h : exec P (.irqEnter c) x s = some (s', p)) :
    s'.slot = s.slot ∧ ((s.slot c = none ∧ p = [.irqClear c .noJob]) ∨
      ∃ j, s.slot c = some j ∧ p = [.irqStatus j c] ∧ (s'.jobs j).irqEntry c) := by
  simp only [exec, irqEnter, Option.some.injEq] at h
  split at h <;> cases h
  · exact ⟨rfl, .inl ⟨‹_›, rfl⟩⟩
  · refine ⟨rfl, .inr ⟨_, ‹_›, rfl, ?_⟩⟩
    rw [setJob_jobs, if_pos rfl]
    exact Function.update_self ..

def Handled (s : Dev) (B : Multiset Stmt) : Prop :=
  ∀ j c, 0 < load (handlerW j c) B → s.slot c = some j ∧ (s.jobs j).irqEntry c

namespace Handled

theorem exec (hone : ∀ c, load (doneAtW c) (a ::ₘ R) + load (lookW c) (a ::ₘ R) ≤ 1)
    (hI : Handled s (a ::ₘ R))
    (hG : ∀ j i c, a = .cancel j i → s.slot c = some j → load (handlerW j c) (a ::ₘ R) = 0)
    (h : Rknpu.exec P a x s = some (s', p)) : Handled s' ((p : Multiset Stmt) + R) := by
  intro j c hpos
  rw [load_add] at hpos
  by_cases he : ∃ d, a = .irqEnter d
  · obtain ⟨d, rfl⟩ := he
    obtain ⟨hs, ⟨-, rfl⟩ | ⟨i, hi, rfl, hent⟩⟩ := irqEnter_effect h
    · have hold := hI j c (by rw [load_cons]; simpa [handlerW] using hpos)
      exact ⟨by rw [hs]; exact hold.1, irqEntry_exec h hold.2⟩
    · by_cases hij : i = j ∧ d = c
      · obtain ⟨rfl, rfl⟩ := hij
        exact ⟨by rw [hs]; exact hi, hent⟩
      · have hold := hI j c (by rw [load_cons]; simpa [handlerW, hij] using hpos)
        exact ⟨by rw [hs]; exact hold.1, irqEntry_exec h hold.2⟩
  push Not at he
  have hle := exec_handlerW he h j c
  have hold := hI j c (by rw [load_cons]; omega)
  refine ⟨?_, irqEntry_exec h hold.2⟩
  by_cases hk : a.keepsSlot
  · rw [exec_slot hk h]
    exact hold.1
  cases a with
  | pickUp d =>
    obtain ⟨rfl, -⟩ | ⟨i, rest, hnone, -, -, -, hs, -⟩ := pickUp_effect h
    · exact hold.1
    · have hd : c ≠ d := by
        rintro rfl
        rw [hnone] at hold
        cases hold.1
      rw [hs, Function.update_of_ne hd]
      exact hold.1
  | releaseCore i r d =>
    obtain ⟨-, rfl, -, hs, -⟩ := releaseCore_effect h
    have hd : c ≠ d := by
      rintro rfl
      have hm := load_mono (f := handlerW j c) (g := fun a => lookW c a + doneAtW c a) (B := R)
        fun b _ => handlerW_le j c b
      have hsum : load (fun a => lookW c a + doneAtW c a) R =
          load (lookW c) R + load (doneAtW c) R := by
        simp [load, Multiset.sum_map_add]
      simp [handlerW] at hpos
      have hone := hone c
      simp only [load_cons, doneAtW, if_true] at hone
      omega
    rw [hs, Function.update_of_ne hd]
    exact hold.1
  | abortCores i =>
    rw [abortCores_slot h, if_neg]
    · exact hold.1
    · intro hab
      simp only [Dev.aborts, Bool.and_eq_true, beq_iff_eq, Bool.not_eq_true'] at hab
      obtain ⟨⟨-, hslot⟩, hent⟩ := hab
      rw [hold.1, Option.some.injEq] at hslot
      subst hslot
      rw [hold.2] at hent
      cases hent
  | cancel i n =>
    rw [cancel_slot h, if_neg]
    · exact hold.1
    · rintro ⟨-, hslot⟩
      have hz := hG i n c rfl hslot
      rw [hold.1, Option.some.injEq] at hslot
      subst hslot
      rw [load_cons] at hz
      omega
  | _ => exact absurd rfl hk

theorem occur (hQ : Queued P s R) (hI : Handled s R) (he : interrupts e)
    (h : Rknpu.occur P e s = some (s', p)) : Handled s' ((p : Multiset Stmt) + R) := by
  intro j c hpos
  have hz : load (handlerW j c) (p : Multiset Stmt) = 0 := by
    cases e with
    | completion d => exact absurd rfl (he d)
    | _ =>
      simp only [Rknpu.occur, Rknpu.spawn] at h
      repeat' split at h
      all_goals
        cases h
        try rfl
  rw [load_add, hz, Nat.zero_add] at hpos
  have hold := hI j c hpos
  have hj := hQ.enqueued_of_picked (c := c)
    (by rw [← List.count_pos_iff, count_picked]; exact hQ.slots j c hold.1)
  rw [occur_slot h, show (s'.jobs j).irqEntry = (s.jobs j).irqEntry from
    occur_get (f := .irqEntry) (fun _ => (hQ.lt_jobNum hj).ne)
      (fun d hd => absurd hd (he d)) h]
  exact hold

end Handled

namespace Timeline

theorem pickedInOrder (hQ : Queued P s B) (hI : Timeline s B) (c : Nat) :
    (picked s.log c).Pairwise (InOrder s) :=
  hI.order.sublist (((List.sublist_append_left _ _).trans (hQ.order c)).trans List.filter_sublist)

/-- A core is released from its jobs in the order in which it has picked them up. -/
theorem inOrder_of_released (hQ : Queued P s B) (hC : Counts s B) (hI : Timeline s B)
    (hj : s.slot c = some j) (hi : i ∈ released s.log c) (hne : i ≠ j) : InOrder s i j := by
  obtain ⟨l, hl⟩ := List.getLast?_eq_some_iff.mp (hI.last c j hj)
  have hpick : i ∈ picked s.log c := by
    rw [← List.count_pos_iff, count_released] at hi
    have := hC.held i c
    rw [← List.count_pos_iff, count_picked]
    omega
  have hord := hI.pickedInOrder hQ c
  rw [hl, List.pairwise_append] at hord
  rw [hl] at hpick
  rcases List.mem_append.mp hpick with hm | hm
  · exact hord.2.2 i hm j (List.mem_singleton_self j)
  · exact absurd (List.mem_singleton.mp hm) hne

theorem outstanding_back (hI : Timeline s (a ::ₘ R)) (ha : a ≠ .enqueue j)
    (h : exec P a x s = some (s', p)) (hO : Outstanding s' ((p : Multiset Stmt) + R) j) :
    Outstanding s (a ::ₘ R) j := by
  rcases hO with ⟨c, hc | hc⟩ | hpos
  · refine .inl ⟨c, .inl ?_⟩
    by_cases hi : ∃ i, a = .enqueue i
    · obtain ⟨i, rfl⟩ := hi
      obtain ⟨-, -, -, -, ht⟩ := enqueue_effect h
      rw [ht] at hc
      split at hc
      · rcases List.mem_append.mp hc with hc | hc
        · exact hc
        · exact absurd (by rw [List.mem_singleton.mp hc]) ha
      · exact hc
    · push Not at hi
      exact (exec_todo hi h c).mem hc
  · by_cases hp : a = .pickUp c
    · subst hp
      obtain ⟨rfl, -⟩ | ⟨i, rest, -, ht, -, -, hs, -⟩ := pickUp_effect h
      · exact .inl ⟨c, .inr hc⟩
      · rw [hs, Function.update_self, Option.some.injEq] at hc
        exact .inl ⟨c, .inl (by rw [ht, hc]; exact List.mem_cons_self)⟩
    · exact .inl ⟨c, .inr (slot_exec hp h hc)⟩
  · by_cases hr : ∃ r c, a = .releaseCore j r c
    · obtain ⟨r, c, rfl⟩ := hr
      exact .inl ⟨c, .inr (hI.handler j c (by rw [load_cons, handlerW, if_pos ⟨rfl, rfl⟩]; omega)).1⟩
    push Not at hr
    have hz : load (interruptDecW j) (p : Multiset Stmt) = 0 := load_eq_zero _ fun b hb => by
      have := exec_interruptDecs hr h
      cases b with
      | interruptDec i r c =>
        refine if_neg ?_
        rintro rfl
        exact this r c (by simpa using hb)
      | _ => rfl
    have hu := exec_untilW h 4 (by omega) j
    have hf : fires s j a ≤ interruptDecW j a := by
      cases a <;> simp only [fires, interruptDecW, le_refl]
      split <;> simp_all
    rw [load_add, load_add] at hpos
    right
    rw [load_cons, load_cons]
    omega

theorem order_exec (hQ : Queued P s (a ::ₘ R)) (hI : Timeline s (a ::ₘ R))
    (hG : timelineGuard.run s (a ::ₘ R) a x) (h : Rknpu.exec P a x s = some (s', p)) :
    (enqueued s'.log).Pairwise (InOrder s') := by
  have hold := pairwise_congr s' (fun k hk => fence_exec hQ (mem_enqueued s.log |>.mp hk) h)
    hI.order
  by_cases ha : ∃ i, a = .enqueue i
  · obtain ⟨i, rfl⟩ := ha
    obtain ⟨-, -, -, hl, -⟩ := enqueue_effect h
    have hf : ∀ k, (s'.jobs k).fence = (s.jobs k).fence := fun k => exec_get (f := .fence) rfl h
    rw [hl, enqueued_append, List.pairwise_append]
    refine ⟨hold, List.pairwise_singleton _ _, fun j hj k hk => ?_⟩
    obtain rfl := List.mem_singleton.mp hk
    intro m n hm hn
    rw [hf] at hm hn
    exact (hG.2.1 _ n rfl hn j m (List.count_pos_iff.mp (mem_enqueued s.log |>.mp hj)) hm).1
  · push Not at ha
    rwa [enqueued_exec ha h]

theorem covers_exec (hQ : Queued P s (a ::ₘ R)) (hI : Timeline s (a ::ₘ R))
    (hG : timelineGuard.run s (a ::ₘ R) a x) (h : Rknpu.exec P a x s = some (s', p))
    (hj : 0 < s'.log.count (.enqueue j)) (hi : 0 < s'.log.count (.enqueue i)) (hb : Before s' j i)
    (hO : Outstanding s' ((p : Multiset Stmt) + R) j) (hc : inMask (s'.mask j) c) :
    inMask (s'.mask i) c := by
  by_cases ha : ∃ k, a = .enqueue k
  · obtain ⟨k, rfl⟩ := ha
    obtain ⟨hkept, -, -, hl, -⟩ := enqueue_effect h
    have hf : ∀ k, (s'.jobs k).fence = (s.jobs k).fence := fun k => exec_get (f := .fence) rfl h
    obtain ⟨m, n, hm, hn, hlt⟩ := hb
    rw [hf] at hm hn
    rw [(hkept.fields j).1] at hc
    rw [(hkept.fields i).1]
    have hlog : ∀ d, d ≠ k → 0 < s'.log.count (.enqueue d) → 0 < s.log.count (.enqueue d) := by
      intro d hd hpos
      rwa [hl, List.count_append, List.count_singleton, if_neg (by simpa using Ne.symm hd),
        Nat.add_zero] at hpos
    by_cases hjk : j = k
    · subst hjk
      have hij : i ≠ j := by
        rintro rfl
        exact Before.irrefl ⟨m, n, hm, hn, hlt⟩
      have := (hG.2.1 j m rfl hm i n (List.count_pos_iff.mp (hlog i hij hi)) hn).1
      omega
    · have hO := hI.outstanding_back (by simpa using Ne.symm hjk) h hO
      have hj := hlog j hjk hj
      by_cases hik : i = k
      · subst hik
        exact (hG.2.1 i n rfl hn j m (List.count_pos_iff.mp hj) hm).2 hO c hc
      · exact hI.covers j i hj (hlog i hik hi) ⟨m, n, hm, hn, hlt⟩ hO c hc
  · push Not at ha
    have henq : ∀ d, s'.log.count (.enqueue d) = s.log.count (.enqueue d) := fun d => by
      rw [← count_enqueued, enqueued_exec ha h, count_enqueued]
    rw [henq] at hj hi
    rw [Before, fence_exec hQ hj h, fence_exec hQ hi h] at hb
    rw [hQ.mask_exec h hj] at hc
    rw [hQ.mask_exec h hi]
    exact hI.covers j i hj hi hb (hI.outstanding_back (ha j) h hO) c hc

theorem exec (hQ : Queued P s (a ::ₘ R)) (hC : Counts s (a ::ₘ R)) (hE : Ends s (a ::ₘ R))
    (hone : ∀ c, load (doneAtW c) (a ::ₘ R) + load (lookW c) (a ::ₘ R) ≤ 1)
    (hI : Timeline s (a ::ₘ R)) (hG : timelineGuard.run s (a ::ₘ R) a x)
    (h : Rknpu.exec P a x s = some (s', p)) : Timeline s' ((p : Multiset Stmt) + R) := by
  constructor
  case order => exact hI.order_exec hQ hG h
  case last =>
    intro c j hj
    by_cases hp : a = .pickUp c
    · subst hp
      obtain ⟨rfl, -⟩ | ⟨i, rest, -, -, -, -, hs, hl, -⟩ := pickUp_effect h
      · exact hI.last c j hj
      · rw [hs, Function.update_self, Option.some.injEq] at hj
        subst hj
        rw [hl, picked_append]
        simp [picked]
    · rw [picked_exec hp h]
      exact hI.last c j (slot_exec hp h hj)
  case handler => exact Handled.exec hone hI.handler hG.2.2 h
  case covers => exact fun j i hj hi hb hO c hc => hI.covers_exec hQ hG h hj hi hb hO hc
  case done =>
    intro c
    have hold := pairwise_congr s' (l := released s.log c) (fun k hk => by
      refine fence_exec hQ (hQ.enqueued_of_picked (c := c) ?_) h
      rw [← List.count_pos_iff, count_released] at hk
      have := hC.held k c
      rw [← List.count_pos_iff, count_picked]
      omega) (hI.done c)
    by_cases ha : ∃ j r, a = .releaseCore j r c
    · obtain ⟨j, r, rfl⟩ := ha
      obtain ⟨-, -, -, -, hl⟩ := releaseCore_effect h
      have hslot := (hI.handler j c (by rw [load_cons, handlerW, if_pos ⟨rfl, rfl⟩]; omega)).1
      have hf : ∀ k, (s'.jobs k).fence = (s.jobs k).fence := fun k => exec_get (f := .fence) rfl h
      have hrel : released s'.log c = released s.log c ++ [j] := by
        rw [hl, released_append]
        simp [released]
      rw [hrel, List.pairwise_append]
      refine ⟨hold, List.pairwise_singleton _ _, fun i hi k hk => ?_⟩
      obtain rfl := List.mem_singleton.mp hk
      have hne : i ≠ k := by
        rintro rfl
        have htok := hC.tokens_le_one i c
        rw [← List.count_pos_iff, count_released] at hi
        simp only [tokens, load_cons, releaseW, and_self, if_true] at htok
        omega
      rw [InOrder, hf, hf]
      exact hI.inOrder_of_released hQ hC hslot hi hne
    · push Not at ha
      rwa [released_exec ha h]
  case once =>
    intro j
    have hold := hI.once j
    have hle := leaves_exec (n := 4) (j := j) (by omega) hQ hC hE.spent h
      (Nat.add_sub_cancel' (hE.upto 4 (by omega) j))
    have hcnt : s'.log.count (.fenceSignal j) ≤
        s.log.count (.fenceSignal j) + if stage a = some (j, 4) then 1 else 0 := by
      by_cases ha : ∃ i q, a = .doneFence i q
      · obtain ⟨i, q, rfl⟩ := ha
        cases h
        split <;> simp [stage, List.count_append, List.count_singleton]
      · push Not at ha
        have hl : a.logs (.fenceSignal j) = false := Bool.eq_false_iff.mpr fun hl => by
          obtain ⟨q, rfl⟩ := logs_fenceSignal hl
          exact ha j q rfl
        rw [exec_count h hl]
        omega
    omega

theorem occur (hQ : Queued P s R) (hC : Counts s R) (hI : Timeline s R) (he : interrupts e)
    (h : Rknpu.occur P e s = some (s', p)) : Timeline s' ((p : Multiset Stmt) + R) := by
  have hcnt : ∀ ev : Event, (∀ c j k, ev ≠ .complete c j k) → s'.log.count ev = s.log.count ev :=
    fun ev hev => occur_count h hev
  have hpick : ∀ c, picked s'.log c = picked s.log c := fun c =>
    occur_project (fun _ _ _ => rfl) h
  have hrel : ∀ c, released s'.log c = released s.log c := fun c =>
    occur_project (fun _ _ _ => rfl) h
  have henq : enqueued s'.log = enqueued s.log := occur_project (fun _ _ _ => rfl) h
  have hback : ∀ j, Outstanding s' ((p : Multiset Stmt) + R) j → Outstanding s R j := by
    intro j hO
    rw [Outstanding, occur_slot h, occur_todo h, load_add, (occur_weights h j 0).1, Nat.zero_add,
      occur_untilW 4 h] at hO
    exact hO
  constructor
  case order =>
    rw [henq]
    exact pairwise_congr s' (fun k hk => fence_occur hQ (mem_enqueued s.log |>.mp hk) h) hI.order
  case last =>
    intro c j hj
    rw [occur_slot h] at hj
    rw [hpick]
    exact hI.last c j hj
  case handler => exact Handled.occur hQ hI.handler he h
  case covers =>
    intro j i hj hi hb hO c hc
    rw [hcnt _ (by simp)] at hj hi
    rw [Before, fence_occur hQ hj h, fence_occur hQ hi h] at hb
    rw [hQ.mask_occur h hj] at hc
    rw [hQ.mask_occur h hi]
    exact hI.covers j i hj hi hb (hback j hO) c hc
  case done =>
    intro c
    rw [hrel]
    refine pairwise_congr s'
      (fun k hk => fence_occur hQ (hQ.enqueued_of_picked (c := c) ?_) h) (hI.done c)
    rw [← List.count_pos_iff, count_released] at hk
    have := hC.held k c
    rw [← List.count_pos_iff, count_picked]
    omega
  case once =>
    intro j
    rw [hcnt _ (by simp), occur_untilW 4 h, finished_occur hQ h]
    exact hI.once j

theorem init : Timeline Dev.init 0 := by
  constructor <;> simp [Dev.init, enqueued, released]

theorem honest : Honest P timelineGuard := honest_of_genuine fun _ _ _ _ h => h.1

theorem reach (hC : Reach (driver P) timelineGuard Dev.init C) : Timeline C.shared C.pending := by
  refine hC.invariant_with
    (fun s B => Queued P s B ∧ Counts s B ∧ Ends s B ∧
      ∀ c, load (doneAtW c) B + load (lookW c) B ≤ 1) Timeline ?_ init ?_ ?_
  · exact fun D hD => ⟨Queued.reach hD, honest.counts hD, Ends.reach honest hD,
      doneAt_le_one (fun _ _ _ he => he) hD⟩
  · exact fun s R a x s' p hJ hI hG h => hI.exec hJ.1 hJ.2.1 hJ.2.2.1 hJ.2.2.2 hG h
  · exact fun s R e s' p hJ hI he h => hI.occur hJ.1 hJ.2.1 he h

end Timeline

/-- A job that is being counted down or finished is the one that its core was released from last. -/
theorem last_released (hC : Reach (driver P) timelineGuard Dev.init C) (ha : a ∈ C.pending)
    (hj : a.ending = some j) : ∃ c, (released C.shared.log c).getLast? = some j := by
  obtain ⟨t, ht, hm⟩ := List.mem_flatten.mp (Multiset.mem_coe.mp ha)
  obtain ⟨c, -, hl⟩ := (closing (fun _ _ _ he => he) hC t ht).2 a hm j hj
  exact ⟨c, hl⟩

theorem count_signals (l : List Event) (j : JobId) : (signals l).count j = l.count (.fenceSignal j) :=
  count_filterMap_event l fun e => by cases e <;> simp

structure Ordered (s : Dev) : Prop where
  fenced : ∀ j ∈ signals s.log, (s.jobs j).fence.isSome
  sorted : (signals s.log).Pairwise (Before s)

namespace Ordered

theorem enqueued_of_signals (hI : Timeline s B) (hj : j ∈ signals s.log) :
    0 < finished s j ∧ 0 < s.log.count (.enqueue j) := by
  have honce := hI.once j
  rw [← List.count_pos_iff, count_signals] at hj
  refine ⟨by omega, ?_⟩
  by_contra hn
  rw [finished_of_not_enqueued (by omega)] at honce
  omega

/-- What is signalled already comes before the job that is about to be signalled. -/
theorem before_of_signals (hQ : Queued P s B) (hC : Counts s B) (hT : Timeline s B)
    (hI : Ordered s) (hl : ∃ c, (released s.log c).getLast? = some j)
    (hpos : 0 < load (untilW 4 j) B) (hj : (s.jobs j).fence.isSome) (hi : i ∈ signals s.log) :
    Before s i j := by
  obtain ⟨hfin, hienq⟩ := enqueued_of_signals hT hi
  obtain ⟨n, hn⟩ := Option.isSome_iff_exists.mp hj
  obtain ⟨m, hm⟩ := Option.isSome_iff_exists.mp (hI.fenced i hi)
  obtain ⟨c, hc⟩ := hl
  obtain ⟨l, hl⟩ := List.getLast?_eq_some_iff.mp hc
  have hrel : 0 < s.log.count (.release c j) := by
    rw [← count_released, List.count_pos_iff, hl]
    simp
  have hne : i ≠ j := by
    rintro rfl
    have honce := hT.once i
    have hone := finished_le_one s i
    rw [← List.count_pos_iff, count_signals] at hi
    omega
  have hjenq : 0 < s.log.count (.enqueue j) := by
    have := hC.held j c
    refine hQ.enqueued_of_picked (c := c) ?_
    rw [← List.count_pos_iff, count_picked]
    omega
  by_contra hn'
  have hord : InOrder s j i := by
    rcases inOrder_or hT.order ((mem_enqueued _).mpr hienq) ((mem_enqueued _).mpr hjenq) hne with h | h
    · exact absurd ⟨m, n, hm, hn, h m n hm hn⟩ hn'
    · exact h
  have hlt := hord n m hn hm
  have hcov := hT.covers j i hjenq hienq ⟨n, m, hn, hm, hlt⟩ (.inr (by omega)) c
    (Bool.and_eq_true_iff.mp (needs_of_released hQ hC hrel)).2
  have hirel := released_of_finished hQ hC hfin hcov
  have hmem : i ∈ l := by
    rw [← count_released, List.count_pos_iff, hl] at hirel
    rcases List.mem_append.mp hirel with h | h
    · exact h
    · exact absurd (List.mem_singleton.mp h) hne
  have hdone := hT.done c
  rw [hl, List.pairwise_append] at hdone
  exact (hdone.2.2 i hmem j (List.mem_singleton_self j)).not_before ⟨n, m, hn, hm, hlt⟩

theorem exec (hQ : Queued P s (a ::ₘ R)) (hC : Counts s (a ::ₘ R)) (hT : Timeline s (a ::ₘ R))
    (hl : ∀ j, a.ending = some j → ∃ c, (released s.log c).getLast? = some j) (hI : Ordered s)
    (h : Rknpu.exec P a x s = some (s', p)) : Ordered s' := by
  have hf : ∀ k ∈ signals s.log, (s'.jobs k).fence = (s.jobs k).fence := fun k hk =>
    fence_exec hQ (enqueued_of_signals hT hk).2 h
  have hsorted : (signals s.log).Pairwise (Before s') := hI.sorted.imp_of_mem fun hj hi hb => by
    rwa [Before, hf _ hj, hf _ hi]
  have hfenced : ∀ k ∈ signals s.log, (s'.jobs k).fence.isSome := fun k hk => by
    rw [hf k hk]
    exact hI.fenced k hk
  by_cases ha : ∃ j q, a = .doneFence j q
  · obtain ⟨j, q, rfl⟩ := ha
    have hjob : ∀ k, (s'.jobs k).fence = (s.jobs k).fence := fun k => exec_get (f := .fence) rfl h
    by_cases hj : (s.jobs j).fence.isSome
    · have hlog : signals s'.log = signals s.log ++ [j] := by
        cases h
        simp [hj, signals]
      refine ⟨fun k hk => ?_, ?_⟩ <;> rw [hlog] at *
      · rcases List.mem_append.mp hk with hk | hk
        · exact hfenced k hk
        · rw [List.mem_singleton.mp hk, hjob]
          exact hj
      · rw [List.pairwise_append]
        refine ⟨hsorted, List.pairwise_singleton _ _, fun i hi k hk => ?_⟩
        obtain rfl := List.mem_singleton.mp hk
        rw [Before, hjob, hjob]
        exact before_of_signals hQ hC hT hI (hl k rfl)
          (by rw [load_cons]; simp [untilW, stage]) hj hi
    · have hlog : signals s'.log = signals s.log := by
        cases h
        simp [hj]
      exact ⟨by rwa [hlog], by rwa [hlog]⟩
  · push Not at ha
    exact ⟨by rwa [signals_exec ha h], by rwa [signals_exec ha h]⟩

theorem occur (hQ : Queued P s R) (hT : Timeline s R) (hI : Ordered s)
    (h : Rknpu.occur P e s = some (s', p)) : Ordered s' := by
  have hf : ∀ k ∈ signals s.log, (s'.jobs k).fence = (s.jobs k).fence := fun k hk =>
    fence_occur hQ (enqueued_of_signals hT hk).2 h
  have hlog : signals s'.log = signals s.log := occur_project (fun _ _ _ => rfl) h
  refine ⟨fun k hk => ?_, ?_⟩
  · rw [hlog] at hk
    rw [hf k hk]
    exact hI.fenced k hk
  · rw [hlog]
    exact hI.sorted.imp_of_mem fun hj hi hb => by rwa [Before, hf _ hj, hf _ hi]

theorem reach (hC : Reach (driver P) timelineGuard Dev.init C) : Ordered C.shared := by
  refine hC.invariant_with
    (fun s B => Queued P s B ∧ Counts s B ∧ Timeline s B ∧
      ∀ a ∈ B, ∀ j, a.ending = some j → ∃ c, (released s.log c).getLast? = some j)
    (fun s _ => Ordered s) ?_ ⟨by simp [Dev.init, signals], by simp [Dev.init, signals]⟩ ?_ ?_
  · exact fun D hD => ⟨Queued.reach hD, Timeline.honest.counts hD, Timeline.reach hD,
      fun a ha j hj => last_released hD ha hj⟩
  · exact fun s R a x s' p hJ hI _ h =>
      hI.exec hJ.1 hJ.2.1 hJ.2.2.1 (hJ.2.2.2 a (Multiset.mem_cons_self a R)) h
  · exact fun s R e s' p hJ hI _ h => hI.occur hJ.1 hJ.2.2.1 h

end Ordered

theorem signals_ordered (hC : Reach (driver P) timelineGuard Dev.init C) :
    (signals C.shared.log).Pairwise (Before C.shared) := (Ordered.reach hC).sorted

def timelineRun : List (Label Int Occurrence) :=
  [Label.env (Occurrence.submit (oneTask 19 1))] ++ List.replicate 29 (Label.run 0 0) ++
    [Label.env (Occurrence.submit (oneTask 19 1))] ++ List.replicate 15 (Label.run 1 0) ++
    [Label.env (Occurrence.hwComplete 0 0x300), .env (.irq 0)] ++
    List.replicate 31 (Label.run 3 0) ++
    [Label.env (Occurrence.hwComplete 0 0x300), .env (.irq 0)] ++ List.replicate 17 (Label.run 5 0)

def inTime (C : Conf Dev Stmt) (a : Stmt) : Bool :=
  match a with
  | .irqClear c (.done j) =>
    C.shared.engine c == .complete j ((C.shared.jobs j).submitCount c) &&
      C.threads.flatten.all fun b => jobDoneW j c b == 0
  | .enqueue i => (enqueued C.shared.log).all fun j =>
      C.shared.mask j == C.shared.mask i &&
        ((C.shared.jobs j).fence.getD 0 < (C.shared.jobs i).fence.getD 0)
  | .cancel _ _ => false
  | _ => true

theorem timelineGuard_of_inTime (h : inTime C a) :
    timelineGuard.run C.shared C.pending a x := by
  refine ⟨fun c j ha => ?_, fun i n ha hi j m hj hm => ?_, fun j i c ha => ?_⟩
  · subst ha
    simp only [inTime, Bool.and_eq_true, beq_iff_eq, List.all_eq_true] at h
    exact ⟨h.1, load_eq_zero _ fun b hb =>
      h.2 b (Multiset.mem_coe.mp (Multiset.mem_of_mem_erase hb))⟩
  · subst ha
    simp only [inTime, List.all_eq_true, Bool.and_eq_true, beq_iff_eq, decide_eq_true_eq] at h
    obtain ⟨hmask, hlt⟩ := h j ((mem_enqueued _).mpr (List.count_pos_iff.mpr hj))
    rw [hm, hi] at hlt
    exact ⟨hlt, fun _ c hc => by rwa [← hmask]⟩
  · subst ha
    cases h

theorem signals_ordered_timelineRun : ∃ C : Conf Dev Stmt, signals C.shared.log = [0, 1] ∧
    (C.shared.jobs 1).fence = some 2 ∧ Before C.shared 0 1 := by
  obtain ⟨C, hC, ht⟩ := Reach.exists_of_steps (driver (board rk356xConfig)) timelineGuard Dev.init
    timelineRun
    (fun C a _ => inTime C a)
    (fun C => signals C.shared.log == [0, 1] && (C.shared.jobs 1).fence == some 2)
    (fun C a x h => timelineGuard_of_inTime h) (fun e he _ _ c hc => by
      subst hc
      simp [timelineRun] at he) (by decide +kernel)
  simp only [Bool.and_eq_true, beq_iff_eq] at ht
  have hord := signals_ordered hC
  rw [ht.1, List.pairwise_pair] at hord
  exact ⟨C, ht.1, ht.2, hord⟩

/-- Of two such jobs on different cores the second one completes first. -/
def overtakeRun : List (Label Int Occurrence) :=
  [Label.env (Occurrence.submit (oneTask 19 1))] ++ List.replicate 33 (Label.run 0 0) ++
    [Label.env (Occurrence.submit (oneTask 19 2))] ++ List.replicate 33 (Label.run 1 0) ++
    [Label.env (Occurrence.hwComplete 1 0x300), .env (.irq 1)] ++
    List.replicate 17 (Label.run 3 0) ++
    [Label.env (Occurrence.hwComplete 0 0x300), .env (.irq 0)] ++ List.replicate 17 (Label.run 5 0)

theorem fence_overtakes : ¬∀ (P : Platform) (C : Conf Dev Stmt),
    Reach (driver P) (.events interrupts) Dev.init C → C.shared.jobNum < 2 ^ 32 →
      (signals C.shared.log).Pairwise (Before C.shared) := by
  intro hall
  obtain ⟨C, hC, ht⟩ := Reach.exists_of_steps (driver (board rk3588Config)) (.events interrupts)
    Dev.init overtakeRun
    (fun _ _ _ => true)
    (fun C => C.shared.jobNum == 2 && signals C.shared.log == [1, 0] &&
      (C.shared.jobs 0).fence == some 1 && (C.shared.jobs 1).fence == some 2)
    (fun _ _ _ _ => trivial) (fun e he _ _ c hc => by
      subst hc
      simp [overtakeRun] at he) (by decide +kernel)
  simp only [Bool.and_eq_true, beq_iff_eq] at ht
  obtain ⟨⟨⟨hn, hsig⟩, h₀⟩, h₁⟩ := ht
  have hord := hall _ C hC (by rw [hn]; decide)
  rw [hsig, List.pairwise_pair] at hord
  obtain ⟨m, n, hm, hn, hlt⟩ := hord
  rw [h₁, Option.some.injEq] at hm
  rw [h₀, Option.some.injEq] at hn
  omega

end Rknpu

import Rknpu.Queued

namespace Rknpu

open Interleaving

variable (P : Platform)

/-- A pending statement that still comes to a dispatch of core `c`, or empties its list. -/
def Attends (s : Dev) (c : Nat) : Stmt → Prop
  | .jobNext d | .pickUp d | .cancelWork _ d | .drain d | .drainWork _ d => d = c
  | .nextLoop j i => i ≤ c ∧ s.needs P c j
  | _ => False

/-- The slot of core `c` may be emptied, or left empty, without a further dispatch. -/
def Spare (s : Dev) (R : Multiset Stmt) (c : Nat) : Prop :=
  s.todoList c = [] ∨ ∃ b ∈ R, Attends P s c b

/-- No early return of `rknpu_job_next` during a reset, no abort and no recovery leaves a
core without a job while its list has one, unless a dispatch of it is still pending. -/
def dispatchGuard : Guard Dev Stmt Int Occurrence where
  run s B a _ :=
    (∀ c, a = .jobNext c → s.softReseting → s.slot c = none → Spare P s (B.erase a) c) ∧
    (∀ j, a = .abortCores j → ∀ c, s.aborts P j c → Spare P s (B.erase a) c) ∧
    (∀ j i, a = .cancel j i → ∀ c, c ≠ i → c < P.config.numIrqs → s.slot c = some j →
      Spare P s (B.erase a) c)
  env _ _ _ := True

/-- Every core with a queued job and a free slot is attended to. -/
structure Attended (s : Dev) (B : Multiset Stmt) : Prop where
  looped : ∀ j i, .nextLoop j i ∈ B → 0 < s.log.count (.enqueue j)
  core : ∀ c, s.slot c = none → s.todoList c ≠ [] → ∃ b ∈ B, Attends P s c b

variable {P} {s s' : Dev} {R : Multiset Stmt} {a : Stmt} {x : Int} {p : List Stmt}

namespace Attended

/-- What a step has to provide: the cores it leaves free with a queued job were so before,
or it attends to them itself; and it goes on with what it attended to. -/
theorem step {B B' : Multiset Stmt} (hI : Attended P s B) (hlog : s.log <+: s'.log)
    (hmask : ∀ j, 0 < s.log.count (.enqueue j) → s'.mask j = s.mask j)
    (looped : ∀ j i, .nextLoop j i ∈ B' → .nextLoop j i ∈ B ∨ 0 < s'.log.count (.enqueue j))
    (core : ∀ c, s'.slot c = none → s'.todoList c ≠ [] →
      (s.slot c = none ∧ s.todoList c ≠ [] ∧
        ∀ b ∈ B, Attends P s c b → b ∈ B' ∨ ∃ d ∈ B', Attends P s' c d) ∨
      ∃ b ∈ B', Attends P s' c b) : Attended P s' B' := by
  have hcnt : ∀ j, 0 < s.log.count (.enqueue j) → 0 < s'.log.count (.enqueue j) := fun j hj =>
    hj.trans_le (hlog.sublist.count_le _)
  refine ⟨fun j i hm => ?_, fun c hs ht => ?_⟩
  · rcases looped j i hm with h | h
    · exact hcnt j (hI.looped j i h)
    · exact h
  · rcases core c hs ht with ⟨h₁, h₂, h⟩ | h
    · obtain ⟨b, hb, hab⟩ := hI.core c h₁ h₂
      rcases h b hb hab with hb' | h
      · refine ⟨b, hb', ?_⟩
        cases b with
        | nextLoop j i =>
          obtain ⟨hi, hn⟩ := hab
          refine ⟨hi, ?_⟩
          rwa [Dev.needs, hmask j (hI.looped j i hb), ← Dev.needs]
        | _ => exact hab
      · exact h
    · exact h

theorem spare {c : Nat} (h : Spare P s R c) (ht : (s'.todoList c).Sublist (s.todoList c))
    (hmask : ∀ j, 0 < s.log.count (.enqueue j) → s'.mask j = s.mask j)
    (hI : ∀ j i, .nextLoop j i ∈ R → 0 < s.log.count (.enqueue j)) (hne : s'.todoList c ≠ []) :
    ∃ b ∈ (p : Multiset Stmt) + R, Attends P s' c b := by
  rcases h with h | ⟨b, hb, hab⟩
  · rw [h, List.sublist_nil] at ht
    exact absurd ht hne
  · refine ⟨b, Multiset.mem_add.mpr (.inr hb), ?_⟩
    cases b with
    | nextLoop j i =>
      obtain ⟨hi, hn⟩ := hab
      refine ⟨hi, ?_⟩
      rwa [Dev.needs, hmask j (hI j i hb), ← Dev.needs]
    | _ => exact hab

theorem kept (hQ : Queued P s (a ::ₘ R)) (hI : Attended P s (a ::ₘ R))
    (he : ∀ j, a ≠ .enqueue j) (hn : ∀ j n, a ≠ .nextLoop j n)
    (h : Rknpu.exec P a x s = some (s', p))
    (core : ∀ c, s'.slot c = none → s'.todoList c ≠ [] →
      s.slot c = none ∧ ¬Attends P s c a ∨ ∃ b ∈ (p : Multiset Stmt) + R, Attends P s' c b) :
    Attended P s' ((p : Multiset Stmt) + R) := by
  refine hI.step (exec_log h) (fun j hj => hQ.mask_exec h hj) (fun j i hm => ?_) fun c hc ht => ?_
  · rcases Multiset.mem_add.mp hm with hm | hm
    · rcases exec_loops h (by simpa using hm) with ha | ⟨n, ha⟩
      · exact absurd ha (he j)
      · exact absurd ha (hn j n)
    · exact .inl (Multiset.mem_cons_of_mem hm)
  · rcases core c hc ht with ⟨hs, ha⟩ | hb
    · refine .inl ⟨hs, fun hz => ?_, fun b hb hab => ?_⟩
      · have hsub := exec_todo he h c
        rw [hz, List.sublist_nil] at hsub
        exact ht hsub
      · rcases Multiset.mem_cons.mp hb with rfl | hb
        · exact absurd hab ha
        · exact .inl (Multiset.mem_add.mpr (.inr hb))
    · exact .inr hb

theorem spared (hQ : Queued P s (a ::ₘ R)) (hI : Attended P s (a ::ₘ R)) (he : ∀ j, a ≠ .enqueue j)
    (h : Rknpu.exec P a x s = some (s', p)) {c : Nat} (hc : Spare P s R c)
    (ht : s'.todoList c ≠ []) : ∃ b ∈ (p : Multiset Stmt) + R, Attends P s' c b :=
  spare hc (exec_todo he h c) (fun _ hj => hQ.mask_exec h hj)
    (fun j i hm => hI.looped j i (Multiset.mem_cons_of_mem hm)) ht

theorem enqueue {j : JobId} (hQ : Queued P s (.enqueue j ::ₘ R))
    (hI : Attended P s (.enqueue j ::ₘ R)) (h : Rknpu.exec P (.enqueue j) x s = some (s', p)) :
    Attended P s' ((p : Multiset Stmt) + R) := by
  obtain ⟨hs, rfl, hslot, hl, ht⟩ := enqueue_effect h
  have hj : 0 < s'.log.count (.enqueue j) := by simp [hl]
  refine hI.step (exec_log h) (fun i hi => hQ.mask_exec h hi) (fun i n hm => ?_) fun c hc htc => ?_
  · rcases Multiset.mem_add.mp hm with hm | hm
    · simp only [Multiset.mem_coe, List.mem_singleton, Stmt.nextLoop.injEq] at hm
      exact .inr (hm.1 ▸ hj)
    · exact .inl (Multiset.mem_cons_of_mem hm)
  · by_cases hn : s.needs P c j
    · refine .inr ⟨.nextLoop j 0, by simp, Nat.zero_le c, ?_⟩
      rwa [Dev.needs, (hs.fields j).1]
    · rw [ht, if_neg hn] at htc
      refine .inl ⟨hslot ▸ hc, htc, fun b hb hab => ?_⟩
      rcases Multiset.mem_cons.mp hb with rfl | hb
      · exact absurd hab id
      · exact .inl (Multiset.mem_add.mpr (.inr hb))

theorem nextLoop {j : JobId} {i : Nat} (hI : Attended P s (.nextLoop j i ::ₘ R))
    (h : Rknpu.exec P (.nextLoop j i) x s = some (s', p)) :
    Attended P s' ((p : Multiset Stmt) + R) := by
  have hj := hI.looped j i (Multiset.mem_cons_self _ _)
  have hlog := exec_log h
  simp only [Rknpu.exec, Rknpu.nextLoop, Option.some.injEq] at h
  have hs : s' = s := by
    repeat' split at h
    all_goals
      cases h
      rfl
  subst hs
  refine hI.step hlog (fun _ _ => rfl) (fun k n hm => ?_) fun c hc htc =>
    .inl ⟨hc, htc, fun b hb hab => ?_⟩
  · rcases Multiset.mem_add.mp hm with hm | hm
    · refine .inr (lt_of_lt_of_eq hj ?_)
      repeat' split at h
      all_goals
        cases h
        simp_all
    · exact .inl (Multiset.mem_cons_of_mem hm)
  · rcases Multiset.mem_cons.mp hb with rfl | hb
    · obtain ⟨hi, hn⟩ := hab
      have hlt := (Bool.and_eq_true_iff.mp hn).1
      rw [decide_eq_true_eq] at hlt
      rw [if_pos (by omega : i < P.config.numIrqs)] at h
      by_cases hic : i = c
      · subst hic
        have hin : inMask (s'.jobs j).args.coreMask i := (Bool.and_eq_true_iff.mp hn).2
        rw [if_pos hin] at h
        cases h
        exact .inr ⟨.jobNext i, by simp, rfl⟩
      · refine .inr ⟨.nextLoop j (i + 1), ?_, by omega, hn⟩
        split at h <;> cases h <;> simp
    · exact .inl (Multiset.mem_add.mpr (.inr hb))

theorem jobNext {d : Nat} (hQ : Queued P s (.jobNext d ::ₘ R))
    (hI : Attended P s (.jobNext d ::ₘ R))
    (hspare : s.softReseting → s.slot d = none → Spare P s R d)
    (h : Rknpu.exec P (.jobNext d) x s = some (s', p)) :
    Attended P s' ((p : Multiset Stmt) + R) := by
  refine hI.kept hQ (by simp) (by simp) h fun c hc ht => ?_
  rw [exec_slot rfl h] at hc
  by_cases hcd : c = d
  swap
  · exact .inl ⟨hc, fun ha => hcd ha.symm⟩
  subst hcd
  by_cases hr : s.softReseting
  · exact .inr (hI.spared hQ (by simp) h (hspare hr hc) ht)
  · simp only [Rknpu.exec, Rknpu.jobNext, if_neg hr, Option.some.injEq] at h
    cases h
    exact .inr ⟨.pickUp c, by simp, rfl⟩

theorem pickUp {d : Nat} (hQ : Queued P s (.pickUp d ::ₘ R)) (hI : Attended P s (.pickUp d ::ₘ R))
    (h : Rknpu.exec P (.pickUp d) x s = some (s', p)) :
    Attended P s' ((p : Multiset Stmt) + R) := by
  refine hI.kept hQ (by simp) (by simp) h fun c hc ht => ?_
  obtain ⟨rfl, -, hn⟩ | ⟨j, rest, -, -, -, -, hs, -, -⟩ := pickUp_effect h
  · refine .inl ⟨hc, ?_⟩
    rintro rfl
    rcases hn with hn | hn
    · exact hn hc
    · exact ht hn
  · rw [hs] at hc
    by_cases hcd : c = d
    · rw [hcd, Function.update_self] at hc
      cases hc
    · rw [Function.update_of_ne hcd] at hc
      exact .inl ⟨hc, fun ha => hcd ha.symm⟩

theorem releaseCore {j : JobId} {r : Int} {d : Nat} (hQ : Queued P s (.releaseCore j r d ::ₘ R))
    (hI : Attended P s (.releaseCore j r d ::ₘ R))
    (h : Rknpu.exec P (.releaseCore j r d) x s = some (s', p)) :
    Attended P s' ((p : Multiset Stmt) + R) := by
  refine hI.kept hQ (by simp) (by simp) h fun c hc ht => ?_
  obtain ⟨-, rfl, -, hs, -⟩ := releaseCore_effect h
  rw [hs] at hc
  by_cases hcd : c = d
  · exact .inr ⟨.jobNext d, by simp, hcd.symm⟩
  · rw [Function.update_of_ne hcd] at hc
    exact .inl ⟨hc, id⟩

theorem abortCores {j : JobId} (hQ : Queued P s (.abortCores j ::ₘ R))
    (hI : Attended P s (.abortCores j ::ₘ R))
    (hspare : ∀ c, s.aborts P j c → Spare P s R c)
    (h : Rknpu.exec P (.abortCores j) x s = some (s', p)) :
    Attended P s' ((p : Multiset Stmt) + R) := by
  refine hI.kept hQ (by simp) (by simp) h fun c hc ht => ?_
  rw [abortCores_slot h] at hc
  split at hc
  · exact .inr (hI.spared hQ (by simp) h (hspare c ‹_›) ht)
  · exact .inl ⟨hc, id⟩

theorem cancel {j : JobId} {i : Nat} (hQ : Queued P s (.cancel j i ::ₘ R))
    (hI : Attended P s (.cancel j i ::ₘ R))
    (hspare : ∀ c, c ≠ i → c < P.config.numIrqs → s.slot c = some j → Spare P s R c)
    (h : Rknpu.exec P (.cancel j i) x s = some (s', p)) :
    Attended P s' ((p : Multiset Stmt) + R) := by
  refine hI.kept hQ (by simp) (by simp) h fun c hc ht => ?_
  rw [cancel_slot h] at hc
  split at hc
  · rename_i hjob
    by_cases hci : c = i
    · refine .inr ⟨.cancelWork j i, ?_, hci.symm⟩
      cases h
      simp
    · exact .inr (hI.spared hQ (by simp) h (hspare c hci hjob.1 hjob.2) ht)
  · exact .inl ⟨hc, id⟩

/-- The statements of `rknpu_job_timeout_clean` that empty the list of a core. -/
theorem clean {d : Nat} (ha : a = .drain d ∨ ∃ j, a = .cancelWork j d ∨ a = .drainWork j d)
    (hQ : Queued P s (a ::ₘ R)) (hI : Attended P s (a ::ₘ R))
    (h : Rknpu.exec P a x s = some (s', p)) : Attended P s' ((p : Multiset Stmt) + R) := by
  have hkeeps : a.keepsSlot := by obtain rfl | ⟨j, rfl | rfl⟩ := ha <;> rfl
  have hown : ∀ c, Attends P s c a → c = d := by
    obtain rfl | ⟨j, rfl | rfl⟩ := ha <;> exact fun c hc => hc.symm
  refine hI.kept hQ (by rintro j rfl; simp at ha) (by rintro j n rfl; simp at ha) h fun c hc ht => ?_
  rw [exec_slot hkeeps h] at hc
  by_cases hcd : c = d
  swap
  · exact .inl ⟨hc, fun hac => hcd (hown c hac)⟩
  subst hcd
  obtain rfl | ⟨j, rfl | rfl⟩ := ha
  · simp only [Rknpu.exec, Rknpu.drain, Option.some.injEq] at h
    split at h
    · rename_i hz
      cases h
      exact absurd hz ht
    · rename_i j rest _
      cases h
      exact .inr ⟨.drainWork j c, by simp, rfl⟩
  · cases h
    exact .inr ⟨.drain c, by simp, rfl⟩
  · cases h
    exact .inr ⟨.drain c, by simp, rfl⟩

theorem exec (hQ : Queued P s (a ::ₘ R)) (hI : Attended P s (a ::ₘ R))
    (hG : (dispatchGuard P).run s (a ::ₘ R) a x) (h : Rknpu.exec P a x s = some (s', p)) :
    Attended P s' ((p : Multiset Stmt) + R) := by
  simp only [dispatchGuard, Multiset.erase_cons_head] at hG
  cases a with
  | enqueue j => exact hI.enqueue hQ h
  | nextLoop j i => exact hI.nextLoop h
  | jobNext d => exact hI.jobNext hQ (hG.1 d rfl) h
  | pickUp d => exact hI.pickUp hQ h
  | releaseCore j r d => exact hI.releaseCore hQ h
  | abortCores j => exact hI.abortCores hQ (hG.2.1 j rfl) h
  | cancel j i => exact hI.cancel hQ (hG.2.2 j i rfl) h
  | cancelWork j d => exact hI.clean (.inr ⟨j, .inl rfl⟩) hQ h
  | drainWork j d => exact hI.clean (.inr ⟨j, .inr rfl⟩) hQ h
  | drain d => exact hI.clean (.inl rfl) hQ h
  | _ =>
    refine hI.kept hQ (by simp) (by simp) h fun c hc _ => .inl ⟨?_, id⟩
    rwa [exec_slot rfl h] at hc

theorem occur {e : Occurrence} (hQ : Queued P s R) (hI : Attended P s R)
    (h : Rknpu.occur P e s = some (s', p)) : Attended P s' ((p : Multiset Stmt) + R) := by
  refine hI.step (occur_log h) (fun j hj => hQ.mask_occur h hj) (fun j i hm => ?_)
    fun c hc ht => .inl ⟨?_, ?_, fun b hb _ => .inl (Multiset.mem_add.mpr (.inr hb))⟩
  · rcases Multiset.mem_add.mp hm with hm | hm
    · exact absurd (by simpa using hm) (occur_loops h)
    · exact .inl hm
  · rwa [occur_slot h] at hc
  · rwa [occur_todo h] at ht

theorem init : Attended P Dev.init 0 := by
  constructor <;> simp [Dev.init]

/-- In every run that spares the dispatches. -/
theorem reach {C : Conf Dev Stmt} (hC : Reach (driver P) (dispatchGuard P) Dev.init C) :
    Attended P C.shared C.pending :=
  hC.invariant_with (Queued P) (Attended P) (fun _ hC => Queued.reach hC) init
    (fun _ _ _ _ _ _ hQ hI hG h => hI.exec hQ hG h) (fun _ _ _ _ _ hQ hI _ h => hI.occur hQ h)

end Attended

def Stranded (s : Dev) : Prop := ∃ c, s.slot c = none ∧ s.todoList c ≠ []

/-- With no driver call in progress, a core with a queued job is busy. -/
theorem not_stranded {C : Conf Dev Stmt} (hC : Reach (driver P) (dispatchGuard P) Dev.init C)
    (hidle : C.pending = 0) : ¬Stranded C.shared := by
  rintro ⟨c, hs, ht⟩
  obtain ⟨b, hb, -⟩ := (Attended.reach hC).core c hs ht
  simp [hidle] at hb

def queueRun : List (Label Int Occurrence) :=
  [Label.env (Occurrence.submit (oneTask 3 1))] ++ List.replicate 28 (Label.run 0 0) ++
    [Label.env (Occurrence.submit (oneTask 3 1))] ++ List.replicate 14 (Label.run 1 0)

theorem not_stranded_queueRun : ∃ C : Conf Dev Stmt,
    Reach (driver (board rk356xConfig)) (dispatchGuard (board rk356xConfig)) Dev.init C ∧
      C.shared.todoList 0 = [1] ∧ C.pending = 0 ∧ ¬Stranded C.shared := by
  obtain ⟨C, hC, ht⟩ := Reach.exists_of_steps (driver (board rk356xConfig))
    (dispatchGuard (board rk356xConfig)) Dev.init queueRun
    (fun C a _ => match a with
      | .jobNext _ => !C.shared.softReseting
      | .abortCores _ | .cancel _ _ => false
      | _ => true)
    (fun C => C.threads.flatten == [] && C.shared.todoList 0 == [1])
    (fun C a x h => ⟨fun c ha hr => by subst ha; simp [hr] at h,
      fun j ha => by subst ha; simp at h, fun j i ha => by subst ha; simp at h⟩)
    (fun _ _ _ _ => trivial) (by decide +kernel)
  simp only [Bool.and_eq_true, beq_iff_eq] at ht
  have hidle : C.pending = 0 := by rw [Conf.pending, ht.1]; rfl
  exact ⟨C, hC, ht.2, hidle, not_stranded hC hidle⟩

def resetsSucceed : Guard Dev Stmt Int Occurrence :=
  ⟨fun _ _ a x => a = .resetHw → x = 0, fun _ _ _ => True⟩

/-- A blocking job runs, a nonblocking one is queued behind it, and the first times out. -/
def strandRun : List (Label Int Occurrence) :=
  [Label.env (Occurrence.tick 1000000), .env (.submit (oneTask 1 1))] ++
    List.replicate 24 (Label.run 1 0) ++
    [Label.env (Occurrence.submit (oneTask 3 1))] ++ List.replicate 14 (Label.run 2 0) ++
    List.replicate 21 (Label.run 1 0)

theorem abort_strands : ¬∀ (P : Platform) (C : Conf Dev Stmt),
    Reach (driver P) resetsSucceed Dev.init C → C.pending = 0 →
      C.shared.softReseting = false → ¬Stranded C.shared := by
  intro hall
  obtain ⟨C, hC, ht⟩ := Reach.exists_of_steps (driver (board rk356xConfig)) resetsSucceed Dev.init
    strandRun
    (fun _ _ x => x == 0)
    (fun C => C.threads.flatten == [] && !C.shared.softReseting &&
      C.shared.slot 0 == none && C.shared.todoList 0 == [1])
    (fun C a x h _ => by simpa using h) (fun _ _ _ _ => trivial) (by decide +kernel)
  simp only [Bool.and_eq_true, beq_iff_eq, Bool.not_eq_true'] at ht
  have hidle : C.pending = 0 := by rw [Conf.pending, ht.1.1.1]; rfl
  exact hall _ C hC hidle ht.1.1.2 ⟨0, ht.1.2, by simp [ht.2]⟩

end Rknpu

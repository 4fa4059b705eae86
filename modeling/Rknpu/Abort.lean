import Rknpu.Flow
import Rknpu.Slots

namespace Rknpu

open Interleaving

variable {P : Platform} {s s' : Dev} {B : Multiset Stmt} {a : Stmt} {x : Int} {p k t : List Stmt}
  {i j : JobId} {c : Nat} {r : Int}

/-- The abort of job `j` finds no core that holds it after an interrupt, and no core picks
the job up between its two sections. -/
def abortGuard (P : Platform) (j : JobId) : Guard Dev Stmt Int Occurrence where
  run s B a _ :=
    (a = .abortCores j → ∀ c < P.config.numIrqs, s.slot c = some j →
      (s.jobs j).irqEntry c = false) ∧
    ∀ c, a = .pickUp c → s.slot c = none → (s.todoList c).head? = some j →
      .abortReset j ∉ B ∧ .jobFree j ∉ B
  env _ _ _ := True

/-- The thread has taken job `j` from its cores, or never gave it to one, and is about to free
it and to report an error. -/
def Freeing (j : JobId) (t : List Stmt) : Prop :=
  .abortReset j ∈ t ∨ ∃ r, r ≠ 0 ∧ [.jobFree j, .submitReturn j r] <:+: t

theorem Freeing.mem (h : Freeing j t) : .abortReset j ∈ t ∨ .jobFree j ∈ t := by
  obtain h | ⟨r, -, h⟩ := h
  · exact .inl h
  · exact .inr (h.subset List.mem_cons_self)

theorem pair_infix_append {α : Type} {u v : α} {l l' : List α} (h : [u, v] <:+: l ++ l') :
    [u, v] <:+: l ∨ [u, v] <:+: l' ∨ l.getLast? = some u := by
  obtain ⟨l₁, l₂, h⟩ := h
  rw [List.append_assoc] at h
  rcases List.append_eq_append_iff.mp h with ⟨m, rfl, hm⟩ | ⟨m, rfl, hm⟩
  · rcases m with _ | ⟨w, _ | ⟨w', m⟩⟩
    · exact .inr (.inl ⟨[], l₂, by simpa using hm⟩)
    · simp only [List.cons_append, List.nil_append, List.cons.injEq] at hm
      exact .inr (.inr (by simp [hm.1]))
    · simp only [List.cons_append, List.nil_append, List.cons.injEq] at hm
      exact .inl ⟨l₁, m, by simp [hm.1, hm.2.1]⟩
  · exact .inr (.inl ⟨m, l₂, by rw [hm, List.append_assoc]⟩)

theorem abortCores_of_flow (h : Flow a p) (hm : .abortReset j ∈ p) : a = .abortCores j := by
  cases h <;> simp at hm
  rw [hm]

theorem preW_of_flow (hr : r ≠ 0) (h : Flow a p) (hf : .jobFree j ∈ p)
    (hs : .submitReturn j r ∈ p) : 0 < preW j a := by
  cases h <;> simp at hf hs <;> simp [preW, hf]
  exact absurd hs.2 hr

theorem abortReset_of_flow (h : Flow a p) (hf : p.getLast? = some (.jobFree j)) :
    a = .abortReset j := by
  cases h <;> simp at hf <;> rw [hf]

/-- Only the error paths before the enqueueing and the abort come to that. -/
theorem freeing_exec (h : exec P a x s = some (s', p)) (hf : Freeing j (p ++ k)) :
    Freeing j (a :: k) ∨ a = .abortCores j ∨ 0 < preW j a := by
  have htail : ∀ {r : Int}, r ≠ 0 → [.jobFree j, .submitReturn j r] <:+: k →
      Freeing j (a :: k) := fun hr hk =>
        .inr ⟨_, hr, hk.trans (List.infix_cons_iff.mpr (.inr List.infix_rfl))⟩
  obtain hm | ⟨r, hr, hi⟩ := hf
  · rcases List.mem_append.mp hm with hm | hm
    · exact .inr (.inl (abortCores_of_flow (exec_flow h) hm))
    · exact .inl (.inl (List.mem_cons_of_mem _ hm))
  · rcases pair_infix_append hi with hi | hi | hi
    · exact .inr (.inr (preW_of_flow hr (exec_flow h) (hi.subset List.mem_cons_self)
        (hi.subset (by simp))))
    · exact .inl (htail hr hi)
    · rw [abortReset_of_flow (exec_flow h) hi]
      exact .inl (.inl List.mem_cons_self)

theorem freeing_occur {e : Occurrence} (h : occur P e s = some (s', p)) : ¬Freeing j p := by
  have hp : .abortReset j ∉ p ∧ ∀ r, .submitReturn j r ∉ p := by
    by_cases hc : ∃ c, e = .completion c
    · obtain ⟨c, rfl⟩ := hc
      obtain ⟨i, n, -, -, rfl, -⟩ := completion_effect h
      simp
    · push Not at hc
      cases e with
      | completion c => exact absurd rfl (hc c)
      | _ =>
        simp only [occur, spawn] at h
        repeat' split at h
        all_goals
          cases h
          try simp
  rintro (hm | ⟨r, -, hi⟩)
  · exact hp.1 hm
  · exact hp.2 r (hi.subset (by simp))

theorem pickUp_of_slot (h : exec P a x s = some (s', p)) (hj : s'.slot c = some j)
    (hn : s.slot c ≠ some j) :
    a = .pickUp c ∧ s.slot c = none ∧ (s.todoList c).head? = some j := by
  by_cases ha : a = .pickUp c
  · subst ha
    obtain ⟨rfl, -⟩ | ⟨i, rest, hs, ht, -, -, hs', -⟩ := pickUp_effect h
    · exact absurd hj hn
    · rw [hs', Function.update_self, Option.some.injEq] at hj
      exact ⟨rfl, hs, by rw [ht, hj]; rfl⟩
  · exact absurd (slot_exec ha h hj) hn

theorem not_slot_of_pre (hQ : Queued P s B) (hm : a ∈ B) (ha : 0 < preW j a) (c : Nat) :
    s.slot c ≠ some j := fun hc => by
  have h₁ := hQ.slots j c hc
  have h₂ := hQ.listed j c
  have h₃ := hQ.once j
  have h₄ := le_load (preW j) hm
  split at h₂ <;> omega

/-- While the thread of a job is about to free it, no core begins to hold it. -/
theorem no_slot_kept (hG : (abortGuard P j).run s B a x) (ht : ∀ b ∈ t, b ∈ B) (hf : Freeing j t)
    (h : exec P a x s = some (s', p)) (hold : ∀ c, s.slot c ≠ some j) (c : Nat) :
    s'.slot c ≠ some j := fun hc => by
  obtain ⟨ha, hnone, hhead⟩ := pickUp_of_slot h hc (hold c)
  obtain ⟨h₁, h₂⟩ := hG.2 c ha hnone hhead
  exact hf.mem.elim (fun hm => h₁ (ht _ hm)) fun hm => h₂ (ht _ hm)

theorem abortCores_clears (hQ : Queued P s B) (hG : (abortGuard P j).run s B (.abortCores j) x)
    (h : exec P (.abortCores j) x s = some (s', p)) (c : Nat) : s'.slot c ≠ some j := by
  rw [abortCores_slot h]
  split
  · intro hc
    cases hc
  · rename_i hn
    intro hc
    have hneeds := Bool.and_eq_true_iff.mp (hQ.needs_of_picked (hQ.slots j c hc))
    have hlt := of_decide_eq_true hneeds.1
    exact hn (by simp [Dev.aborts, hlt, hneeds.2, hc, hG.1 rfl c hlt hc])

/-- When the thread of a job frees it and reports an error, no core holds the job. -/
theorem abort_releases {C : Conf Dev Stmt} (hC : Reach (driver P) (abortGuard P j) Dev.init C)
    (hr : r ≠ 0) (hm : .jobFree j :: .submitReturn j r :: k ∈ C.threads) (c : Nat) :
    C.shared.slot c ≠ some j := by
  refine hC.each (fun s t => Freeing j t → ∀ c, s.slot c ≠ some j) ?_ ?_ ?_ _ hm
    (.inr ⟨r, hr, [], k, rfl⟩) c
  · intro C a k x s p hC hm hT hG h hf
    have hmem : ∀ b ∈ a :: k, b ∈ C.pending := fun b hb => List.mem_flatten.mpr ⟨_, hm, hb⟩
    have hQ := Queued.reach hC
    rcases freeing_exec h hf with hold | rfl | hpre
    · exact no_slot_kept hG hmem hold h (hT hold)
    · exact abortCores_clears hQ hG h
    · have hnone := not_slot_of_pre hQ (hmem _ List.mem_cons_self) hpre
      intro c hc
      obtain ⟨rfl, -⟩ := pickUp_of_slot h hc (hnone c)
      simp [preW] at hpre
  · intro C a k t x s p hC _ hle hT hG h hf
    have hmem : ∀ b ∈ t, b ∈ C.pending := fun b hb =>
      Multiset.mem_of_le hle (Multiset.mem_add.mpr (.inr hb))
    exact no_slot_kept hG hmem hf h (hT hf)
  · intro C e s p _ _ h
    rw [occur_slot h]
    exact ⟨fun hf => absurd hf (freeing_occur h), fun t _ hT => hT⟩

def abortRun (irqs : List (Label Int Occurrence)) : List (Label Int Occurrence) :=
  [Label.env (Occurrence.submit (oneTask 1 1))] ++ List.replicate 24 (Label.run 0 0) ++ irqs ++
    List.replicate 19 (Label.run 0 0)

def abortTest (C : Conf Dev Stmt) : Stmt → Bool
  | .abortCores _ => !(C.shared.jobs 0).irqEntry 0
  | .pickUp _ =>
    !C.threads.flatten.contains (.abortReset 0) && !C.threads.flatten.contains (.jobFree 0)
  | _ => true

theorem abort_releases_abortRun : ∃ C : Conf Dev Stmt,
    [.jobFree 0, .submitReturn 0 (-etimedout)] ∈ C.threads ∧
      picked C.shared.log 0 = [0] ∧ C.shared.slot 0 ≠ some 0 := by
  obtain ⟨C, hC, ht⟩ := Reach.exists_of_steps (driver (board rk356xConfig))
    (abortGuard (board rk356xConfig) 0) Dev.init (abortRun []) (fun C a _ => abortTest C a)
    (fun C => C.threads.contains [.jobFree 0, .submitReturn 0 (-etimedout)] &&
      picked C.shared.log 0 == [0])
    (fun C a _ h => by
      refine ⟨?_, ?_⟩
      · rintro rfl c hc -
        obtain rfl : c = 0 := Nat.lt_one_iff.mp hc
        simpa [abortTest] using h
      · rintro c rfl - -
        simpa [abortTest, Conf.pending] using h)
    (fun _ _ _ _ => trivial) (by decide +kernel)
  simp only [Bool.and_eq_true, beq_iff_eq, List.contains_iff_mem] at ht
  exact ⟨C, ht.1, ht.2, abort_releases hC (by decide) ht.1 0⟩

/-- No interrupt handler runs when an abort takes the lock. -/
def quietAborts (P : Platform) : Guard Dev Stmt Int Occurrence where
  run s _ a _ := ∀ i, a = .abortCores i → ∀ c < P.config.numIrqs, s.irqRunning c = false
  env _ _ _ := True

def rejectedIrq : List (Label Int Occurrence) :=
  .env (.irq 0) :: List.replicate 5 (.run 1 0)

theorem rejected_keeps_slot : ¬∀ (P : Platform) (C : Conf Dev Stmt) (j : JobId) (r : Int)
    (k : List Stmt), Reach (driver P) (quietAborts P) Dev.init C → r ≠ 0 →
      .jobFree j :: .submitReturn j r :: k ∈ C.threads → ∀ c, C.shared.slot c ≠ some j := by
  intro hall
  obtain ⟨C, hC, ht⟩ := Reach.exists_of_steps (driver (board rk356xConfig))
    (quietAborts (board rk356xConfig)) Dev.init (abortRun rejectedIrq)
    (fun C a _ => !a.evicts || !C.shared.irqRunning 0)
    (fun C => C.threads.contains [.jobFree 0, .submitReturn 0 (-etimedout)] &&
      C.shared.slot 0 == some 0)
    (fun C a _ h i ha c hc => by
      obtain rfl : c = 0 := Nat.lt_one_iff.mp hc
      simpa [ha, Stmt.evicts] using h)
    (fun _ _ _ _ => trivial) (by decide +kernel)
  simp only [Bool.and_eq_true, beq_iff_eq, List.contains_iff_mem] at ht
  exact hall _ C 0 _ [] hC (by decide) ht.1 0 ht.2

end Rknpu

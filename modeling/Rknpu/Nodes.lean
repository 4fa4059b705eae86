import Rknpu.Flow
import Rknpu.Moves
import Rknpu.Unlink

namespace Rknpu

open Interleaving

/-- The statements of `rknpu_job_wait` and those that lead there, after the dispatch. -/
def Stmt.waits (j : JobId) : Stmt → Bool
  | .submitWait i | .waitEvent i _ | .waitElapsed i _ | .waitLastTask i _ | .waitUnlink i _ => i == j
  | _ => false

structure Nodes (P : Platform) (s : Dev) (B : Multiset Stmt) : Prop where
  linked : ∀ j c, j ∈ s.todoList c → (s.jobs j).head c = .linked
  used : ∀ j c, 0 < s.log.count (.enqueue j) → s.needs P c j → (s.jobs j).head c ≠ .zeroed
  unlinked : ∀ j c, (s.jobs j).head c = .poisoned → (s.jobs j).args.nonblock = false
  blocking : ∀ j, ∀ a ∈ B, a.waits j → j < s.jobNum ∧ (s.jobs j).args.nonblock = false

variable {P : Platform} {G : Guard Dev Stmt Int Occurrence} {C : Conf Dev Stmt} {s s' : Dev}
  {B R : Multiset Stmt} {a : Stmt} {x : Int} {p : List Stmt} {j k : JobId} {c i : Nat}

def Dev.clears (s : Dev) (j : JobId) : Stmt → Prop
  | .cancel k _ => k = j
  | .drain i => (s.todoList i).head? = some j
  | _ => False

theorem not_mem_erase (hQ : Queued P s B) (j : JobId) (c : Nat) : j ∉ (s.todoList c).erase j := by
  have hle := hQ.count_todo_le j c
  rw [← List.count_pos_iff, List.count_erase_self]
  omega

theorem clears_effect (ha : s.clears j a) (h : exec P a x s = some (s', p)) :
    (∀ c, s'.todoList c = if c < P.config.numIrqs ∧ (s.jobs j).head c ≠ .self
        then (s.todoList c).erase j else s.todoList c) ∧
      (∀ k c, (s'.jobs k).head c = if k = j ∧ c < P.config.numIrqs then .self else (s.jobs k).head c) ∧
      s'.log = s.log ++ (List.range P.config.numIrqs).flatMap (unlinkEvents (s.jobs j) j) := by
  have hall : (∀ c, (unlinkAll P s j).todoList c =
        if c < P.config.numIrqs ∧ (s.jobs j).head c ≠ .self then (s.todoList c).erase j
          else s.todoList c) ∧
      (∀ k c, ((unlinkAll P s j).jobs k).head c =
        if k = j ∧ c < P.config.numIrqs then .self else (s.jobs k).head c) := by
    refine ⟨fun c => ?_, fun k c => ?_⟩
    · simp only [unlinkAll, Bool.and_eq_true, decide_eq_true_eq]
      rfl
    · simp only [unlinkAll, setJob_jobs]
      by_cases hk : k = j
      · by_cases hc : c < P.config.numIrqs <;> by_cases hs : (s.jobs j).head c = .self <;>
          simp [hk, hc, hs]
      · simp [hk]
  cases a with
  | cancel i n =>
    obtain rfl : i = j := ha
    cases h
    exact ⟨hall.1, hall.2, rfl⟩
  | drain i =>
    obtain ⟨rest, hl⟩ : ∃ rest, s.todoList i = j :: rest := by
      cases hl : s.todoList i with
      | nil => simp [Dev.clears, hl] at ha
      | cons k rest =>
        simp only [Dev.clears, hl, List.head?_cons, Option.some.injEq] at ha
        exact ⟨rest, by rw [ha]⟩
    simp only [exec, drain, hl, Option.some.injEq] at h
    cases h
    exact ⟨hall.1, hall.2, rfl⟩
  | _ => exact absurd ha id

theorem exec_node (hQ : Queued P s (a ::ₘ R)) (hL : k ∈ s.todoList c → (s.jobs k).head c = .linked)
    (h : exec P a x s = some (s', p)) :
    ((s'.jobs k).head c = (s.jobs k).head c ∧ (k ∈ s'.todoList c → k ∈ s.todoList c) ∧
        (a = .enqueue k → ¬s.needs P c k)) ∨
      ((s'.jobs k).head c = .linked ∧ a = .enqueue k) ∨
      (k ∉ s'.todoList c ∧ ((s'.jobs k).head c = .self ∨
        (s'.jobs k).head c = .poisoned ∧ ∃ r, a = .waitUnlink k r)) := by
  by_cases hcl : ∃ j, s.clears j a
  · obtain ⟨j, hj⟩ := hcl
    obtain ⟨ht, hh, -⟩ := clears_effect hj h
    by_cases hk : k = j ∧ c < P.config.numIrqs
    · obtain ⟨rfl, hc⟩ := hk
      refine .inr (.inr ⟨?_, .inl (by simp [hh, hc])⟩)
      rw [ht]
      split
      · exact not_mem_erase hQ k c
      · rename_i hn
        intro hm
        exact hn ⟨hc, by simp [hL hm]⟩
    · refine .inl ⟨by rw [hh, if_neg hk], fun hm => ?_, ?_⟩
      · rw [ht] at hm
        split at hm
        · exact List.mem_of_mem_erase hm
        · exact hm
      · rintro rfl
        exact absurd hj id
  have hsub : (∀ j, a ≠ .enqueue j) → k ∈ s'.todoList c → k ∈ s.todoList c := fun he hm =>
    (exec_todo he h c).subset hm
  by_cases hw : a.writes k .head
  · cases a with
    | enqueue j =>
      obtain rfl : j = k := by simpa [Stmt.writes] using hw
      have ht := (enqueue_effect h).2.2.2.2 c
      have hh : (s'.jobs j).head c = if s.needs P c j then .linked else (s.jobs j).head c := by
        cases h
        simp only [setJob_jobs, if_true]
        rfl
      by_cases hn : s.needs P c j
      · exact .inr (.inl ⟨by rw [hh, if_pos hn], rfl⟩)
      · exact .inl ⟨by rw [hh, if_neg hn], fun hm => by rwa [ht, if_neg hn] at hm, fun _ => hn⟩
    | pickUp d =>
      have hsub := hsub (by simp)
      simp only [Rknpu.exec, pickUp, Option.some.injEq] at h
      split at h
      · rename_i j rest hs hl
        cases h
        simp only [setJob_jobs]
        by_cases hk : k = j ∧ c = d
        · obtain ⟨rfl, rfl⟩ := hk
          have hle := hQ.count_todo_le k c
          rw [hl, List.count_cons_self] at hle
          refine .inr (.inr ⟨?_, .inl (by simp)⟩)
          rw [Function.update_self, ← List.count_pos_iff]
          omega
        · refine .inl ⟨?_, hsub, by simp⟩
          by_cases hkj : k = j
          · have hd : c ≠ d := fun hd => hk ⟨hkj, hd⟩
            simp [hkj, hd]
          · simp [hkj]
      · cases h
        exact .inl ⟨rfl, id, by simp⟩
    | waitUnlink j r =>
      obtain rfl : j = k := by simpa [Stmt.writes] using hw
      have ht := waitUnlink_todo h c
      have hh : (s'.jobs j).head c = if c < (s.jobs j).useCoreNum ∧ j ∈ s.todoList c then .poisoned
          else (s.jobs j).head c := by
        cases h
        simp [setJob_jobs]
      by_cases hn : c < (s.jobs j).useCoreNum ∧ j ∈ s.todoList c
      · refine .inr (.inr ⟨?_, .inr ⟨by rw [hh, if_pos hn], r, rfl⟩⟩)
        rw [ht, if_pos hn.1]
        exact not_mem_erase hQ j c
      · exact .inl ⟨by rw [hh, if_neg hn], hsub (by simp), by simp⟩
    | cancel j i => exact absurd ⟨j, rfl⟩ hcl
    | drain i =>
      simp only [Rknpu.exec, drain, Option.some.injEq] at h
      split at h
      · cases h
        exact .inl ⟨rfl, id, by simp⟩
      · rename_i j rest hl
        exact absurd ⟨j, by simp [Dev.clears, hl]⟩ hcl
    | pc g j c n => cases g <;> cases hw
    | _ => cases hw
  · have hw : a.writes k .head = false := by simpa using hw
    refine .inl ⟨congrFun (exec_get hw h) c, fun hm => ?_, ?_⟩
    · by_cases he : ∃ j, a = .enqueue j
      · obtain ⟨j, rfl⟩ := he
        rw [(enqueue_effect h).2.2.2.2 c] at hm
        split at hm
        · rcases List.mem_append.mp hm with hm | hm
          · exact hm
          · simp_all [Stmt.writes]
        · exact hm
      · exact hsub (by simpa using he) hm
    · rintro rfl
      simp [Stmt.writes] at hw

theorem exec_waits (h : exec P a x s = some (s', p)) {b : Stmt} (hb : b ∈ p) (hw : b.waits j) :
    a.waits j ∨ a = .dispatch j ∧ (s.jobs j).args.nonblock = false := by
  by_cases hd : ∃ i, a = .dispatch i
  · obtain ⟨i, rfl⟩ := hd
    simp only [exec, dispatch, Option.some.injEq] at h
    split at h <;> cases h
    · simp only [List.mem_cons, List.not_mem_nil, or_false] at hb
      rcases hb with rfl | rfl | rfl <;> simp [Stmt.waits] at hw
    · rename_i hn
      simp only [List.mem_cons, List.not_mem_nil, or_false] at hb
      rcases hb with rfl | rfl
      · simp [Stmt.waits] at hw
      · obtain rfl : i = j := by simpa [Stmt.waits] using hw
        exact .inr ⟨rfl, by simpa using hn⟩
  · have hall : ∀ b ∈ p, b.waits j → a.waits j := by
      cases exec_flow h with
      | dispatchAsync i | dispatch i => exact absurd ⟨i, rfl⟩ hd
      | _ => simp [Stmt.waits]
    exact .inl (hall b hb hw)

theorem exec_nonblock (h : exec P a x s = some (s', p)) (k : JobId) :
    (s'.jobs k).args.nonblock = (s.jobs k).args.nonblock :=
  congrArg (Nat.testBit · 1) (congrArg Prod.fst (exec_args h k))

theorem occur_waits {e : Occurrence} (h : occur P e s = some (s', p)) (j : JobId) :
    ∀ b ∈ p, b.waits j = false := by
  cases e with
  | completion c =>
    obtain ⟨i, n, -, -, rfl, -⟩ := completion_effect h
    simp [Stmt.waits]
  | _ =>
    simp only [occur, spawn] at h
    repeat' split at h
    all_goals
      cases h
      try simp [Stmt.waits]

namespace Nodes

theorem exec (hQ : Queued P s (a ::ₘ R)) (hI : Nodes P s (a ::ₘ R))
    (h : Rknpu.exec P a x s = some (s', p)) : Nodes P s' ((p : Multiset Stmt) + R) := by
  have hnode := fun k c => exec_node (k := k) (c := c) hQ (hI.linked k c) h
  constructor
  case linked =>
    intro k c hm
    obtain ⟨hh, ht, -⟩ | ⟨hh, -⟩ | ⟨hn, -⟩ := hnode k c
    · rw [hh]
      exact hI.linked k c (ht hm)
    · exact hh
    · exact absurd hm hn
  case used =>
    intro k c hj hn
    obtain ⟨hh, -, he⟩ | ⟨hh, -⟩ | ⟨-, hh | ⟨hh, -⟩⟩ := hnode k c
    · rw [hh]
      by_cases hae : a = .enqueue k
      · subst hae
        rw [Dev.needs, ((enqueue_effect h).1.fields k).1, ← Dev.needs] at hn
        exact absurd hn (he rfl)
      · rw [count_enqueue hae h] at hj
        rw [Dev.needs, hQ.mask_exec h hj, ← Dev.needs] at hn
        exact hI.used k c hj hn
    all_goals
      rw [hh]
      intro hne
      cases hne
  case unlinked =>
    intro k c hp
    rw [exec_nonblock h]
    obtain ⟨hh, -⟩ | ⟨hh, -⟩ | ⟨-, hh | ⟨-, r, rfl⟩⟩ := hnode k c
    · exact hI.unlinked k c (hh ▸ hp)
    · rw [hh] at hp
      cases hp
    · rw [hh] at hp
      cases hp
    · exact (hI.blocking k _ (Multiset.mem_cons_self _ _) (by simp [Stmt.waits])).2
  case blocking =>
    intro k b hb hw
    rw [exec_nonblock h, exec_jobNum h]
    rcases Multiset.mem_add.mp hb with hb | hb
    · rcases exec_waits h (by simpa using hb) hw with ha | ⟨rfl, hn⟩
      · exact hI.blocking k a (Multiset.mem_cons_self a R) ha
      · refine ⟨Nat.lt_of_not_le fun hle => ?_, hn⟩
        have hfresh := hQ.fresh k hle
        simp [preW] at hfresh
    · exact hI.blocking k b (Multiset.mem_cons_of_mem hb) hw

theorem occur {e : Occurrence} (hQ : Queued P s R) (hI : Nodes P s R)
    (h : Rknpu.occur P e s = some (s', p)) : Nodes P s' ((p : Multiset Stmt) + R) := by
  have hold : ∀ k, ((s'.jobs k).head = (s.jobs k).head ∧
        (s'.jobs k).args.nonblock = (s.jobs k).args.nonblock) ∨
      k = s.jobNum ∧ ∀ c, (s'.jobs k).head c = .zeroed := by
    intro k
    by_cases hk : e.spawns ∧ k = s.jobNum
    · obtain ⟨he, rfl⟩ := hk
      obtain rfl | ⟨args, hb⟩ := spawn_get he h
      · exact .inl ⟨rfl, rfl⟩
      · exact .inr ⟨rfl, congrFun (hb .head (by simp) (by simp))⟩
    · have hn : e.spawns → k ≠ s.jobNum := fun he hn => hk ⟨he, hn⟩
      exact .inl ⟨occur_get (f := .head) hn (by simp) h, congrArg (Nat.testBit · 1)
        (congrArg Prod.fst (occur_get (f := .args) hn (by simp) h))⟩
  have hnew : ∀ k, k = s.jobNum → s.log.count (.enqueue k) = 0 := fun k hk => by
    have := hQ.fresh k hk.ge
    omega
  have hcnt : ∀ k, s'.log.count (.enqueue k) = s.log.count (.enqueue k) := fun k =>
    occur_count h (by simp)
  constructor
  case linked =>
    intro k c hm
    rw [occur_todo h] at hm
    obtain ⟨hh, -⟩ | ⟨hk, -⟩ := hold k
    · rw [hh]
      exact hI.linked k c hm
    · have := hQ.enqueued_of_todo hm
      have := hnew k hk
      omega
  case used =>
    intro k c hj hn
    rw [hcnt] at hj
    rw [Dev.needs, hQ.mask_occur h hj, ← Dev.needs] at hn
    obtain ⟨hh, -⟩ | ⟨hk, -⟩ := hold k
    · rw [hh]
      exact hI.used k c hj hn
    · have := hnew k hk
      omega
  case unlinked =>
    intro k c hp
    obtain ⟨hh, hn⟩ | ⟨-, hh⟩ := hold k
    · rw [hn]
      exact hI.unlinked k c (hh ▸ hp)
    · rw [hh] at hp
      cases hp
  case blocking =>
    intro k b hb hw
    rcases Multiset.mem_add.mp hb with hb | hb
    · rw [occur_waits h k b (by simpa using hb)] at hw
      cases hw
    · obtain ⟨hlt, hn⟩ := hI.blocking k b hb hw
      obtain ⟨-, hh⟩ | ⟨hk, -⟩ := hold k
      · exact ⟨hlt.trans_le (occur_jobNum h), by rw [hh, hn]⟩
      · exact absurd hk hlt.ne

theorem init : Nodes P Dev.init 0 := by
  constructor <;> simp [Dev.init, jobAlloc]

theorem reach (hC : Reach (driver P) G Dev.init C) : Nodes P C.shared C.pending :=
  hC.invariant_with (Queued P) (Nodes P) (fun _ hC => Queued.reach hC) init
    (fun _ _ _ _ _ _ hQ hI _ h => hI.exec hQ h) (fun _ _ _ _ _ hQ hI _ h => hI.occur hQ h)

end Nodes

end Rknpu

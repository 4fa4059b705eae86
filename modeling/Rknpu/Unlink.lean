import Rknpu.Queued
import Rknpu.System

namespace Rknpu

open Interleaving

variable {P : Platform} {G : Guard Dev Stmt Int Occurrence} {C : Conf Dev Stmt} {s s' : Dev}
  {B : Multiset Stmt} {x : Int} {p : List Stmt} {j : JobId} {ret : Int}

theorem Queued.count_todo_le (hQ : Queued P s B) (j : JobId) (c : Nat) :
    (s.todoList c).count j ≤ 1 := by
  have hl := hQ.listed j c
  have ho := hQ.once j
  split at hl <;> omega

theorem waitUnlink_todo (h : exec P (.waitUnlink j ret) x s = some (s', p)) (c : Nat) :
    s'.todoList c =
      if c < (s.jobs j).useCoreNum then (s.todoList c).erase j else s.todoList c := by
  cases h
  change (if decide (c < (s.jobs j).useCoreNum) && decide (j ∈ s.todoList c) then
    (s.todoList c).erase j else s.todoList c) = _
  by_cases hm : j ∈ s.todoList c
  · simp [hm]
  · simp [hm, List.erase_of_not_mem hm]

/-- The lists keep the other jobs, in their order. -/
theorem waitUnlink_others (h : exec P (.waitUnlink j ret) x s = some (s', p)) (c : Nat) :
    (s'.todoList c).filter (· ≠ j) = (s.todoList c).filter (· ≠ j) := by
  rw [waitUnlink_todo h]
  split
  · rw [← List.erase_filter]
    exact List.erase_of_not_mem (by simp)
  · rfl

theorem mem_waitUnlink (hQ : Queued P s B) (h : exec P (.waitUnlink j ret) x s = some (s', p))
    (c : Nat) : j ∈ s'.todoList c ↔ j ∈ s.todoList c ∧ (s.jobs j).useCoreNum ≤ c := by
  rw [waitUnlink_todo h]
  split
  · rename_i hc
    have hle := hQ.count_todo_le j c
    have hn : j ∉ (s.todoList c).erase j := by
      rw [← List.count_pos_iff, List.count_erase_self]
      omega
    exact ⟨fun hm => absurd hm hn, fun hm => absurd hm.2 (Nat.not_le.mpr hc)⟩
  · rename_i hc
    exact ⟨fun hm => ⟨hm, Nat.not_lt.mp hc⟩, And.left⟩

theorem Queued.linked_below (hQ : Queued P s B) {n : Nat} (hn : n ≤ 3)
    (hm : s.mask j = 2 ^ n - 1) {c : Nat} (hc : j ∈ s.todoList c) :
    c < (s.jobs j).useCoreNum := by
  have hl := hQ.listed j c
  have hpos := List.count_pos_iff.mpr hc
  split at hl
  · rename_i hneeds
    have hin := (Bool.and_eq_true_iff.mp hneeds).2
    have hlt := inMask_lt hin
    rw [hm] at hin
    rw [hQ.width, hm]
    interval_cases n <;> interval_cases c <;> first | decide | exact absurd hin (by decide)
  · omega

/-- The loop of the waiter counts cores, while the job was linked by the bits of its mask. -/
theorem waitUnlink_leaves_lists (hC : Reach (driver P) G Dev.init C)
    (h : exec P (.waitUnlink j ret) x C.shared = some (s', p)) :
    ((∀ c, j ∉ s'.todoList c) ∧
        ∀ c, (s'.todoList c).filter (· ≠ j) = (C.shared.todoList c).filter (· ≠ j)) ↔
      ∀ c, j ∈ C.shared.todoList c → c < (C.shared.jobs j).useCoreNum := by
  have hQ := Queued.reach hC
  constructor
  · rintro ⟨hout, -⟩ c hc
    by_contra hlt
    exact hout c ((mem_waitUnlink hQ h c).mpr ⟨hc, Nat.not_lt.mp hlt⟩)
  · intro hlow
    refine ⟨fun c hc => ?_, waitUnlink_others h⟩
    obtain ⟨hc, hle⟩ := (mem_waitUnlink hQ h c).mp hc
    exact absurd (hlow c hc) (Nat.not_lt.mpr hle)

def queuedRun : List (Label Int Occurrence) :=
  [Label.env (Occurrence.submit (oneTask 1 2))] ++ List.replicate 15 (Label.run 0 0) ++
    [Label.env (Occurrence.submit (oneTask 1 2))] ++ List.replicate 19 (Label.run 1 0)

theorem queuedRun_reaches : ∃ C : Conf Dev Stmt,
    Reach (driver (board rk3588Config)) (.events fun _ => True) Dev.init C ∧
      .waitUnlink 1 0 ∈ C.pending ∧ 1 ∈ C.shared.todoList 1 ∧
      (C.shared.jobs 1).useCoreNum = 1 := by
  obtain ⟨C, hC, ht⟩ := Reach.exists_of_steps (driver (board rk3588Config))
    (.events fun _ => True) Dev.init queuedRun (fun _ _ _ => true)
    (fun C => C.threads[1]? == some [.waitUnlink 1 0] && C.shared.todoList 1 == [1] &&
      (C.shared.jobs 1).useCoreNum == 1)
    (fun _ _ _ _ => trivial) (fun _ _ _ _ => trivial) (by decide +kernel)
  simp only [Bool.and_eq_true, beq_iff_eq] at ht
  obtain ⟨⟨ht, hlist⟩, hcores⟩ := ht
  refine ⟨C, hC, ?_, by simp [hlist], hcores⟩
  exact List.mem_flatten.mpr ⟨_, List.mem_of_getElem? ht, List.mem_singleton_self _⟩

theorem waitUnlink_leaves_lists_queuedRun : ∃ (C : Conf Dev Stmt) (s' : Dev) (p : List Stmt),
    .waitUnlink 1 0 ∈ C.pending ∧
      exec (board rk3588Config) (.waitUnlink 1 0) 0 C.shared = some (s', p) ∧
      ¬((∀ c, 1 ∉ s'.todoList c) ∧
        ∀ c, (s'.todoList c).filter (· ≠ 1) = (C.shared.todoList c).filter (· ≠ 1)) := by
  obtain ⟨C, hC, hm, hlist, hcores⟩ := queuedRun_reaches
  obtain ⟨s', p, h⟩ : ∃ s' p, exec (board rk3588Config) (.waitUnlink 1 0) 0 C.shared = some (s', p) :=
    ⟨_, _, rfl⟩
  refine ⟨C, s', p, hm, h, fun hleft => ?_⟩
  have := (waitUnlink_leaves_lists hC h).mp hleft 1 hlist
  omega

theorem waiter_stays_linked : ¬∀ (P : Platform) (C : Conf Dev Stmt) (j : JobId) (ret x : Int)
    (s' : Dev) (p : List Stmt), Reach (driver P) (.events fun _ => True) Dev.init C →
      .waitUnlink j ret ∈ C.pending → exec P (.waitUnlink j ret) x C.shared = some (s', p) →
      (∀ c, j ∉ s'.todoList c) ∧
        ∀ c, (s'.todoList c).filter (· ≠ j) = (C.shared.todoList c).filter (· ≠ j) := by
  intro hall
  obtain ⟨C, hC, hm, hlist, hcores⟩ := queuedRun_reaches
  obtain ⟨s', p, h⟩ : ∃ s' p, exec (board rk3588Config) (.waitUnlink 1 0) 0 C.shared = some (s', p) :=
    ⟨_, _, rfl⟩
  obtain ⟨hout, -⟩ := hall _ C 1 0 0 s' p hC hm h
  exact hout 1 ((mem_waitUnlink (Queued.reach hC) h 1).mpr ⟨hlist, hcores.le⟩)

end Rknpu

import Rknpu.System

namespace Rknpu

open Interleaving

/-- The statements of a job's own thread up to its enqueueing. -/
def preW (j : JobId) : Stmt → Nat
  | .fenceIn i | .fenceWait i _ | .fenceOut i | .fenceFd i | .dispatch i | .jobSchedule i
  | .selectCore i _ _ _ | .domainGet i | .enqueue i => if i = j then 1 else 0
  | _ => 0

def resolvedW (j : JobId) : Stmt → Nat
  | .domainGet i | .enqueue i => if i = j then 1 else 0
  | _ => 0

/-- Pick-ups of a job that have not yet counted down `run_count`. -/
def runDecW (j : JobId) : Stmt → Nat
  | .runDec i => if i = j then 1 else 0
  | _ => 0

def jobCommitW (j : JobId) : Stmt → Nat
  | .jobCommit i => if i = j then 1 else 0
  | _ => 0

def commitW (j : JobId) (c : Nat) : Stmt → Nat
  | .subcoreCommit i d | .commitPc i d | .pc _ i d _ => if i = j ∧ d = c then 1 else 0
  | _ => 0

/-- A call of `rknpu_job_done` that has not started. -/
def jobDoneW (j : JobId) (c : Nat) : Stmt → Nat
  | .jobDone i _ d => if i = j ∧ d = c then 1 else 0
  | _ => 0

def releaseW (j : JobId) (c : Nat) : Stmt → Nat
  | .releaseCore i _ d => if i = j ∧ d = c then 1 else 0
  | _ => 0

/-- Releases of a job that have not yet counted down `interrupt_count`. -/
def interruptDecW (j : JobId) : Stmt → Nat
  | .interruptDec i _ _ => if i = j then 1 else 0
  | _ => 0

/-- How far the last `rknpu_job_done` of a job has come. -/
def stage : Stmt → Option (JobId × Nat)
  | .doneWidth j _ _ => some (j, 0)
  | .donePut j _ _ => some (j, 1)
  | .doneFlag j _ _ => some (j, 2)
  | .doneRet j _ _ => some (j, 3)
  | .doneFence j _ => some (j, 4)
  | .doneAsync j _ => some (j, 5)
  | _ => none

/-- It has not yet passed stage `n`. -/
def untilW (n : Nat) (j : JobId) (a : Stmt) : Nat :=
  match stage a with
  | some (i, m) => if i = j ∧ m ≤ n then 1 else 0
  | none => 0

section Commits

variable {j : JobId}

theorem load_map_subcoreCommit (l : List Nat) (k : JobId) (d : Nat) :
    load (commitW k d) ((l.map (Stmt.subcoreCommit j ·) : List Stmt) : Multiset Stmt) =
      if j = k then l.count d else 0 := by
  induction l with
  | nil => simp
  | cons e l ih =>
    rw [List.map_cons, load_coe_cons, ih, List.count_cons, commitW]
    by_cases hk : j = k <;> by_cases he : e = d <;> simp [hk, he]
    omega

theorem load_commits_eq_zero {f : Stmt → Nat} (hf : ∀ c, f (.subcoreCommit j c) = 0) (l : List Nat) :
    load f ((l.map (Stmt.subcoreCommit j ·) : List Stmt) : Multiset Stmt) = 0 :=
  load_eq_zero f fun b hb => by
    obtain ⟨c, -, rfl⟩ := List.mem_map.mp (Multiset.mem_coe.mp hb)
    exact hf c

end Commits

/-- The pending statements `B` weigh no more than `A`, and hold the same unfinished
pick-ups and releases. -/
structure Lighter (A B : Multiset Stmt) : Prop where
  pre : ∀ j, load (preW j) B ≤ load (preW j) A
  runDec : ∀ j, load (runDecW j) B = load (runDecW j) A
  interruptDec : ∀ j, load (interruptDecW j) B = load (interruptDecW j) A
  jobCommit : ∀ j, load (jobCommitW j) B ≤ load (jobCommitW j) A
  commit : ∀ j c, load (commitW j c) B ≤ load (commitW j c) A
  jobDone : ∀ j c, load (jobDoneW j c) B ≤ load (jobDoneW j c) A
  release : ∀ j c, load (releaseW j c) B ≤ load (releaseW j c) A

theorem Lighter.add {A B : Multiset Stmt} (h : Lighter A B) (R : Multiset Stmt) :
    Lighter (A + R) (B + R) := by
  constructor <;> intros <;> simp only [load_add]
  · exact Nat.add_le_add_right (h.pre _) _
  · rw [h.runDec]
  · rw [h.interruptDec]
  · exact Nat.add_le_add_right (h.jobCommit _) _
  · exact Nat.add_le_add_right (h.commit _ _) _
  · exact Nat.add_le_add_right (h.jobDone _ _) _
  · exact Nat.add_le_add_right (h.release _ _) _

end Rknpu

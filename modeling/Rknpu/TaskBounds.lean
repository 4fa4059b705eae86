import Rknpu.Recommits
import Rknpu.Masks

namespace Rknpu

open Interleaving

variable {P : Platform} {cfg : Config} {b : Job} {c k tasks : Nat} {s n : Int}

/-- `sizeof(struct rknpu_task)` -/
def sizeofTask : Nat := 40

/-- The job that is committed for `args`; `core` is what `rknpu_schedule_core_index`
answers if it is asked. -/
def committedJob (now : Int) (args : Submit) (core : Nat) : Job :=
  if args.coreMask = 0 then resolveCore (jobAlloc now args) core else jobAlloc now args

def isInt (x : Int) : Prop := -2 ^ 31 ≤ x ∧ x < 2 ^ 31

namespace Job

/-- The arithmetic on the range of core `c` for chunk `k` is exact, in the commit and in
`rknpu_job_done`, and the two tasks it reads are in a buffer of `tasks` tasks. -/
structure Inside (cfg : Config) (b : Job) (c k tasks : Nat) : Prop where
  number : 1 ≤ b.chunkNumber cfg c k
  offset : isInt (k * cfg.maxSubmitNumber)
  start : isInt ((b.taskRange cfg c).1 + k * cfg.maxSubmitNumber)
  rest : isInt ((b.taskRange cfg c).2 - k * cfg.maxSubmitNumber)
  sum : isInt (b.chunkStart cfg c k + b.chunkNumber cfg c k)
  pred : isInt (b.chunkStart cfg c k + b.chunkNumber cfg c k - 1)
  count : isInt (b.getTaskNumber cfg c + cfg.maxSubmitNumber)
  countPred : isInt (b.getTaskNumber cfg c + cfg.maxSubmitNumber - 1)
  first : 0 ≤ b.chunkStart cfg c k ∧ b.chunkStart cfg c k < tasks
  last : 0 ≤ b.chunkEnd cfg c k ∧ b.chunkEnd cfg c k < tasks

def RangeInside (cfg : Config) (b : Job) (c tasks : Nat) : Prop :=
  Fits cfg b c (b.taskRange cfg c).1 (b.taskRange cfg c).2 ∧
    (b.taskRange cfg c).1 + (b.taskRange cfg c).2 ≤ tasks

theorem isInt_toInt (x : Int) : isInt (toInt x) := by
  have h₁ := Int.le_bmod (x := x) (m := 2 ^ 32) (by decide)
  have h₂ := Int.bmod_lt (x := x) (m := 2 ^ 32) (by decide)
  constructor <;> simp only [toInt] <;> omega

theorem isInt_taskRange (hr : b.taskRange cfg c = (s, n)) : isInt s ∧ isInt n := by
  unfold taskRange at hr
  repeat' split at hr
  all_goals
    obtain ⟨rfl, rfl⟩ := Prod.mk.inj hr
    exact ⟨isInt_toInt _, isInt_toInt _⟩

theorem RangeInside.inside (h : RangeInside cfg b c tasks) (hc : c < 3) (hk : b.Due cfg c k) :
    Inside cfg b c k tasks := by
  obtain ⟨hF, htasks⟩ := h
  generalize hr : b.taskRange cfg c = r at hF htasks
  have hpos := hF.pos
  have hs := hF.start
  have hl := hF.last
  have hn := hF.count
  have hM := cfg.maxSubmitNumber_pos
  have hlt : k < chunks cfg r.2 := by
    rcases hk with rfl | hk
    · exact hF.chunks_pos
    · rw [chunkCount_eq hc hF.range (by omega) hF.count] at hk
      exact_mod_cast hk
  have hoff := hF.offset_lt hlt
  have hstart := hF.chunkStart_eq hlt
  have hnum := hF.chunkNumber_eq hlt
  have hend := hF.chunkEnd_eq hlt
  have hmem := hF.chunkNumber_mem hlt
  have htask : b.getTaskNumber cfg c = (b.taskRange cfg c).2 := getTaskNumber_eq hc
  rw [add_mul, one_mul] at hnum hend
  rw [hr] at htask
  constructor <;> (try rw [hr]) <;> (try unfold isInt) <;> omega

theorem RangeInside.of_inside (hc : c < 3) (h : ∀ k, b.Due cfg c k → Inside cfg b c k tasks) :
    RangeInside cfg b c tasks := by
  obtain ⟨s, n, hr⟩ : ∃ s n, b.taskRange cfg c = (s, n) := ⟨_, _, rfl⟩
  obtain ⟨hs, hn⟩ := isInt_taskRange hr
  have hM := cfg.maxSubmitNumber_pos
  have h₀ := h 0 (.inl rfl)
  have hpos := h₀.number
  have hfirst := h₀.first.1
  have hcount := h₀.count.2
  rw [chunkNumber, hr, Nat.cast_zero, zero_mul, sub_zero, toInt_eq hn.1 hn.2] at hpos
  rw [chunkStart, hr, Nat.cast_zero, zero_mul, add_zero, toInt_eq hs.1 hs.2] at hfirst
  rw [getTaskNumber_eq hc, hr] at hcount
  have hchunks := chunkCount_eq hc hr (by omega) (by omega)
  -- the last chunk ends where the range does
  obtain ⟨k, hk⟩ : ∃ k, chunks cfg n = k + 1 :=
    Nat.exists_eq_succ_of_ne_zero (pieces_pos hM (by omega)).ne'
  have hlt : k < chunks cfg n := by omega
  have hend : ¬k + 1 < chunks cfg n := by omega
  rw [lt_chunks (by omega)] at hlt hend
  push_cast at hend
  rw [add_mul, one_mul] at hend
  have hin := h k (.inr (by omega))
  have hoff := hin.start
  have hrest := hin.rest
  have hsum := hin.sum.2
  have hlast := hin.last.2
  rw [chunkEnd, toInt_eq hin.pred.1 hin.pred.2] at hlast
  rw [hr] at hoff hrest
  have hnum : b.chunkNumber cfg c k = n - k * cfg.maxSubmitNumber := by
    rw [chunkNumber, hr, toInt_eq hrest.1 hrest.2]
    omega
  have hstart : b.chunkStart cfg c k = s + k * cfg.maxSubmitNumber := by
    rw [chunkStart, hr, toInt_eq hoff.1 hoff.2]
  rw [RangeInside, hr]
  exact ⟨⟨hr, hfirst, by omega, by omega, by omega⟩, by omega⟩

end Job

/-- Commits read the task buffer where user space says, and nothing checks it but for a
zero in `task_number`. -/
theorem tasks_inside_iff (now : Int) (args : Submit) (core size : Nat) :
    (args.pc = true → ∀ c ∈ commitCores (committedJob now args core).args.coreMask, ∀ k,
        (committedJob now args core).Due cfg c k →
          (committedJob now args core).Inside cfg c k (size / sizeofTask)) ↔
      (args.pc = true → ∀ c ∈ commitCores (committedJob now args core).args.coreMask,
        (committedJob now args core).RangeInside cfg c (size / sizeofTask)) := by
  refine forall_congr' fun _ => forall₂_congr fun c hc => ?_
  have hlt := inMask_lt (inMask_of_mem_commitCores hc)
  exact ⟨fun h => .of_inside hlt h, fun h k hk => h.inside hlt hk⟩

/-- What a run commits is inside the buffer if the range of the job is. -/
theorem commit_inside {G : Guard Dev Stmt Int Occurrence} {C : Conf Dev Stmt} {j : JobId}
    {g : PcStage} (hG : Honest P G) (hC : Reach (driver P) G Dev.init C)
    (hm : .pc g j c k ∈ C.pending) (h : (C.shared.jobs j).RangeInside P.config c tasks) :
    (C.shared.jobs j).Inside P.config c k tasks := by
  have hpos : 0 < load (commitW j c) C.pending :=
    lt_of_lt_of_le (by simp [commitW]) (le_load (commitW j c) hm)
  have hk := (Recommits.reach hG hC).commit j c hpos
  rw [← (hG.counts hC).pcIndex g j c k hm] at hk
  exact h.inside (inMask_lt ((hG.counts hC).onCore j c (by omega))) hk

/-- The range of core 0 is empty, while `task_number` is not. -/
def emptyRange : Submit := { oneTask 1 1 with subcoreTask := fun _ => ⟨0, 0⟩ }

theorem tasks_leave_buffer : ¬∀ (P : Platform) (now : Int) (args : Submit) (core size : Nat),
    accepts P args → args.pc = true →
      ∀ c ∈ commitCores (committedJob now args core).args.coreMask, ∀ k,
        (committedJob now args core).Due P.config c k →
          (committedJob now args core).Inside P.config c k (size / sizeofTask) := by
  intro hall
  have h := hall (board rk3588Config) 0 emptyRange 0 4000 (by decide) (by decide) 0 (by decide) 0
    (.inl rfl)
  exact absurd h.number (by decide)

end Rknpu

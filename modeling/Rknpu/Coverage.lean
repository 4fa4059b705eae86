import Rknpu.Recommits

namespace Rknpu

open Interleaving

variable {P : Platform} {G : Guard Dev Stmt Int Occurrence} {C : Conf Dev Stmt}
  {j : JobId} {c k : Nat} {s n : Int}

/-- What the statement at stage `g` of a commit leaves behind when it programs `number`
tasks from `first` on. -/
def Programs (P : Platform) (b : Job) (j : JobId) (c : Nat) (first number : Int) (s' : Dev) :
    PcStage → Prop
  | .pcDataAddr =>
    s'.reg c .pcDataAddr = BitVec.ofNat 32 (P.kvAddr b.args.taskObjAddr first).regcmdAddr
  | .pcIntMask =>
    s'.reg c .intMask = (P.kvAddr b.args.taskObjAddr (first + number - 1)).intMask
  | .pcTaskControl =>
    ((s'.reg c .pcTaskControl).toNat % 2 ^ P.config.pcTaskNumberBits : Int) = number ∧
      (s'.reg c .pcTaskControl).toNat / 2 ^ P.config.pcTaskNumberBits =
        if b.args.pingpong then 0x7 else 0x6
  | .firstTask => (s'.jobs j).firstTask = some first
  | .lastTask => (s'.jobs j).lastTask = some (first + number - 1)
  | .jobIntMask =>
    (s'.jobs j).intMask c = (P.kvAddr b.args.taskObjAddr (first + number - 1)).intMask
  | .pcDataAmount | .pcIntClear | .pcDmaBaseAddr | .pcOpEn => True

/-- The tasks `s` up to `s + n` of job `j` are submitted to core `c` in chunks, each task in
one of them, and the core is freed after the last chunk. -/
structure Covered (P : Platform) (C : Conf Dev Stmt) (j : JobId) (c : Nat) (s n : Int) : Prop where
  number : (C.shared.jobs j).getTaskNumber P.config c = n ∧
    ((C.shared.jobs j).taskRange P.config c).2 = n
  range : ∀ k < Job.chunks P.config n,
    (C.shared.jobs j).chunkStart P.config c k = s + k * P.config.maxSubmitNumber ∧
    (C.shared.jobs j).chunkEnd P.config c k =
      s + min ((k + 1) * P.config.maxSubmitNumber : Int) n - 1 ∧
    1 ≤ (C.shared.jobs j).chunkNumber P.config c k ∧
    (C.shared.jobs j).chunkNumber P.config c k ≤ P.config.maxSubmitNumber
  partition : ∀ t, s ≤ t → t < s + n → ∃! k, k < Job.chunks P.config n ∧
    (C.shared.jobs j).chunkStart P.config c k ≤ t ∧ t ≤ (C.shared.jobs j).chunkEnd P.config c k
  consecutive : ∃ m ≤ Job.chunks P.config n, started C.shared.log c j = List.range m
  programs : ∀ g k x s' p, .pc g j c k ∈ C.pending →
    exec P (.pc g j c k) x C.shared = some (s', p) → k < Job.chunks P.config n ∧
      Programs P (C.shared.jobs j) j c (s + k * P.config.maxSubmitNumber)
        (min ((k + 1) * P.config.maxSubmitNumber : Int) n - k * P.config.maxSubmitNumber) s' g
  ends : ∀ r x s' p, .jobDone j r c ∈ C.pending →
    exec P (.jobDone j r c) x C.shared = some (s', p) →
      p = if (C.shared.jobs j).submitCount c + 1 < Job.chunks P.config n
        then [.subcoreCommit j c] else [.releaseCore j r c]
  frees : .release c j ∈ C.shared.log →
    (C.shared.jobs j).submitCount c = Job.chunks P.config n ∧
      started C.shared.log c j = List.range (Job.chunks P.config n) ∧
      ∀ k < Job.chunks P.config n, .complete c j k ∈ C.shared.log

/-- The word for `PC_TASK_CONTROL` keeps the number of tasks and the mode apart. -/
theorem taskControl_fields {b : Job} {m : Nat} (hm : b.chunkNumber P.config c k = m)
    (hlt : m < 2 ^ P.config.pcTaskNumberBits) :
    (taskControl P b c k).toNat % 2 ^ P.config.pcTaskNumberBits = m ∧
      (taskControl P b c k).toNat / 2 ^ P.config.pcTaskNumberBits =
        if b.args.pingpong then 0x7 else 0x6 := by
  have hbits : 2 ^ P.config.pcTaskNumberBits ≤ 2 ^ 16 :=
    Nat.pow_le_pow_right (by decide) P.config.pcTaskNumberBits_le
  have hmode : (if b.args.pingpong then 0x7 else 0x6) * 2 ^ P.config.pcTaskNumberBits ≤
      7 * 2 ^ 16 := Nat.mul_le_mul (by split <;> decide) hbits
  have htoNat : (taskControl P b c k).toNat =
      (if b.args.pingpong then 0x7 else 0x6) * 2 ^ P.config.pcTaskNumberBits + m := by
    rw [taskControl, hm, BitVec.ofInt_natCast, BitVec.toNat_or, BitVec.toNat_ofNat,
      BitVec.toNat_ofNat, Nat.shiftLeft_eq, Nat.mod_eq_of_lt (by omega),
      Nat.mod_eq_of_lt (by omega), ← Nat.shiftLeft_eq, Nat.shiftLeft_add_eq_or_of_lt hlt]
  rw [htoNat]
  exact ⟨by rw [Nat.mul_add_mod_self_right, Nat.mod_eq_of_lt hlt],
    by rw [Nat.add_comm, Nat.add_mul_div_right _ _ (by omega), Nat.div_eq_of_lt hlt, Nat.zero_add]⟩

theorem Job.Fits.programs {s₀ s' : Dev} {g : PcStage} {x : Int} {p : List Stmt}
    (h : (s₀.jobs j).Fits P.config c s n) (hk : k < Job.chunks P.config n)
    (hx : exec P (.pc g j c k) x s₀ = some (s', p)) :
    Programs P (s₀.jobs j) j c (s + k * P.config.maxSubmitNumber)
      (min ((k + 1) * P.config.maxSubmitNumber : Int) n - k * P.config.maxSubmitNumber) s' g := by
  have hnum := h.chunkNumber_eq hk
  have hmem := h.chunkNumber_mem hk
  have hfirst := h.chunkStart_eq hk
  have hlast : (s₀.jobs j).chunkEnd P.config c k = s + k * P.config.maxSubmitNumber +
      (min ((k + 1) * P.config.maxSubmitNumber : Int) n - k * P.config.maxSubmitNumber) - 1 := by
    rw [h.chunkEnd_eq hk]
    ring
  rw [← hnum] at hlast ⊢
  rw [← hfirst] at hlast ⊢
  cases g with
  | pcTaskControl =>
    obtain ⟨m, hm⟩ := Int.eq_ofNat_of_zero_le (show 0 ≤ (s₀.jobs j).chunkNumber P.config c k by omega)
    have hlt := P.config.maxSubmitNumber_lt
    have hw := taskControl_fields (P := P) hm (by omega)
    cases hx
    simp only [Programs, Dev.write, Function.update_self, hm]
    exact ⟨by exact_mod_cast hw.1, hw.2⟩
  | pcDataAddr | pcIntMask =>
    cases hx
    simp only [Programs, Dev.write, Function.update_self, hlast]
  | firstTask | lastTask | jobIntMask =>
    cases hx
    simp only [Programs, setJob_jobs, if_true, Function.update_self, hlast]
  | _ => trivial

/-- For every core of the mask, in every run that invents no completion. -/
theorem chunks_cover (hG : Honest P G) (hC : Reach (driver P) G Dev.init C)
    (hc : inMask (C.shared.mask j) c) (h : (C.shared.jobs j).Fits P.config c s n) :
    Covered P C j c s n := by
  have hlt := inMask_lt hc
  have hcount := Job.chunkCount_eq hlt h.range (by have := h.pos; omega) h.count
  have hI := Recommits.reach hG hC
  have hS := Starts.reach hG hC
  have hdue : ∀ {k}, (C.shared.jobs j).Due P.config c k → k < Job.chunks P.config n := by
    rintro k (rfl | hk)
    · exact h.chunks_pos
    · rw [hcount] at hk
      exact_mod_cast hk
  have hle : ∀ m, started C.shared.log c j = List.range m → m ≤ Job.chunks P.config n :=
    fun m hm => Nat.le_of_not_lt fun hlt => by
      have hmem : Job.chunks P.config n ∈ started C.shared.log c j := by simpa [hm] using hlt
      exact absurd (hdue (hI.start j c _ (mem_started.mp hmem))) (Nat.lt_irrefl _)
  constructor
  case number => exact ⟨by rw [Job.getTaskNumber_eq hlt, h.range], by rw [h.range]⟩
  case range =>
    exact fun k hk => ⟨h.chunkStart_eq hk, h.chunkEnd_eq hk, h.chunkNumber_mem hk⟩
  case partition => exact fun t ht ht' => h.existsUnique_chunk ht ht'
  case consecutive =>
    rcases hS.always j c with hm | hm <;> exact ⟨_, hle _ hm, hm⟩
  case programs =>
    intro g k x s' p hp hx
    have hpos : 0 < load (commitW j c) C.pending :=
      lt_of_lt_of_le (by simp [commitW]) (le_load (commitW j c) hp)
    have hk := hI.commit j c hpos
    rw [← (hG.counts hC).pcIndex g j c k hp] at hk
    exact ⟨hdue hk, h.programs (hdue hk) hx⟩
  case ends =>
    intro r x s' p _ hx
    rw [(jobDone_effect hx).2, hcount]
    norm_cast
  case frees =>
    intro hr
    have hpos : 0 < load (releaseW j c) C.pending + C.shared.log.count (.release c j) := by
      have := List.count_pos_iff.mpr hr
      omega
    have hlast := hdue (hI.leaving j c hpos)
    have hge := (Chunks.reach hG hC).ended c j hpos
    rw [hcount] at hge
    have heq : (C.shared.jobs j).submitCount c = Job.chunks P.config n := by omega
    refine ⟨heq, ?_, fun k hk => (Chunks.reach hG hC).counted c j k (by omega)⟩
    rcases hS.always j c with hm | hm
    · rw [hm, heq]
    · have := hle _ hm
      omega

/-- Every interrupt that reaches `rknpu_job_done` is for a chunk that has completed. -/
def genuineGuard : Guard Dev Stmt Int Occurrence :=
  ⟨fun s B a _ => Counts.Genuine s (B.erase a) a, fun _ _ _ => True⟩

def chunkedRun : List (Label Int Occurrence) :=
  [Label.env (Occurrence.schedule { oneTask 1 1 with taskNumber := 5000 } false)] ++
    List.replicate 20 (Label.run 0 0) ++ [Label.env (Occurrence.completion 0)] ++
    List.replicate 13 (Label.run 1 0) ++
    [Label.env (Occurrence.completion 0)] ++ List.replicate 2 (Label.run 2 0)

/-- Statements of the interrupt handler that may lead to `rknpu_job_done`. -/
def Stmt.acknowledges : Stmt → Bool
  | .irqClear _ _ => true
  | _ => false

theorem chunks_cover_chunkedRun : ∃ C : Conf Dev Stmt,
    released C.shared.log 0 = [0] ∧ Covered (board rk356xConfig) C 0 0 0 5000 := by
  obtain ⟨C, hC, ht⟩ := Reach.exists_of_steps (driver (board rk356xConfig)) genuineGuard
    Dev.init chunkedRun (fun _ a _ => !a.acknowledges)
    (fun C => released C.shared.log 0 == [0] &&
      (C.shared.jobs 0).taskRange rk356xConfig 0 == (0, 5000) && C.shared.mask 0 == 1)
    (fun C a x h c j ha => by simp [ha, Stmt.acknowledges] at h) (fun _ _ _ _ => trivial)
    (by decide +kernel)
  simp only [Bool.and_eq_true, beq_iff_eq] at ht
  obtain ⟨⟨hrel, hrange⟩, hmask⟩ := ht
  exact ⟨C, hrel, chunks_cover (honest_of_genuine fun _ _ _ _ h => h) hC (by rw [hmask]; rfl)
    ⟨hrange, by decide, by decide, by decide, by decide⟩⟩

end Rknpu

import Rknpu.Chunks
import Rknpu.Flow
import Rknpu.Ranges
import Rknpu.Starts

namespace Rknpu

open Interleaving

variable {P : Platform} {s s' : Dev} {B R : Multiset Stmt} {a : Stmt} {x : Int} {p : List Stmt}
  {j : JobId} {c k : Nat} {r : Int}

/-- Chunk `k` is the first one, or one that `rknpu_job_done` commits again. -/
def Job.Due (cfg : Config) (b : Job) (c k : Nat) : Prop := k = 0 ∨ (k : Int) < b.chunkCount cfg c

/-- Only due chunks are on their way to a core. -/
structure Recommits (P : Platform) (s : Dev) (B : Multiset Stmt) : Prop where
  first : ∀ j, 0 < load (jobCommitW j) B → ∀ c, (s.jobs j).submitCount c = 0
  commit : ∀ j c, 0 < load (commitW j c) B →
    (s.jobs j).Due P.config c ((s.jobs j).submitCount c)
  start : ∀ j c k, .start c j k ∈ s.log → (s.jobs j).Due P.config c k
  leaving : ∀ j c, 0 < load (releaseW j c) B + s.log.count (.release c j) →
    (s.jobs j).Due P.config c ((s.jobs j).submitCount c - 1)

theorem exec_jobCommitW (ha : ∀ i, a ≠ .runDec i) (h : exec P a x s = some (s', p)) (k : JobId) :
    load (jobCommitW k) (p : Multiset Stmt) ≤ jobCommitW k a := by
  cases exec_flow h
  case jobCommit => rw [load_commits_eq_zero fun _ => rfl]; exact Nat.zero_le _
  case runDec => exact absurd rfl (ha _)
  all_goals simp [jobCommitW]

/-- Commits come from the commit of a job or from the end of its last chunk. -/
theorem exec_commitW (ha : ∀ i, a ≠ .jobCommit i) (ha' : ∀ i r d, a ≠ .jobDone i r d)
    (h : exec P a x s = some (s', p)) (k : JobId) (d : Nat) :
    load (commitW k d) (p : Multiset Stmt) ≤ commitW k d a := by
  cases exec_flow h
  case jobCommit => exact absurd rfl (ha _)
  case jobDoneNext => exact absurd rfl (ha' _ _ _)
  case jobDone => exact absurd rfl (ha' _ _ _)
  all_goals simp [commitW]

namespace Recommits

theorem due_exec (hQ : Queued P s (a ::ₘ R)) (hj : 0 < s.log.count (.enqueue j))
    (h : Rknpu.exec P a x s = some (s', p)) (hd : (s.jobs j).Due P.config c k) :
    (s'.jobs j).Due P.config c k := by
  rwa [Job.Due, exec_chunkCount hQ hj h]

theorem jobDone (hQ : Queued P s (.jobDone j r c ::ₘ R)) (hC : Counts s (.jobDone j r c ::ₘ R))
    (hS : Starts P s (.jobDone j r c ::ₘ R)) (hI : Recommits P s (.jobDone j r c ::ₘ R))
    (h : Rknpu.exec P (.jobDone j r c) x s = some (s', p)) :
    Recommits P s' ((p : Multiset Stmt) + R) := by
  have hone := hC.tokens_le_one j c
  simp only [tokens, reported, load_cons, jobCommitW, commitW, jobDoneW, releaseW, and_self,
    if_true] at hone
  have henq := (hC.live (j := j) (c := c) (by
    simp only [tokens, reported, load_cons, jobDoneW, and_self, if_true]
    omega)).1
  -- the chunk that has ended was started, hence due
  have hstart : .start c j ((s.jobs j).submitCount c) ∈ s.log := by
    rw [← mem_started, hS.after j c (by
      simp only [reported, load_cons, jobDoneW, and_self, if_true]
      omega)]
    exact List.mem_range.mpr (Nat.lt_succ_self _)
  have hdue := hI.start j c _ hstart
  have hkeep : ∀ {i d n}, 0 < s.log.count (.enqueue i) → (s.jobs i).Due P.config d n →
      (s'.jobs i).Due P.config d n := fun hi => due_exec hQ hi h
  obtain ⟨hs', hp⟩ := jobDone_effect h
  have hlog : s'.log = s.log := by rw [hs']; rfl
  have hself : (s'.jobs j).submitCount c = (s.jobs j).submitCount c + 1 := by
    rw [hs', setJob_jobs, if_pos rfl]
    simp
  have hsub : ∀ i d, ¬(j = i ∧ c = d) →
      (s'.jobs i).submitCount d = (s.jobs i).submitCount d := fun i d hd => by
    rw [hs', setJob_jobs]
    split
    · rename_i hi
      subst hi
      exact Function.update_of_ne (fun hcd => hd ⟨rfl, hcd.symm⟩) _ _
    · rfl
  have hlive : ∀ {i d}, 0 < tokens s (.jobDone j r c ::ₘ R) i d → 0 < s.log.count (.enqueue i) :=
    fun hi => (hC.live hi).1
  constructor
  case first =>
    intro i hpos d
    have hz : load (jobCommitW i) (p : Multiset Stmt) = 0 := by
      rw [hp]
      split <;> simp [jobCommitW]
    rw [load_add, hz, Nat.zero_add] at hpos
    have hd : ¬(j = i ∧ c = d) := by
      rintro ⟨rfl, rfl⟩
      omega
    rw [hsub i d hd]
    exact hI.first i (by rw [load_cons]; omega) d
  case commit =>
    intro i d hpos
    by_cases hd : j = i ∧ c = d
    · obtain ⟨rfl, rfl⟩ := hd
      rw [hself]
      refine hkeep henq (.inr ?_)
      by_contra hn
      rw [if_neg hn] at hp
      subst hp
      simp only [load_add, load_coe_cons, load_coe_nil, commitW] at hpos
      omega
    · have hz : load (commitW i d) (p : Multiset Stmt) = 0 := by
        rw [hp]
        split <;> simp [commitW, hd]
      rw [load_add, hz, Nat.zero_add] at hpos
      have hpos' : 0 < load (commitW i d) (.jobDone j r c ::ₘ R) := by rw [load_cons]; omega
      rw [hsub i d hd]
      exact hkeep (hlive (d := d) (by simp only [tokens]; omega)) (hI.commit i d hpos')
  case start =>
    intro i d n hm
    rw [hlog] at hm
    exact hkeep (hS.live hm).1 (hI.start i d n hm)
  case leaving =>
    intro i d hpos
    rw [hlog] at hpos
    by_cases hd : j = i ∧ c = d
    · obtain ⟨rfl, rfl⟩ := hd
      rw [hself, Nat.add_sub_cancel]
      exact hkeep henq hdue
    · have hz : load (releaseW i d) (p : Multiset Stmt) = 0 := by
        rw [hp]
        split <;> simp [releaseW, hd]
      rw [load_add, hz, Nat.zero_add] at hpos
      have hpos' : 0 < load (releaseW i d) (.jobDone j r c ::ₘ R) +
          s.log.count (.release d i) := by rw [load_cons]; omega
      rw [hsub i d hd]
      exact hkeep (hlive (d := d) (by simp only [tokens]; omega)) (hI.leaving i d hpos')

theorem exec (hQ : Queued P s (a ::ₘ R)) (hC : Counts s (a ::ₘ R)) (hS : Starts P s (a ::ₘ R))
    (hI : Recommits P s (a ::ₘ R)) (h : Rknpu.exec P a x s = some (s', p)) :
    Recommits P s' ((p : Multiset Stmt) + R) := by
  by_cases hd : ∃ j r c, a = .jobDone j r c
  · obtain ⟨j, r, c, rfl⟩ := hd
    exact hI.jobDone hQ hC hS h
  push Not at hd
  have hsub := exec_submitCount hd h
  have hkeep : ∀ {i d n}, 0 < tokens s (a ::ₘ R) i d → (s.jobs i).Due P.config d n →
      (s'.jobs i).Due P.config d n := fun hi => due_exec hQ (hC.live hi).1 h
  constructor
  case first =>
    intro i hpos d
    rw [hsub]
    by_cases hr : a = .runDec i
    · subst hr
      obtain ⟨-, rfl⟩ := runDec_effect h
      split at hpos
      · rename_i hone
        exact (hS.fresh i (by omega) d).1
      · simp only [load_add, load_coe_nil, Nat.zero_add] at hpos
        exact hI.first i (by rw [load_cons]; omega) d
    · refine hI.first i ?_ d
      have hle : load (jobCommitW i) (p : Multiset Stmt) ≤ jobCommitW i a := by
        by_cases hr' : ∃ l, a = .runDec l
        · obtain ⟨l, rfl⟩ := hr'
          have hne : l ≠ i := fun hl => hr (hl ▸ rfl)
          obtain ⟨-, rfl⟩ := runDec_effect h
          split <;> simp [jobCommitW, hne]
        · push Not at hr'
          exact exec_jobCommitW hr' h i
      rw [load_add] at hpos
      rw [load_cons]
      omega
  case commit =>
    intro i d hpos
    rw [hsub]
    by_cases hc : ∃ l, a = .jobCommit l
    · obtain ⟨l, rfl⟩ := hc
      by_cases hl : l = i
      · subst hl
        exact .inl (hI.first l (by rw [load_cons, jobCommitW, if_pos rfl]; omega) d)
      · cases h
        rw [load_add, load_map_subcoreCommit, if_neg hl, Nat.zero_add] at hpos
        have hpos' : 0 < load (commitW i d) (.jobCommit l ::ₘ R) := by rw [load_cons]; omega
        exact hkeep (by simp only [tokens]; omega) (hI.commit i d hpos')
    · push Not at hc
      have hle := exec_commitW hc hd h i d
      rw [load_add] at hpos
      have hpos' : 0 < load (commitW i d) (a ::ₘ R) := by rw [load_cons]; omega
      exact hkeep (by simp only [tokens]; omega) (hI.commit i d hpos')
  case start =>
    intro i d n hm
    by_cases hp : a = .pc .pcOpEn i d n
    · subst hp
      have hpos : 0 < load (commitW i d) (.pc .pcOpEn i d n ::ₘ R) := by
        rw [load_cons, commitW, if_pos ⟨rfl, rfl⟩]
        omega
      have := hI.commit i d hpos
      rw [← hC.pcIndex _ i d n (Multiset.mem_cons_self _ _)] at this
      exact hkeep (by simp only [tokens]; omega) this
    · have hl : a.logs (.start d i n) = false := by
        cases a with
        | pc g l e m => cases g <;> simp_all [Stmt.logs]
        | _ => rfl
      rw [← List.count_pos_iff, exec_count h hl, List.count_pos_iff] at hm
      exact due_exec hQ (hS.live hm).1 h (hI.start i d n hm)
  case leaving =>
    intro i d hpos
    rw [hsub]
    have hw := exec_releaseW hd h i d
    have hold : 0 < load (releaseW i d) (a ::ₘ R) + s.log.count (.release d i) := by
      rw [load_cons]
      rw [load_add] at hpos
      by_cases hr : ∃ r, a = .releaseCore i r d
      · obtain ⟨r, rfl⟩ := hr
        rw [releaseW, if_pos ⟨rfl, rfl⟩]
        omega
      · rw [count_release (not_exists.mp hr) h] at hpos
        omega
    exact hkeep (by simp only [tokens]; omega) (hI.leaving i d hold)

theorem occur {e : Occurrence} (hQ : Queued P s R) (hC : Counts s R) (hS : Starts P s R)
    (hI : Recommits P s R) (h : Rknpu.occur P e s = some (s', p)) :
    Recommits P s' ((p : Multiset Stmt) + R) := by
  have hold : ∀ i, 0 < s.log.count (.enqueue i) → (s'.jobs i).counters = (s.jobs i).counters ∧
      Field.args.get (s'.jobs i) = Field.args.get (s.jobs i) := fun i hi => by
    have hne : ¬(e.spawns ∧ i = s.jobNum) := by
      rintro ⟨-, rfl⟩
      have := hQ.fresh s.jobNum le_rfl
      omega
    refine ⟨?_, occur_get (fun he hn => hne ⟨he, hn⟩) (by simp) h⟩
    by_cases he : e.spawns
    · obtain ⟨rfl, -⟩ | ⟨b, args, -, -, -, hj, -⟩ := spawn_effect he h
      · rfl
      · rw [hj, Function.update_of_ne fun hn => hne ⟨he, hn⟩]
    · exact occur_counters (by simpa using he) h i
  have hsub : ∀ i, 0 < s.log.count (.enqueue i) →
      (s'.jobs i).submitCount = (s.jobs i).submitCount := fun i hi =>
    (counters_fields (hold i hi).1).2.2.2.2
  have hkeep : ∀ {i d n}, 0 < s.log.count (.enqueue i) → (s.jobs i).Due P.config d n →
      (s'.jobs i).Due P.config d n := fun {i d n} hi hd => by
    rwa [Job.Due, chunkCount_congr P.config (hold i hi).2
      (counters_fields (hold i hi).1).2.1 d]
  have hlive : ∀ {i d}, 0 < tokens s R i d → 0 < s.log.count (.enqueue i) :=
    fun hi => (hC.live hi).1
  have hw := fun i d => occur_weights h i d
  constructor
  case first =>
    intro i hpos d
    rw [load_add, (hw i d).2.1, Nat.zero_add] at hpos
    rw [hsub i (hlive (d := d) (by simp only [tokens]; omega))]
    exact hI.first i hpos d
  case commit =>
    intro i d hpos
    rw [load_add, (hw i d).2.2.1, Nat.zero_add] at hpos
    have hi := hlive (i := i) (d := d) (by simp only [tokens]; omega)
    rw [hsub i hi]
    exact hkeep hi (hI.commit i d hpos)
  case start =>
    intro i d n hm
    rw [← List.count_pos_iff, occur_count h (by simp), List.count_pos_iff] at hm
    exact hkeep (hS.live hm).1 (hI.start i d n hm)
  case leaving =>
    intro i d hpos
    rw [load_add, (hw i d).2.2.2, Nat.zero_add, occur_count h (by simp)] at hpos
    have hi := hlive (i := i) (d := d) (by simp only [tokens]; omega)
    rw [hsub i hi]
    exact hkeep hi (hI.leaving i d hpos)

theorem init : Recommits P Dev.init 0 := by
  constructor <;> simp [Dev.init]

theorem reach {G : Guard Dev Stmt Int Occurrence} (hG : Honest P G) {C : Conf Dev Stmt}
    (hC : Reach (driver P) G Dev.init C) : Recommits P C.shared C.pending :=
  hC.invariant_with (fun s B => Queued P s B ∧ Counts s B ∧ Starts P s B) (Recommits P)
    (fun _ hC => ⟨Queued.reach hC, hG.counts hC, Starts.reach hG hC⟩) init
    (fun _ _ _ _ _ _ hJ hI _ h => hI.exec hJ.1 hJ.2.1 hJ.2.2 h)
    (fun _ _ _ _ _ hJ hI _ h => hI.occur hJ.1 hJ.2.1 hJ.2.2 h)

end Recommits

end Rknpu

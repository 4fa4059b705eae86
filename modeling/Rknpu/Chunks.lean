import Rknpu.CountsStep
import Rknpu.Moves

namespace Rknpu

open Interleaving

variable {P : Platform} {s s' : Dev} {B R : Multiset Stmt} {a : Stmt} {x : Int} {p : List Stmt}
  {j : JobId} {c : Nat} {r : Int}

/-- What a core has counted of a job was completed there, and a release comes after the
last chunk. -/
structure Chunks (P : Platform) (s : Dev) (B : Multiset Stmt) : Prop where
  counted : ∀ c j k, k < (s.jobs j).submitCount c → .complete c j k ∈ s.log
  reported : ∀ c j, 0 < load (jobDoneW j c) B →
    .complete c j ((s.jobs j).submitCount c) ∈ s.log
  complete : ∀ c j k, s.engine c = .complete j k → .complete c j k ∈ s.log
  ended : ∀ c j, 0 < load (releaseW j c) B + s.log.count (.release c j) →
    (s.jobs j).chunkCount P.config c ≤ (s.jobs j).submitCount c

theorem chunkCount_congr {b b' : Job} (cfg : Config) (ha : Field.args.get b' = Field.args.get b)
    (hu : b'.useCoreNum = b.useCoreNum) (c : Nat) : b'.chunkCount cfg c = b.chunkCount cfg c := by
  simp only [Field.get, Prod.mk.injEq] at ha
  simp only [Job.chunkCount, Job.getTaskNumber, hu, ha]

theorem exec_chunkCount (hQ : Queued P s (a ::ₘ R)) (hj : 0 < s.log.count (.enqueue j))
    (h : exec P a x s = some (s', p)) (cfg : Config) (c : Nat) :
    (s'.jobs j).chunkCount cfg c = (s.jobs j).chunkCount cfg c :=
  chunkCount_congr cfg (exec_args h j) (hQ.useCoreNum_exec h hj) c

namespace Chunks

theorem enqueued (hC : Counts s B) (h : 0 < load (releaseW j c) B + s.log.count (.release c j)) :
    0 < s.log.count (.enqueue j) :=
  (hC.live (j := j) (c := c) (by simp only [tokens]; omega)).1

theorem jobDone (hC : Counts s (.jobDone j r c ::ₘ R)) (hI : Chunks P s (.jobDone j r c ::ₘ R))
    (h : Rknpu.exec P (.jobDone j r c) x s = some (s', p)) :
    Chunks P s' ((p : Multiset Stmt) + R) := by
  have hone := hC.tokens_le_one j c
  have hlast := hI.reported c j (by rw [load_cons, jobDoneW, if_pos ⟨rfl, rfl⟩]; omega)
  simp only [tokens, Rknpu.reported, load_cons, jobCommitW, commitW, jobDoneW, releaseW, and_self,
    if_true] at hone
  obtain ⟨hs', hp⟩ := jobDone_effect h
  have hcount : ∀ i d, (s'.jobs i).chunkCount P.config d = (s.jobs i).chunkCount P.config d :=
    fun i d => by
      refine chunkCount_congr _ (exec_args h i) ?_ d
      rw [hs']
      exact field_setJob Job.useCoreNum rfl i
  have hlog : s'.log = s.log := by rw [hs']; rfl
  have heng : s'.engine = s.engine := by rw [hs']; rfl
  have hself : (s'.jobs j).submitCount c = (s.jobs j).submitCount c + 1 := by
    rw [hs', setJob_jobs, if_pos rfl]
    simp
  have hsub : ∀ i d, ¬(j = i ∧ c = d) →
      (s'.jobs i).submitCount d = (s.jobs i).submitCount d := fun i d hd => by
    rw [hs', setJob_jobs]
    split
    · rename_i hi
      subst hi
      exact Function.update_of_ne (fun hcd => hd ⟨rfl, hcd.symm⟩) _ _
    · rfl
  constructor
  case counted =>
    intro d i k hk
    rw [hlog]
    by_cases hd : j = i ∧ c = d
    · obtain ⟨rfl, rfl⟩ := hd
      rw [hself] at hk
      rcases Nat.lt_succ_iff_lt_or_eq.mp hk with hk | rfl
      · exact hI.counted c j k hk
      · exact hlast
    · rw [hsub i d hd] at hk
      exact hI.counted d i k hk
  case reported =>
    intro d i hpos
    have hz : load (jobDoneW i d) (p : Multiset Stmt) = 0 := by
      rw [hp]
      split <;> simp [jobDoneW]
    rw [load_add, hz, Nat.zero_add] at hpos
    have hd : ¬(j = i ∧ c = d) := by
      rintro ⟨rfl, rfl⟩
      omega
    rw [hlog, hsub i d hd]
    exact hI.reported d i (by rw [load_cons]; omega)
  case complete => exact fun d i k he => by rw [hlog]; exact hI.complete d i k (heng ▸ he)
  case ended =>
    intro d i hpos
    rw [hcount]
    by_cases hd : j = i ∧ c = d
    · obtain ⟨rfl, rfl⟩ := hd
      rw [hself]
      by_contra hn
      rw [if_pos (by push_cast at hn ⊢; omega)] at hp
      subst hp
      simp only [load_add, load_coe_cons, load_coe_nil, releaseW, hlog] at hpos
      omega
    · have hz : load (releaseW i d) (p : Multiset Stmt) = 0 := by
        rw [hp]
        split <;> simp [releaseW, hd]
      rw [hsub i d hd]
      refine hI.ended d i ?_
      rw [load_add, hz, hlog] at hpos
      rw [load_cons]
      omega

theorem exec (hQ : Queued P s (a ::ₘ R)) (hC : Counts s (a ::ₘ R)) (hI : Chunks P s (a ::ₘ R))
    (hg : Counts.Genuine s R a) (h : Rknpu.exec P a x s = some (s', p)) :
    Chunks P s' ((p : Multiset Stmt) + R) := by
  by_cases hd : ∃ j r c, a = .jobDone j r c
  · obtain ⟨j, r, c, rfl⟩ := hd
    exact hI.jobDone hC h
  push Not at hd
  have hmono : ∀ {ev}, ev ∈ s.log → ev ∈ s'.log := fun hm => (exec_log h).subset hm
  have hsub := exec_submitCount hd h
  constructor
  case counted => exact fun c j k hk => hmono (hI.counted c j k (hsub j ▸ hk))
  case reported =>
    intro c j hpos
    rw [hsub]
    by_cases hi : a = .irqClear c (.done j)
    · exact hmono (hI.complete c j _ (hg c j hi).1)
    refine hmono (hI.reported c j ?_)
    by_cases hi' : ∃ d i, a = .irqClear d (.done i)
    · obtain ⟨d, i, rfl⟩ := hi'
      cases h
      have hne : ¬(i = j ∧ d = c) := fun hn => hi (hn.1 ▸ hn.2 ▸ rfl)
      simpa [jobDoneW, hne] using hpos
    push Not at hi'
    have := exec_jobDoneW hi' h j c
    rw [load_add] at hpos
    rw [load_cons]
    omega
  case complete =>
    intro c j k he
    by_cases hs : ∃ i d n, a = .pc .pcOpEn i d n
    · obtain ⟨i, d, n, rfl⟩ := hs
      obtain ⟨-, -, -, -, heng, -⟩ := pcOpEn_effect h
      rw [heng] at he
      by_cases hc : c = d
      · subst hc
        simp at he
      · rw [Function.update_of_ne hc] at he
        exact hmono (hI.complete c j k he)
    · push Not at hs
      rcases exec_engine hs h c with heng | heng
      · exact hmono (hI.complete c j k (heng ▸ he))
      · rw [heng] at he
        cases he
  case ended =>
    intro c j hpos
    have hw := exec_releaseW hd h j c
    have hold : 0 < load (releaseW j c) (a ::ₘ R) + s.log.count (.release c j) := by
      rw [load_cons]
      rw [load_add] at hpos
      by_cases hr : ∃ r, a = .releaseCore j r c
      · obtain ⟨r, rfl⟩ := hr
        rw [releaseW, if_pos ⟨rfl, rfl⟩]
        omega
      · rw [count_release (not_exists.mp hr) h] at hpos
        omega
    rw [hsub, exec_chunkCount hQ (enqueued hC hold) h]
    exact hI.ended c j hold

theorem occur {e : Occurrence} (hQ : Queued P s R) (hC : Counts s R) (hI : Chunks P s R)
    (h : Rknpu.occur P e s = some (s', p)) : Chunks P s' ((p : Multiset Stmt) + R) := by
  have hmono : ∀ {ev}, ev ∈ s.log → ev ∈ s'.log := fun hm => (occur_log h).subset hm
  have hold : ∀ k, ¬(e.spawns ∧ k = s.jobNum) → (s'.jobs k).counters = (s.jobs k).counters ∧
      Field.args.get (s'.jobs k) = Field.args.get (s.jobs k) := fun k hk => by
    refine ⟨?_, occur_get (fun he hn => hk ⟨he, hn⟩) (by simp) h⟩
    by_cases he : e.spawns
    · obtain ⟨rfl, -⟩ | ⟨b, args, -, -, -, hj, -⟩ := spawn_effect he h
      · rfl
      · rw [hj, Function.update_of_ne fun hn => hk ⟨he, hn⟩]
    · exact occur_counters (by simpa using he) h k
  have hnew : ∀ k, e.spawns ∧ k = s.jobNum → s' = s ∨ ∀ c, (s'.jobs k).submitCount c = 0 := by
    rintro k ⟨he, rfl⟩
    obtain ⟨rfl, -⟩ | ⟨b, args, hb, -, -, hj, -⟩ := spawn_effect he h
    · exact .inl rfl
    · right
      rw [hj, Function.update_self, (counters_fields hb).2.2.2.2]
      exact fun _ => rfl
  have hsub : ∀ k, ¬(e.spawns ∧ k = s.jobNum) →
      (s'.jobs k).submitCount = (s.jobs k).submitCount := fun k hk =>
    (counters_fields (hold k hk).1).2.2.2.2
  have hlive : ∀ k, 0 < s.log.count (.enqueue k) → ¬(e.spawns ∧ k = s.jobNum) := by
    rintro k hk ⟨-, rfl⟩
    have := hQ.fresh s.jobNum le_rfl
    omega
  have hpend : ∀ c j, 0 < load (jobDoneW j c) R → 0 < s.log.count (.enqueue j) := fun c j hj =>
    (hC.live (j := j) (c := c) (by simp only [tokens, Rknpu.reported]; omega)).1
  constructor
  case counted =>
    intro c j k hk
    by_cases hj : e.spawns ∧ j = s.jobNum
    · rcases hnew j hj with rfl | hz
      · exact hI.counted c j k hk
      · rw [hz] at hk
        omega
    · exact hmono (hI.counted c j k (hsub j hj ▸ hk))
  case reported =>
    intro c j hpos
    rw [load_add] at hpos
    by_cases hR : 0 < load (jobDoneW j c) R
    · rw [hsub j (hlive j (hpend c j hR))]
      exact hmono (hI.reported c j hR)
    · rcases occur_report h with ⟨d, i, n, hr, -, hm, hw⟩ | ⟨-, hz⟩
      · have hij : i = j ∧ d = c := by
          by_contra hn
          have := hw c j
          rw [if_neg hn] at this
          omega
        obtain ⟨rfl, rfl⟩ := hij
        have hn := hC.running d i n hr
        have henq := (hC.live (j := i) (c := d) (by
          simp only [tokens, onEngine, hr, ← hn, if_true]
          omega)).1
        rw [hsub i (hlive i henq), ← hn]
        exact hm
      · rw [hz] at hpos
        omega
  case complete =>
    intro c j k he
    rcases occur_report h with ⟨d, i, n, hr, heng, hm, -⟩ | ⟨heng, -⟩
    · rw [heng] at he
      by_cases hc : c = d
      · subst hc
        rw [Function.update_self] at he
        cases he
        exact hm
      · rw [Function.update_of_ne hc] at he
        exact hmono (hI.complete c j k he)
    · exact hmono (hI.complete c j k (heng ▸ he))
  case ended =>
    intro c j hpos
    rw [load_add, (occur_weights h j c).2.2.2, Nat.zero_add, occur_count h (by simp)] at hpos
    have hj := hlive j (enqueued hC hpos)
    rw [hsub j hj, chunkCount_congr P.config (hold j hj).2 (counters_fields (hold j hj).1).2.1 c]
    exact hI.ended c j hpos

theorem init : Chunks P Dev.init 0 := by
  constructor <;> simp [Dev.init, jobAlloc]

theorem reach {G : Guard Dev Stmt Int Occurrence} (hG : Honest P G) {C : Conf Dev Stmt}
    (hC : Reach (driver P) G Dev.init C) : Chunks P C.shared C.pending :=
  hC.invariant_with
    (fun s B => Queued P s B ∧ Counts s B ∧
      ∀ a R x, B = a ::ₘ R → G.run s B a x → Counts.Genuine s R a) (Chunks P)
    (fun _ hC => ⟨Queued.reach hC, hG.counts hC, hG _ hC⟩) init
    (fun _ _ _ _ _ _ hJ hI hg h => hI.exec hJ.1 hJ.2.1 (hJ.2.2 _ _ _ rfl hg) h)
    (fun _ _ _ _ _ hJ hI _ h => hI.occur hJ.1 hJ.2.1 h)

end Chunks

end Rknpu

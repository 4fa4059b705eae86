import Rknpu.Counts

namespace Rknpu

open Interleaving

namespace Counts

variable {P : Platform} {s s' : Dev} {B B' R : Multiset Stmt} {a : Stmt} {x : Int} {p : List Stmt}
  {j : JobId} {c : Nat} {r : Int}

/-- A step that moves tokens only has to account for these. -/
theorem moved (hI : Counts s B) (hlog : ∃ es, s'.log = s.log ++ es ∧ ∀ e ∈ es, e.aside)
    (hmask : ∀ k, s'.mask k = s.mask k)
    (hjob : ∀ k, (s'.jobs k).useCoreNum = (s.jobs k).useCoreNum ∧
      (s'.jobs k).interruptCount = (s.jobs k).interruptCount)
    (hslot : s'.slot = s.slot)
    (hload : ∀ k, load (interruptDecW k) B' = load (interruptDecW k) B)
    (token : ∀ k d, tokens s' B' k d ≤
      if 0 < s.log.count (.enqueue k) ∧ (s'.jobs k).runCount = 0 then 1 else 0)
    (onCore : ∀ k d, 0 < load (commitW k d) B' + onEngine s' k d + load (jobDoneW k d) B' +
      load (releaseW k d) B' → inMask (s.mask k) d)
    (pcIndex : ∀ g k d n, .pc g k d n ∈ B' → n = (s'.jobs k).submitCount d)
    (running : ∀ d k n, s'.engine d = .running k n → n = (s'.jobs k).submitCount d)
    (complete : ∀ d k n, s'.engine d = .complete k n →
      n ≤ (s'.jobs k).submitCount d ∧ 0 < s.log.count (.enqueue k) ∧ inMask (s.mask k) d) :
    Counts s' B' := by
  obtain ⟨es, hl, hes⟩ := hlog
  have hcnt : ∀ e : Event, e.aside = false → s'.log.count e = s.log.count e := fun e he => by
    rw [hl, List.count_append, count_aside hes he, Nat.add_zero]
  have henq : ∀ k, s'.log.count (.enqueue k) = s.log.count (.enqueue k) := fun k => hcnt _ rfl
  constructor
  case initial =>
    intro k hk hm
    rw [(hjob k).1, (hjob k).2]
    exact hI.initial k (henq k ▸ hk) (hmask k ▸ hm)
  case idle => exact fun k hk => by rw [hload]; exact hI.idle k (henq k ▸ hk)
  case held => exact fun k d => by rw [hslot, hcnt _ rfl, hcnt _ rfl]; exact hI.held k d
  case ints =>
    intro k hk
    rw [(hjob k).1, (hjob k).2, hload, hl, releaseCores_append, releaseCores_aside hes,
      List.append_nil]
    exact hI.ints k (henq k ▸ hk)
  case token => exact fun k d => by rw [henq]; exact token k d
  case onCore => exact fun k d h => by rw [hmask]; exact onCore k d h
  case pcIndex => exact pcIndex
  case running => exact running
  case complete => exact fun d k n h => by rw [henq, hmask]; exact complete d k n h

theorem runDec (hQ : Queued P s (.runDec j ::ₘ R)) (hI : Counts s (.runDec j ::ₘ R))
    (h : exec P (.runDec j) x s = some (s', p)) : Counts s' ((p : Multiset Stmt) + R) := by
  have henq : 0 < s.log.count (.enqueue j) := by
    by_contra hz
    have := hQ.idle j (by omega)
    rw [load_cons, runDecW, if_pos rfl] at this
    omega
  have hle := hQ.runDec_le henq
  rw [load_cons, runDecW, if_pos rfl] at hle
  obtain ⟨rfl, hp⟩ := runDec_effect h
  have hjob : ∀ k, (s.setJob j fun b => { b with runCount := b.runCount - 1 }).jobs k =
      { s.jobs k with runCount := (s.jobs k).runCount - if j = k then 1 else 0 } := fun k => by
    by_cases hk : j = k
    · subst hk; simp [Dev.setJob]
    · simp [Dev.setJob, hk, Ne.symm hk]
  have hengine : (s.setJob j fun b => { b with runCount := b.runCount - 1 }).engine =
    s.engine := rfl
  have hslot : (s.setJob j fun b => { b with runCount := b.runCount - 1 }).slot = s.slot := rfl
  have hlog : (s.setJob j fun b => { b with runCount := b.runCount - 1 }).log = s.log := rfl
  generalize (s.setJob j fun b => { b with runCount := b.runCount - 1 }) = s' at *
  have hz : ∀ k d, load (commitW k d) (p : Multiset Stmt) = 0 ∧
      load (jobDoneW k d) (p : Multiset Stmt) = 0 ∧ load (releaseW k d) (p : Multiset Stmt) = 0 ∧
      load (interruptDecW k) (p : Multiset Stmt) = 0 := fun k d => by
    rw [hp]
    split <;> simp [commitW, jobDoneW, releaseW, interruptDecW]
  refine hI.moved ⟨[], by simp [hlog], by simp⟩ (fun k => by rw [Dev.mask, hjob]; rfl)
    (fun k => by simp [hjob]) hslot ?_ ?_ ?_ ?_ ?_ ?_
  · intro k
    rw [load_add, load_cons, (hz k 0).2.2.2]
    rfl
  · intro k d
    have hjc : load (jobCommitW k) (p : Multiset Stmt) =
        if j = k ∧ (s.jobs j).runCount = 1 then 1 else 0 := by
      rw [hp]
      split
      · rename_i h1
        simp [jobCommitW, h1]
      · rename_i h1
        simp [h1]
    have hsame : tokens s' ((p : Multiset Stmt) + R) k d =
        tokens s (.runDec j ::ₘ R) k d +
          if j = k ∧ (s.jobs j).runCount = 1 then 1 else 0 := by
      simp only [tokens, onEngine, reported, load_cons, load_add, hz k d, hjc, hjob, hlog, hengine,
        jobCommitW, commitW, jobDoneW, releaseW, Nat.zero_add]
      omega
    have ht := hI.token k d
    rw [hsame, hjob]
    by_cases hk : j = k
    · subst hk
      rw [if_neg (fun hc => by have := hc.2; omega)] at ht
      by_cases h1 : (s.jobs j).runCount = 1
      · simp [h1, henq]
        omega
      · rw [if_neg (fun hc => h1 hc.2)]
        omega
    · simpa [hk] using ht
  · intro k d hpos
    apply hI.onCore k d
    simpa [hz k d, onEngine, hjob, hengine, commitW, jobDoneW, releaseW] using hpos
  · intro g k d n hm
    rw [hjob]
    refine hI.pcIndex g k d n ?_
    rcases Multiset.mem_add.mp hm with hm | hm
    · rw [hp] at hm
      split at hm <;> simp at hm
    · exact Multiset.mem_cons_of_mem hm
  · intro d k n he
    rw [hjob]
    exact hI.running d k n (hengine ▸ he)
  · intro d k n he
    rw [hjob]
    exact hI.complete d k n (hengine ▸ he)

theorem jobCommit (hI : Counts s (.jobCommit j ::ₘ R))
    (h : exec P (.jobCommit j) x s = some (s', p)) : Counts s' ((p : Multiset Stmt) + R) := by
  cases h
  have hz := fun (f : Stmt → Nat) (hf : ∀ c, f (.subcoreCommit j c) = 0) =>
    load_commits_eq_zero hf (commitCores (s.jobs j).args.coreMask)
  refine hI.moved ⟨[], by simp, by simp⟩ (fun _ => rfl) (fun _ => ⟨rfl, rfl⟩) rfl ?_ ?_ ?_ ?_
    hI.running hI.complete
  · intro k
    rw [load_add, load_cons, hz _ fun _ => rfl]
    rfl
  · intro k d
    have ht := hI.token k d
    have hn : (commitCores (s.jobs j).args.coreMask).count d ≤ 1 :=
      List.nodup_iff_count_le_one.mp (nodup_commitCores _) d
    refine le_trans ?_ ht
    simp only [tokens, reported, load_add, load_cons, load_map_subcoreCommit,
      hz (jobCommitW k) fun _ => rfl, hz (jobDoneW k d) fun _ => rfl, hz (releaseW k d) fun _ => rfl]
    simp only [jobCommitW, commitW, jobDoneW, releaseW]
    split <;> omega
  · intro k d hpos
    by_cases hk : 0 < load (commitW k d) (((commitCores (s.jobs j).args.coreMask).map
        (Stmt.subcoreCommit j ·) : List Stmt) : Multiset Stmt)
    · rw [load_map_subcoreCommit] at hk
      split at hk
      · rename_i hjk
        subst hjk
        exact inMask_of_mem_commitCores (List.count_pos_iff.mp hk)
      · omega
    · apply hI.onCore k d
      simp only [load_add, load_cons, hz (jobDoneW k d) fun _ => rfl,
        hz (releaseW k d) fun _ => rfl] at hpos ⊢
      omega
  · intro g k d n hm
    refine hI.pcIndex g k d n ?_
    rcases Multiset.mem_add.mp hm with hm | hm
    · simp at hm
    · exact Multiset.mem_cons_of_mem hm

theorem commits (hI : Counts s (a ::ₘ R))
    (ha : (a = .subcoreCommit j c ∨ a = .commitPc j c) ∨ ∃ g k, g ≠ .pcOpEn ∧ a = .pc g j c k)
    (h : exec P a x s = some (s', p)) : Counts s' ((p : Multiset Stmt) + R) := by
  obtain ⟨hs, hp⟩ := commit_effect ha h
  have hw : ∀ k, preW k a = 0 ∧ runDecW k a = 0 ∧ interruptDecW k a = 0 ∧ jobCommitW k a = 0 := by
    rcases ha with (rfl | rfl) | ⟨g, k, -, rfl⟩ <;> exact fun _ => ⟨rfl, rfl, rfl, rfl⟩
  have hc : ∀ k d, jobDoneW k d a = 0 ∧ releaseW k d a = 0 ∧
      commitW k d a = if j = k ∧ c = d then 1 else 0 := by
    rcases ha with (rfl | rfl) | ⟨g, k, -, rfl⟩ <;> exact fun _ _ => ⟨rfl, rfl, rfl⟩
  refine hI.calm_run hs ?_ ?_
  · rcases hp with rfl | rfl | rfl | ⟨g, k, g', -, rfl⟩ <;> constructor <;> intros <;>
      simp only [load_singleton, hw, hc] <;>
      simp [preW, runDecW, interruptDecW, jobCommitW, commitW, jobDoneW, releaseW]
  · rcases hp with rfl | rfl | rfl | ⟨g, k, g', rfl, rfl⟩
    · simp
    · simp
    · simp only [List.mem_singleton, Stmt.pc.injEq]
      rintro _ _ _ _ ⟨-, rfl, rfl, rfl⟩
      rfl
    · have hk := hI.pcIndex g j c k (Multiset.mem_cons_self _ _)
      simp only [List.mem_singleton, Stmt.pc.injEq]
      rintro _ _ _ _ ⟨-, rfl, rfl, rfl⟩
      exact hk

theorem pcOpEn {k : Nat} (hI : Counts s (.pc .pcOpEn j c k ::ₘ R))
    (h : exec P (.pc .pcOpEn j c k) x s = some (s', p)) : Counts s' ((p : Multiset Stmt) + R) := by
  have hk := hI.pcIndex _ _ _ _ (Multiset.mem_cons_self _ _)
  obtain ⟨-, hj, -, hslot, he, hlog, rfl⟩ := pcOpEn_effect h
  have hmask : ∀ i, s'.mask i = s.mask i := fun i => by rw [Dev.mask, hj]; rfl
  have hon : ∀ i d, onEngine s' i d + load (commitW i d) R ≤
      onEngine s i d + load (commitW i d) (.pc .pcOpEn j c k ::ₘ R) := fun i d => by
    rw [load_cons, commitW]
    by_cases hd : d = c
    · subst hd
      by_cases hi : j = i
      · subst hi
        simp [onEngine, hj, he, hk]
      · simp [onEngine, hj, he, hi]
    · simp [onEngine, hj, he, hd, Ne.symm hd]
  have hrep : ∀ i d, reported s' R i d ≤ reported s (.pc .pcOpEn j c k ::ₘ R) i d := fun i d => by
    have hz : jobDoneW i d (.pc .pcOpEn j c k) = 0 := rfl
    rw [reported, reported, load_cons, hz, hj, he]
    by_cases hd : d = c
    · subst hd
      simp
    · simp [hd]
  refine hI.moved ⟨_, hlog, by simp [Event.aside]⟩ hmask (fun i => by simp [hj]) hslot ?_ ?_ ?_ ?_
    ?_ ?_
  · intro i
    simp [interruptDecW]
  · intro i d
    have ht := hI.token i d
    have h₁ := hon i d
    have h₂ := hrep i d
    have hl : s'.log.count (.release d i) = s.log.count (.release d i) := by
      simp [hlog, List.count_append]
    simp only [tokens, load_cons, jobCommitW, releaseW, hj, hl, Multiset.coe_nil, zero_add]
      at ht h₁ h₂ ⊢
    omega
  · intro i d hpos
    have h₁ := hon i d
    apply hI.onCore i d
    simp only [load_cons, jobDoneW, releaseW, Multiset.coe_nil, zero_add] at hpos h₁ ⊢
    omega
  · intro g i d n hm
    rw [hj]
    exact hI.pcIndex g i d n (Multiset.mem_cons_of_mem (by simpa using hm))
  · intro d i n hr
    rw [hj]
    rw [he] at hr
    by_cases hd : d = c
    · subst hd
      rw [Function.update_self] at hr
      cases hr
      exact hk
    · rw [Function.update_of_ne hd] at hr
      exact hI.running d i n hr
  · intro d i n hr
    rw [hj]
    rw [he] at hr
    by_cases hd : d = c
    · subst hd
      rw [Function.update_self] at hr
      cases hr
    · rw [Function.update_of_ne hd] at hr
      exact hI.complete d i n hr

theorem jobDone (hI : Counts s (.jobDone j r c ::ₘ R))
    (h : exec P (.jobDone j r c) x s = some (s', p)) : Counts s' ((p : Multiset Stmt) + R) := by
  have hin := hI.onCore j c (by
    simp only [load_cons, jobDoneW, and_self, if_true]
    omega)
  have hone : tokens s (.jobDone j r c ::ₘ R) j c = 1 := by
    have hle := hI.tokens_le_one j c
    simp only [tokens, reported, load_cons, jobDoneW, and_self, if_true] at hle ⊢
    omega
  obtain ⟨hen, hrun⟩ := hI.live (j := j) (c := c) (by omega)
  obtain ⟨rfl, hp⟩ := jobDone_effect h
  set s' := s.setJob j fun b =>
    { b with submitCount := Function.update b.submitCount c (b.submitCount c + 1) } with hs'
  have hjob : ∀ k, s'.jobs k = { s.jobs k with
      submitCount := if j = k then Function.update (s.jobs k).submitCount c
        ((s.jobs k).submitCount c + 1) else (s.jobs k).submitCount } := fun k => by
    by_cases hk : j = k
    · subst hk; simp [hs', Dev.setJob]
    · simp [hs', Dev.setJob, hk, Ne.symm hk]
  have hsub : ∀ k d, ¬(j = k ∧ c = d) → (s'.jobs k).submitCount d = (s.jobs k).submitCount d :=
    fun k d hkd => by
      rw [hjob]
      by_cases hk : j = k
      · have hd : d ≠ c := fun hd => hkd ⟨hk, hd.symm⟩
        simp [hk, hd]
      · simp [hk]
  have hself : (s'.jobs j).submitCount c = (s.jobs j).submitCount c + 1 := by
    simp [hjob]
  have hengine : s'.engine = s.engine := rfl
  have hlog : s'.log = s.log := rfl
  -- the chunk that is counted is the only token, so nothing of this core names the job
  simp only [tokens, reported, onEngine, load_cons, jobDoneW, and_self, if_true, jobCommitW, commitW,
    releaseW, Nat.zero_add] at hone
  have hnone : load (jobCommitW j) R = 0 ∧ load (commitW j c) R = 0 ∧
      s.engine c ≠ .running j ((s.jobs j).submitCount c) ∧ load (jobDoneW j c) R = 0 ∧
      load (releaseW j c) R = 0 ∧ s.log.count (.release c j) = 0 := by
    refine ⟨by omega, by omega, fun hc => ?_, by omega, by omega, by omega⟩
    rw [if_pos hc] at hone
    omega
  have hw : ∀ k d, load (commitW k d) (p : Multiset Stmt) + load (releaseW k d) (p : Multiset Stmt) =
        (if j = k ∧ c = d then 1 else 0) ∧ load (jobCommitW k) (p : Multiset Stmt) = 0 ∧
      load (jobDoneW k d) (p : Multiset Stmt) = 0 ∧
      load (interruptDecW k) (p : Multiset Stmt) = 0 := fun k d => by
    rw [hp]
    split <;> simp [jobCommitW, commitW, releaseW, jobDoneW, interruptDecW]
  have hE : ∀ k, s.engine c = .running j k → False := fun k hk => by
    have := hI.running c j k hk
    exact hnone.2.2.1 (this ▸ hk)
  have hon : onEngine s' j c = 0 := by
    rw [onEngine, if_neg (fun hc => hE _ (hengine ▸ hc))]
  have hrep : ∀ B : Multiset Stmt, reported s' B j c = load (jobDoneW j c) B := fun B => by
    rw [reported, if_neg, Nat.max_eq_left (Nat.zero_le _)]
    intro hc
    have := (hI.complete c j _ (hengine ▸ hc)).1
    omega
  refine hI.moved ⟨[], by simp [hlog], by simp⟩ (fun k => by rw [Dev.mask, hjob]; rfl)
    (fun k => by simp [hjob]) rfl ?_ ?_ ?_ ?_ ?_ ?_
  · intro k
    rw [load_add, load_cons, (hw k 0).2.2.2]
    rfl
  · intro k d
    by_cases hkd : j = k ∧ c = d
    · obtain ⟨rfl, rfl⟩ := hkd
      have h₁ := hw j c
      rw [if_pos ⟨rfl, rfl⟩] at h₁
      rw [if_pos ⟨hen, by rw [hjob]; exact hrun⟩]
      simp only [tokens, hon, hrep, load_add, hlog]
      omega
    · have ht := hI.token k d
      have h₁ := hw k d
      rw [if_neg hkd] at h₁
      have hr : (s'.jobs k).runCount = (s.jobs k).runCount := by rw [hjob]
      simp only [tokens, reported, onEngine, load_add, load_cons, hlog, hengine, hsub k d hkd, hr,
        jobDoneW, if_neg hkd, jobCommitW, commitW, releaseW] at ht ⊢
      omega
  · intro k d hpos
    by_cases hkd : j = k ∧ c = d
    · obtain ⟨rfl, rfl⟩ := hkd
      exact hin
    · have h₁ := hw k d
      rw [if_neg hkd] at h₁
      apply hI.onCore k d
      simp only [onEngine, load_add, load_cons, hengine, hsub k d hkd] at hpos ⊢
      omega
  · intro g k d n hm
    rcases Multiset.mem_add.mp hm with hm | hm
    · rw [hp] at hm
      split at hm <;> simp at hm
    · have hkd : ¬(j = k ∧ c = d) := by
        rintro ⟨rfl, rfl⟩
        have := le_load (commitW j c) hm
        simp only [commitW, and_self, if_true] at this
        omega
      rw [hsub k d hkd]
      exact hI.pcIndex g k d n (Multiset.mem_cons_of_mem hm)
  · intro d k n he
    have hkd : ¬(j = k ∧ c = d) := by
      rintro ⟨rfl, rfl⟩
      exact hE n he
    rw [hsub k d hkd]
    exact hI.running d k n he
  · intro d k n he
    obtain ⟨h₁, h₂⟩ := hI.complete d k n he
    refine ⟨?_, h₂⟩
    by_cases hkd : j = k ∧ c = d
    · obtain ⟨rfl, rfl⟩ := hkd
      omega
    · rwa [hsub k d hkd]

theorem releaseCore (hQ : Queued P s (.releaseCore j r c ::ₘ R))
    (hI : Counts s (.releaseCore j r c ::ₘ R))
    (h : exec P (.releaseCore j r c) x s = some (s', p)) :
    Counts s' ((p : Multiset Stmt) + R) := by
  have hone := hI.tokens_le_one j c
  have hin := hI.onCore j c (by
    simp only [load_cons, releaseW, and_self, if_true]
    omega)
  obtain ⟨hen, hrun⟩ := hI.live (j := j) (c := c) (by
    simp only [tokens, load_cons, releaseW, and_self, if_true]
    omega)
  have hpicked := hQ.all_picked hen hrun hin
  simp only [tokens, load_cons, releaseW, and_self, if_true] at hone
  obtain ⟨hs, rfl, -, hslot, hlog⟩ := releaseCore_effect h
  have hjob := hs.fields
  have hcnt : ∀ e : Event, e ≠ .release c j → s'.log.count e = s.log.count e := fun e he => by
    rw [hlog, List.count_append, List.count_singleton, beq_eq_false_iff_ne.mpr he.symm]
    simp
  have hrel : s'.log.count (.release c j) = s.log.count (.release c j) + 1 := by simp [hlog]
  have henq : ∀ k, s'.log.count (.enqueue k) = s.log.count (.enqueue k) := fun k =>
    hcnt _ (by simp)
  have hw : ∀ k d, load (jobCommitW k) (([.interruptDec j r c, .jobNext c] : List Stmt) + R) =
        load (jobCommitW k) (.releaseCore j r c ::ₘ R) ∧
      load (commitW k d) (([.interruptDec j r c, .jobNext c] : List Stmt) + R) =
        load (commitW k d) (.releaseCore j r c ::ₘ R) ∧
      load (jobDoneW k d) (([.interruptDec j r c, .jobNext c] : List Stmt) + R) =
        load (jobDoneW k d) (.releaseCore j r c ::ₘ R) ∧
      load (releaseW k d) (([.interruptDec j r c, .jobNext c] : List Stmt) + R) +
        (if j = k ∧ c = d then 1 else 0) = load (releaseW k d) (.releaseCore j r c ::ₘ R) ∧
      load (interruptDecW k) (([.interruptDec j r c, .jobNext c] : List Stmt) + R) =
        load (interruptDecW k) (.releaseCore j r c ::ₘ R) + if j = k then 1 else 0 := fun k d => by
    refine ⟨?_, ?_, ?_, ?_, ?_⟩ <;>
      simp [jobCommitW, commitW, jobDoneW, releaseW, interruptDecW, add_comm]
  have hon : ∀ k d, onEngine s' k d = onEngine s k d := fun k d => by
    rw [onEngine, onEngine, hs.engine, (hjob k).2.2.2.2]
  constructor
  case initial =>
    intro k hk hm
    rw [(hjob k).2.1, (hjob k).2.2.2.1]
    exact hI.initial k (henq k ▸ hk) ((hjob k).1 ▸ hm)
  case idle =>
    intro k hk
    rw [henq] at hk
    have h := hI.idle k hk
    rw [(hw k 0).2.2.2.2, h, if_neg (by rintro rfl; omega)]
  case held =>
    intro k d
    have h := hI.held k d
    rw [hslot, hcnt (.pickup d k) (by simp)]
    by_cases hd : d = c
    · subst hd
      rw [Function.update_self, if_neg (by simp)]
      by_cases hk : k = j
      · subst hk
        omega
      · rw [hcnt (.release d k) (by simp [hk])]
        omega
    · rw [Function.update_of_ne hd, hcnt (.release d k) (by simp [hd])]
      exact h
  case ints =>
    intro k hk
    have h := hI.ints k (henq k ▸ hk)
    have hl : (releaseCores [.release c j] k).length = if j = k then 1 else 0 := by
      by_cases hkj : j = k <;> simp [releaseCores, hkj]
    rw [(hjob k).2.1, (hjob k).2.2.2.1, hlog, releaseCores_append, List.length_append, hl,
      (hw k 0).2.2.2.2]
    push_cast
    omega
  case token =>
    intro k d
    have ht := hI.token k d
    have h₁ := hw k d
    rw [henq, (hjob k).2.2.1]
    refine le_trans (le_of_eq ?_) ht
    simp only [tokens, reported, hon, h₁, hs.engine, (hjob k).2.2.2.2]
    by_cases hkd : j = k ∧ c = d
    · obtain ⟨rfl, rfl⟩ := hkd
      have h₂ := h₁.2.2.2.1
      rw [if_pos ⟨rfl, rfl⟩] at h₂
      omega
    · have h₂ := h₁.2.2.2.1
      rw [if_neg hkd] at h₂
      rw [hcnt (.release d k) (by rintro ⟨⟩; exact hkd ⟨rfl, rfl⟩)]
      omega
  case onCore =>
    intro k d hpos
    have h₁ := hw k d
    rw [(hjob k).1]
    apply hI.onCore k d
    rw [hon, h₁.2.1, h₁.2.2.1] at hpos
    omega
  case pcIndex =>
    intro g k d n hm
    rw [(hjob k).2.2.2.2]
    exact hI.pcIndex g k d n (Multiset.mem_cons_of_mem (by simpa using hm))
  case running =>
    intro d k n he
    rw [(hjob k).2.2.2.2]
    exact hI.running d k n (hs.engine ▸ he)
  case complete =>
    intro d k n he
    rw [(hjob k).1, (hjob k).2.2.2.2, henq]
    exact hI.complete d k n (hs.engine ▸ he)

theorem interruptDec (hI : Counts s (.interruptDec j r c ::ₘ R))
    (h : exec P (.interruptDec j r c) x s = some (s', p)) :
    Counts s' ((p : Multiset Stmt) + R) := by
  have hen : 0 < s.log.count (.enqueue j) := by
    by_contra hz
    have := hI.idle j (by omega)
    rw [load_cons, interruptDecW, if_pos rfl] at this
    omega
  obtain ⟨rfl, hp⟩ := interruptDec_effect h
  have hjob : ∀ k, (s.setJob j fun b => { b with interruptCount := b.interruptCount - 1 }).jobs k =
      { s.jobs k with interruptCount := (s.jobs k).interruptCount - if j = k then 1 else 0 } :=
    fun k => by
      by_cases hk : j = k
      · subst hk; simp [Dev.setJob]
      · simp [Dev.setJob, hk, Ne.symm hk]
  have hengine : (s.setJob j fun b => { b with interruptCount := b.interruptCount - 1 }).engine =
    s.engine := rfl
  have hslot : (s.setJob j fun b => { b with interruptCount := b.interruptCount - 1 }).slot =
    s.slot := rfl
  have hlog : (s.setJob j fun b => { b with interruptCount := b.interruptCount - 1 }).log =
    s.log := rfl
  generalize (s.setJob j fun b => { b with interruptCount := b.interruptCount - 1 }) = s' at *
  have hlight : ∀ b ∈ (p : Multiset Stmt), b.light := by
    rw [hp]
    split <;> simp [Stmt.light]
  have hz : ∀ k d, load (jobCommitW k) (p : Multiset Stmt) = 0 ∧
      load (commitW k d) (p : Multiset Stmt) = 0 ∧ load (jobDoneW k d) (p : Multiset Stmt) = 0 ∧
      load (releaseW k d) (p : Multiset Stmt) = 0 ∧ load (interruptDecW k) (p : Multiset Stmt) = 0 :=
    fun k d => ⟨load_light (fun _ h => (light_weights h k d).2.1) hlight,
      load_light (fun _ h => (light_weights h k d).2.2.1) hlight,
      load_light (fun _ h => (light_weights h k d).2.2.2.1) hlight,
      load_light (fun _ h => (light_weights h k d).2.2.2.2) hlight,
      load_light (fun _ h => (light_weights h k d).1) hlight⟩
  have hmask : ∀ k, s'.mask k = s.mask k := fun k => by rw [Dev.mask, hjob]; rfl
  constructor
  case initial =>
    intro k hk hm
    rw [hlog] at hk
    have h := hI.initial k hk (hmask k ▸ hm)
    rw [hjob, if_neg (by rintro rfl; omega)]
    simpa using h
  case idle =>
    intro k hk
    have h := hI.idle k (hlog ▸ hk)
    rw [load_cons] at h
    rw [load_add, (hz k 0).2.2.2.2]
    omega
  case held => exact fun k d => by rw [hlog, hslot]; exact hI.held k d
  case ints =>
    intro k hk
    have h := hI.ints k (hlog ▸ hk)
    rw [load_cons, interruptDecW] at h
    rw [load_add, (hz k 0).2.2.2.2, hjob, hlog]
    split at h
    · rename_i hjk
      rw [if_pos hjk]
      push_cast at h
      simp only
      omega
    · rename_i hjk
      rw [if_neg hjk]
      simp only
      omega
  case token =>
    intro k d
    have h := hI.token k d
    rw [hlog, hjob]
    simpa [tokens, reported, onEngine, hz k d, hjob, hengine, hlog, jobCommitW, commitW, jobDoneW,
      releaseW] using h
  case onCore =>
    intro k d hpos
    rw [hmask]
    apply hI.onCore k d
    simpa [hz k d, onEngine, hjob, hengine, commitW, jobDoneW, releaseW] using hpos
  case pcIndex =>
    intro g k d n hm
    rw [hjob]
    refine hI.pcIndex g k d n ?_
    rcases Multiset.mem_add.mp hm with hm | hm
    · exact absurd (hlight _ hm) (by simp [Stmt.light])
    · exact Multiset.mem_cons_of_mem hm
  case running =>
    intro d k n he
    rw [hjob]
    exact hI.running d k n (hengine ▸ he)
  case complete =>
    intro d k n he
    rw [hmask, hjob, hlog]
    exact hI.complete d k n (hengine ▸ he)

theorem doneCall (hI : Counts s B) (hlog : ∃ es, s'.log = s.log ++ es ∧ ∀ e ∈ es, e.aside)
    (hjob : ∀ k, (s'.jobs k).counters = (s.jobs k).counters) (hslot : s'.slot = s.slot) {n : Nat}
    (hlast : s.engine c = .running j n ∨
      s.engine c = .complete j ((s.jobs j).submitCount c))
    (hengine : s'.engine = Function.update s.engine c (.complete j ((s.jobs j).submitCount c)))
    (hB : ∀ k, load (interruptDecW k) B' = load (interruptDecW k) B ∧
      load (jobCommitW k) B' ≤ load (jobCommitW k) B)
    (hB' : ∀ k d, load (commitW k d) B' ≤ load (commitW k d) B ∧
      load (releaseW k d) B' ≤ load (releaseW k d) B ∧
      load (jobDoneW k d) B' ≤ load (jobDoneW k d) B + if j = k ∧ c = d then 1 else 0)
    (hfirst : load (jobDoneW j c) B = 0)
    (pcIndex : ∀ g k d n, .pc g k d n ∈ B' → .pc g k d n ∈ B) : Counts s' B' := by
  simp only [Job.counters, Prod.mk.injEq] at hjob
  have hk : ∀ n, s.engine c = .running j n → n = (s.jobs j).submitCount c := fun n h =>
    hI.running c j n h
  have hon : onEngine s j c + (if s.engine c = .complete j ((s.jobs j).submitCount c) then 1 else 0) =
      1 := by
    rcases hlast with he | he
    · simp [onEngine, he, hk n he]
    · simp [onEngine, he]
  have hlive : 0 < tokens s B j c := by
    simp only [tokens, reported]
    omega
  have hin : inMask (s.mask j) c := by
    rcases hlast with he | he
    · have hpos : onEngine s j c = 1 := by simp [onEngine, he, hk n he]
      exact hI.onCore j c (by omega)
    · exact (hI.complete c j _ he).2.2
  refine hI.moved hlog (fun k => (hjob k).1)
    (fun k => ⟨(hjob k).2.1, (hjob k).2.2.2.1⟩) hslot (fun k => (hB k).1) ?_ ?_ ?_ ?_ ?_
  · intro k d
    obtain ⟨es, hl, hes⟩ := hlog
    have ht := hI.token k d
    have hr : s'.log.count (.release d k) = s.log.count (.release d k) := by
      rw [hl, List.count_append, count_aside hes rfl, Nat.add_zero]
    have h₁ := hB' k d
    have h₂ := hB k
    rw [(hjob k).2.2.1]
    refine le_trans ?_ ht
    by_cases hd : d = c
    · subst hd
      by_cases hkj : j = k
      · subst hkj
        simp only [tokens, reported, onEngine, (hjob j).2.2.2.2, hengine, Function.update_self, hr,
          reduceCtorEq, if_true, if_false, and_self] at h₁ hon ⊢
        omega
      · simp only [tokens, reported, onEngine, (hjob k).2.2.2.2, hengine, Function.update_self, hr,
          reduceCtorEq, if_false, hkj, false_and, Engine.complete.injEq] at h₁ ⊢
        omega
    · simp only [tokens, reported, onEngine, (hjob k).2.2.2.2, hengine, Function.update_of_ne hd, hr,
        Ne.symm hd, and_false, if_false] at h₁ ⊢
      omega
  · intro k d hpos
    have h₁ := hB' k d
    by_cases hkd : j = k ∧ c = d
    · obtain ⟨rfl, rfl⟩ := hkd
      exact hin
    · rw [if_neg hkd] at h₁
      apply hI.onCore k d
      have hle : onEngine s' k d ≤ onEngine s k d := by
        rw [onEngine, onEngine, hengine, (hjob k).2.2.2.2]
        by_cases hd : d = c
        · subst hd; simp
        · rw [Function.update_of_ne hd]
      omega
  · intro g k d m hm
    rw [(hjob k).2.2.2.2]
    exact hI.pcIndex g k d m (pcIndex g k d m hm)
  · intro d k m he
    rw [(hjob k).2.2.2.2]
    by_cases hd : d = c
    · subst hd
      rw [hengine, Function.update_self] at he
      cases he
    · rw [hengine, Function.update_of_ne hd] at he
      exact hI.running d k m he
  · intro d k m he
    rw [(hjob k).2.2.2.2]
    by_cases hd : d = c
    · subst hd
      rw [hengine, Function.update_self] at he
      cases he
      exact ⟨le_rfl, (hI.live hlive).1, hin⟩
    · rw [hengine, Function.update_of_ne hd] at he
      exact hI.complete d k m he

theorem irqDone (hI : Counts s (.irqClear c (.done j) ::ₘ R))
    (hg : s.engine c = .complete j ((s.jobs j).submitCount c) ∧ load (jobDoneW j c) R = 0)
    (h : exec P (.irqClear c (.done j)) x s = some (s', p)) :
    Counts s' ((p : Multiset Stmt) + R) := by
  cases h
  refine hI.doneCall (j := j) (c := c) (n := 0) ⟨[], by simp [Dev.writeIntClear, Dev.write], by simp⟩
    (fun _ => rfl) rfl (.inr hg.1) ?_ ?_ ?_ ?_ ?_
  · rw [← hg.1, Function.update_eq_self]
    rfl
  · intro k
    simp [interruptDecW, jobCommitW]
  · intro k d
    simp [commitW, releaseW, jobDoneW, add_comm]
  · simpa [jobDoneW] using hg.2
  · intro g k d n hm
    simpa using hm

theorem completion (hI : Counts s R) (h : occur P (.completion c) s = some (s', p)) :
    Counts s' ((p : Multiset Stmt) + R) := by
  obtain ⟨j, n, he, -, rfl, -, hjob, -, hslot, hengine, hlog⟩ := completion_effect h
  have hn := hI.running c j n he
  have hone := hI.tokens_le_one j c
  simp only [tokens, reported, onEngine, he, ← hn, if_true] at hone
  refine hI.doneCall (j := j) (c := c) ⟨_, hlog, by simp [Event.aside]⟩ hjob hslot (.inl he) ?_ ?_
    ?_ ?_ ?_
  · rw [hengine, hn]
  · intro k
    simp [interruptDecW, jobCommitW]
  · intro k d
    simp [commitW, releaseW, jobDoneW, add_comm]
  · omega
  · intro g k d n hm
    simpa using hm

theorem hwComplete {bits : Word} (hI : Counts s R)
    (h : occur P (.hwComplete c bits) s = some (s', p)) : Counts s' ((p : Multiset Stmt) + R) := by
  obtain ⟨j, n, he, rfl, -, hjob, -, hslot, hengine, hlog⟩ := hwComplete_effect h
  have hn := hI.running c j n he
  have hone := hI.tokens_le_one j c
  simp only [tokens, reported, onEngine, he, ← hn, if_true] at hone
  refine hI.doneCall (j := j) (c := c) ⟨_, hlog, by simp [Event.aside]⟩ (fun k => by rw [hjob])
    hslot (.inl he) ?_ ?_ ?_ ?_ ?_
  · rw [hengine, hn]
  · simp
  · simp
  · omega
  · simp

theorem spawn {e : Occurrence} (hQ : Queued P s R) (hI : Counts s R) (he : e.spawns)
    (h : occur P e s = some (s', p)) : Counts s' ((p : Multiset Stmt) + R) := by
  obtain ⟨rfl, rfl⟩ | ⟨b, args, hb, hp, -, hj, -, hs, heng, hl⟩ := spawn_effect he h
  · simpa using hI
  have hw : ∀ k d, load (interruptDecW k) (p : Multiset Stmt) = 0 ∧
      load (jobCommitW k) (p : Multiset Stmt) = 0 ∧ load (commitW k d) (p : Multiset Stmt) = 0 ∧
      load (jobDoneW k d) (p : Multiset Stmt) = 0 ∧
      load (releaseW k d) (p : Multiset Stmt) = 0 := by
    rcases hp with rfl | rfl <;>
      simp [interruptDecW, jobCommitW, commitW, jobDoneW, releaseW]
  have hold : ∀ k, k ≠ s.jobNum → s'.jobs k = s.jobs k := fun k hk => by simp [hj, hk]
  have hnew : s'.jobs s.jobNum = b := by simp [hj]
  simp only [Job.counters, Prod.mk.injEq] at hb
  have hzero := hQ.fresh s.jobNum le_rfl
  have hsame : ∀ k, k ≠ s.jobNum → ∀ d, tokens s' ((p : Multiset Stmt) + R) k d = tokens s R k d :=
    fun k hk d => by
      simp [tokens, onEngine, reported, hold k hk, heng, hl, hw k d]
  have hout : ∀ d, tokens s R s.jobNum d = 0 := hI.untouched (by omega)
  have hidle : ∀ d n, s.engine d ≠ .running s.jobNum n ∧ s.engine d ≠ .complete s.jobNum n := by
    intro d n
    have ht := hout d
    simp only [tokens, onEngine, reported] at ht
    refine ⟨fun hc => ?_, fun hc => ?_⟩
    · have := hI.running d _ n hc
      rw [if_pos (this ▸ hc)] at ht
      omega
    · have := (hI.complete d _ n hc).2.1
      omega
  constructor
  case initial =>
    intro k hk hm
    by_cases hkn : k = s.jobNum
    · subst hkn
      rw [hnew, hb.2.1, hb.2.2.2.1]
      rfl
    · rw [Dev.mask, hold k hkn] at hm
      rw [hold k hkn]
      exact hI.initial k (hl ▸ hk) hm
  case idle =>
    intro k hk
    rw [load_add, (hw k 0).1, Nat.zero_add]
    exact hI.idle k (hl ▸ hk)
  case held => exact fun k d => by rw [hl, hs]; exact hI.held k d
  case ints =>
    intro k hk
    rw [hl] at hk
    rw [hold k (by rintro rfl; omega), load_add, (hw k 0).1, Nat.zero_add, hl]
    exact hI.ints k hk
  case token =>
    intro k d
    by_cases hkn : k = s.jobNum
    · subst hkn
      have ht := hout d
      refine le_trans (le_of_eq ?_) (Nat.zero_le _)
      simp only [tokens, onEngine, reported, load_add, hw s.jobNum d, heng, hl,
        (hidle d _).1, (hidle d _).2, if_false] at ht ⊢
      omega
    · rw [hsame k hkn, hl, hold k hkn]
      exact hI.token k d
  case onCore =>
    intro k d hpos
    by_cases hkn : k = s.jobNum
    · subst hkn
      have ht := hout d
      simp only [tokens, onEngine, reported, load_add, hw s.jobNum d, heng,
        (hidle d _).1, (hidle d _).2, if_false] at ht hpos
      omega
    · rw [Dev.mask, hold k hkn]
      apply hI.onCore k d
      simpa [onEngine, hold k hkn, heng, hw k d] using hpos
  case pcIndex =>
    intro g k d n hm
    have hm : Stmt.pc g k d n ∈ R := by rcases hp with rfl | rfl <;> simpa using hm
    have hkn : k ≠ s.jobNum := by
      rintro rfl
      have ht := hout d
      have := le_load (commitW s.jobNum d) hm
      simp only [commitW, and_self, if_true] at this
      simp only [tokens] at ht
      omega
    rw [hold k hkn]
    exact hI.pcIndex g k d n hm
  case running =>
    intro d k n hr
    rw [heng] at hr
    rw [hold k (by rintro rfl; exact (hidle d n).1 hr)]
    exact hI.running d k n hr
  case complete =>
    intro d k n hr
    rw [heng] at hr
    have hkn : k ≠ s.jobNum := by rintro rfl; exact (hidle d n).2 hr
    rw [Dev.mask, hold k hkn, hl]
    exact hI.complete d k n hr

/-- `rknpu_irq_handler` calls `rknpu_job_done` only for a completed chunk that no other
call counts. -/
def Genuine (s : Dev) (R : Multiset Stmt) (a : Stmt) : Prop :=
  ∀ c j, a = .irqClear c (.done j) →
    s.engine c = .complete j ((s.jobs j).submitCount c) ∧ load (jobDoneW j c) R = 0

theorem exec (hQ : Queued P s (a ::ₘ R)) (hI : Counts s (a ::ₘ R)) (hg : Genuine s R a)
    (h : exec P a x s = some (s', p)) : Counts s' ((p : Multiset Stmt) + R) := by
  by_cases ha : a.plain
  · obtain ⟨hs, hl⟩ := exec_calm ha h
    exact hI.light_run hs (light_of_plain ha) hl
  cases a with
  | fenceIn j | fenceWait j _ | fenceOut j | fenceFd j | dispatch j =>
    exact hI.submits (j := j) (by simp [Stmt.submits]) h
  | jobSchedule j => exact hI.jobSchedule h
  | selectCore j i t ci => exact hI.selectCore hQ h
  | domainGet j => exact hI.domainGet h
  | enqueue j => exact hI.enqueue hQ h
  | pickUp c => exact hI.pickUp h
  | runDec j => exact hI.runDec hQ h
  | jobCommit j => exact hI.jobCommit h
  | subcoreCommit j c => exact hI.commits (.inl (.inl rfl)) h
  | commitPc j c => exact hI.commits (.inl (.inr rfl)) h
  | pc g j c k =>
    by_cases hg : g = .pcOpEn
    · subst hg
      exact hI.pcOpEn h
    · exact hI.commits (.inr ⟨g, k, hg, rfl⟩) h
  | jobDone j r c => exact hI.jobDone h
  | releaseCore j r c => exact hI.releaseCore hQ h
  | interruptDec j r c => exact hI.interruptDec h
  | irqClear c e =>
    cases e with
    | done j => exact hI.irqDone (hg c j rfl) h
    | _ => exact absurd rfl ha
  | _ => exact absurd rfl ha

theorem occur {e : Occurrence} (hQ : Queued P s R) (hI : Counts s R)
    (h : occur P e s = some (s', p)) : Counts s' ((p : Multiset Stmt) + R) := by
  by_cases he : e.spawns
  · exact hI.spawn hQ he h
  by_cases hc : ∃ c, e = .completion c
  · obtain ⟨c, rfl⟩ := hc
    exact hI.completion h
  by_cases hw : ∃ c bits, e = .hwComplete c bits
  · obtain ⟨c, bits, rfl⟩ := hw
    exact hI.hwComplete h
  push Not at hc hw
  obtain ⟨hs, hl⟩ := occur_calm (by simpa using he) hc hw h
  exact hI.light_env hs hl

theorem init : Counts Dev.init 0 := by
  constructor <;>
    simp [Dev.init, Dev.mask, jobAlloc, emptySubmit, tokens, onEngine, reported]

end Counts

/-- In that world no completion is invented. -/
def Honest (P : Platform) (G : Guard Dev Stmt Int Occurrence) : Prop :=
  ∀ C, Reach (driver P) G Dev.init C → ∀ a R x, C.pending = a ::ₘ R →
    G.run C.shared C.pending a x → Counts.Genuine C.shared R a

theorem honest_of_genuine {P : Platform} {G : Guard Dev Stmt Int Occurrence}
    (hG : ∀ s B a x, G.run s B a x → Counts.Genuine s (B.erase a) a) : Honest P G := by
  intro C _ a R x hB h
  have := hG _ _ _ _ h
  rwa [hB, Multiset.erase_cons_head] at this

theorem Honest.counts {P : Platform} {G : Guard Dev Stmt Int Occurrence} (hG : Honest P G)
    {C : Conf Dev Stmt} (hC : Reach (driver P) G Dev.init C) : Counts C.shared C.pending :=
  hC.invariant_with
    (fun s B => Queued P s B ∧ ∀ a R x, B = a ::ₘ R → G.run s B a x → Counts.Genuine s R a) Counts
    (fun _ hC => ⟨Queued.reach hC, hG _ hC⟩) Counts.init
    (fun _ _ _ _ _ _ hJ hI hg h => hI.exec hJ.1 (hJ.2 _ _ _ rfl hg) h)
    (fun _ _ _ _ _ hJ hI _ h => hI.occur hJ.1 h)

end Rknpu

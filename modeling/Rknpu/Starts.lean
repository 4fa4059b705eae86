import Rknpu.CountsStep
import Rknpu.Moves

namespace Rknpu

open Interleaving

/-- In that history core `c` has picked job `j` up and not released it. -/
def Held (l : List Event) (c : Nat) (j : JobId) : Prop := .pickup c j ∈ l ∧ .release c j ∉ l

def Gathered (P : Platform) (s : Dev) (l : List Event) (j : JobId) : Prop :=
  ∃ l₀, l₀ <+: l ∧ ∀ c, s.needs P c j → Held l₀ c j

/-- Every core is started on the chunks of a job in turn, the first of them once all
cores of the job hold it. -/
structure Starts (P : Platform) (s : Dev) (B : Multiset Stmt) : Prop where
  fresh : ∀ j, ¬(0 < s.log.count (.enqueue j) ∧ (s.jobs j).runCount = 0) → ∀ c,
    (s.jobs j).submitCount c = 0 ∧ started s.log c j = []
  before : ∀ j c, 0 < load (jobCommitW j) B + load (commitW j c) B →
    started s.log c j = List.range ((s.jobs j).submitCount c)
  after : ∀ j c, 0 < onEngine s j c + reported s B j c →
    started s.log c j = List.range ((s.jobs j).submitCount c + 1)
  always : ∀ j c, started s.log c j = List.range ((s.jobs j).submitCount c) ∨
    started s.log c j = List.range ((s.jobs j).submitCount c + 1)
  leaving : ∀ j c, 0 < load (releaseW j c) B + s.log.count (.release c j) →
    0 < (s.jobs j).submitCount c
  held : ∀ j, 0 < s.log.count (.enqueue j) → (s.jobs j).runCount = 0 → Gathered P s s.log j
  ordered : ∀ l c j k, l ++ [.start c j k] <+: s.log → Gathered P s l j

variable {P : Platform} {s s' : Dev} {B B' R : Multiset Stmt} {a : Stmt} {x : Int} {p : List Stmt}
  {j : JobId} {c : Nat} {r : Int}

theorem Gathered.mono {l l' : List Event} (h : Gathered P s l j) (hl : l <+: l')
    (hm : s'.mask j = s.mask j) : Gathered P s' l' j := by
  obtain ⟨l₀, h₀, hc⟩ := h
  refine ⟨l₀, h₀.trans hl, fun c hn => hc c ?_⟩
  rwa [Dev.needs, ← hm]

theorem started_append (l l' : List Event) (c : Nat) (j : JobId) :
    started (l ++ l') c j = started l c j ++ started l' c j := List.filterMap_append

theorem started_none {es : List Event} (h : ∀ c j k, .start c j k ∉ es) (c : Nat) (j : JobId) :
    started es c j = [] := by
  rw [started, List.filterMap_eq_nil_iff]
  intro e he
  cases e with
  | start d i k => exact absurd he (h d i k)
  | _ => rfl

theorem prefix_of_concat {l l₁ es : List Event} {e : Event} (h : l ++ [e] <+: l₁ ++ es)
    (he : e ∉ es) : l ++ [e] <+: l₁ := by
  rcases List.prefix_or_prefix_of_prefix h (List.prefix_append l₁ es) with h' | ⟨m, hm⟩
  · exact h'
  · rw [← hm, List.prefix_append_right_inj] at h
    rcases List.eq_nil_or_concat m with rfl | ⟨m', b, rfl⟩
    · rw [List.append_nil] at hm
      exact hm ▸ List.prefix_rfl
    · rw [List.concat_eq_append, ← List.append_assoc] at hm
      have hb : b = e := by simpa using (List.append_inj' hm rfl).2
      exact absurd (h.subset (by simp [hb])) he

theorem count_started (l : List Event) (k : Nat) :
    (started l c j).count k = l.count (.start c j k) :=
  count_filterMap_event l fun e => by cases e <;> simp [and_assoc]

theorem mem_started {l : List Event} {k : Nat} : k ∈ started l c j ↔ .start c j k ∈ l := by
  rw [← List.count_pos_iff, count_started, List.count_pos_iff]

namespace Starts

theorem live (hI : Starts P s B) {k : Nat} (h : .start c j k ∈ s.log) :
    0 < s.log.count (.enqueue j) ∧ (s.jobs j).runCount = 0 := by
  by_contra hl
  have := mem_started.mpr h
  rw [(hI.fresh j hl c).2] at this
  cases this

theorem step (B' : Multiset Stmt) (hI : Starts P s B)
    (hlog : ∃ es, s'.log = s.log ++ es ∧ ∀ c j k, .start c j k ∉ es)
    (hsub : ∀ k, (s'.jobs k).submitCount = (s.jobs k).submitCount)
    (hmask : ∀ k, 0 < s.log.count (.enqueue k) → s'.mask k = s.mask k)
    (hrun : ∀ k, 0 < s.log.count (.enqueue k) → (s.jobs k).runCount = 0 → (s'.jobs k).runCount = 0)
    (hheld : ∀ k, 0 < s'.log.count (.enqueue k) → (s'.jobs k).runCount = 0 →
      (0 < s.log.count (.enqueue k) ∧ (s.jobs k).runCount = 0) ∨ Gathered P s' s'.log k)
    (hbefore : ∀ k d, 0 < load (jobCommitW k) B' + load (commitW k d) B' →
      0 < load (jobCommitW k) B + load (commitW k d) B ∨
        ¬(0 < s.log.count (.enqueue k) ∧ (s.jobs k).runCount = 0))
    (hafter : ∀ k d, 0 < onEngine s' k d + reported s' B' k d →
      0 < onEngine s k d + reported s B k d)
    (hleaving : ∀ k d, 0 < load (releaseW k d) B' + s'.log.count (.release d k) →
      0 < load (releaseW k d) B + s.log.count (.release d k)) : Starts P s' B' := by
  obtain ⟨es, hl, hes⟩ := hlog
  have hpre : s.log <+: s'.log := hl ▸ List.prefix_append _ _
  have hcnt : ∀ k, 0 < s.log.count (.enqueue k) → 0 < s'.log.count (.enqueue k) := fun k hk =>
    hk.trans_le (hpre.sublist.count_le _)
  have hst : ∀ c j, started s'.log c j = started s.log c j := fun c j => by
    rw [hl, started_append, started_none hes, List.append_nil]
  constructor
  case fresh =>
    intro k hk d
    rw [hsub, hst]
    exact hI.fresh k (fun h => hk ⟨hcnt k h.1, hrun k h.1 h.2⟩) d
  case before =>
    intro k d h
    rw [hst, hsub]
    rcases hbefore k d h with h | h
    · exact hI.before k d h
    · obtain ⟨h₁, h₂⟩ := hI.fresh k h d
      rw [h₁, h₂]
      rfl
  case after => exact fun k d h => by rw [hst, hsub]; exact hI.after k d (hafter k d h)
  case always => exact fun k d => by rw [hst, hsub]; exact hI.always k d
  case leaving => exact fun k d h => by rw [hsub]; exact hI.leaving k d (hleaving k d h)
  case held =>
    intro k hk hr
    rcases hheld k hk hr with ⟨h₁, h₂⟩ | h
    · exact (hI.held k h₁ h₂).mono hpre (hmask k h₁)
    · exact h
  case ordered =>
    intro l d k n h
    rw [hl] at h
    have h := prefix_of_concat h (hes d k n)
    exact (hI.ordered l d k n h).mono List.prefix_rfl
      (hmask k (hI.live (c := d) (k := n) (h.subset (by simp))).1)

theorem live_exec (hQ : Queued P s (a ::ₘ R)) (hj : 0 < s.log.count (.enqueue j))
    (hr : (s.jobs j).runCount = 0) (h : Rknpu.exec P a x s = some (s', p)) :
    (s'.jobs j).runCount = 0 := by
  by_cases ha : a = .runDec j
  · subst ha
    have hle := hQ.runDec_le hj
    rw [load_cons, runDecW, if_pos rfl] at hle
    omega
  · rw [exec_runCount hQ ha hj h, hr]

/-- The last pick-up gathers all cores of a job, and none of them has released it. -/
theorem gathered (hQ : Queued P s (a ::ₘ R)) (hC : Counts s (a ::ₘ R))
    (h : Rknpu.exec P a x s = some (s', p)) (hj : 0 < s'.log.count (.enqueue j))
    (hr : (s'.jobs j).runCount = 0) :
    (0 < s.log.count (.enqueue j) ∧ (s.jobs j).runCount = 0) ∨ Gathered P s' s'.log j := by
  by_cases ha : a = .enqueue j
  · -- a job without cores
    subst ha
    have hm := hQ.resolved j (by rw [load_cons, resolvedW, if_pos rfl]; omega)
    have hinit := hQ.initial j (hQ.not_enqueued (by simp [preW])) hm
    have hf := (enqueue_effect h).1.fields j
    refine .inr ⟨s'.log, List.prefix_rfl, fun c hc => ?_⟩
    rw [Dev.needs, hf.1] at hc
    have := hQ.useCoreNum_pos hc
    omega
  have henq : 0 < s.log.count (.enqueue j) := by
    rwa [count_enqueue ha h] at hj
  by_cases ha' : a = .runDec j
  · subst ha'
    obtain ⟨hs', -⟩ := runDec_effect h
    have hlog : s'.log = s.log := by rw [hs']; rfl
    have hmask := hQ.mask_exec h henq
    have hzero : (s.jobs j).runCount ≠ 0 := fun hz => by
      have hle := hQ.runDec_le henq
      rw [load_cons, runDecW, if_pos rfl] at hle
      omega
    refine .inr ⟨s'.log, List.prefix_rfl, fun c hc => ?_⟩
    have hpick := (hQ.exec h).all_picked (by rwa [hlog]) hr (Bool.and_eq_true_iff.mp hc).2
    have hrel : s'.log.count (.release c j) = 0 := by
      have htok := hC.token j c
      rw [if_neg fun hl => hzero hl.2] at htok
      simp only [tokens] at htok
      rw [hlog]
      omega
    exact ⟨List.count_pos_iff.mp hpick, List.count_eq_zero.mp hrel⟩
  · exact .inl ⟨henq, exec_runCount hQ ha' henq h ▸ hr⟩

theorem exec_step (hQ : Queued P s (a ::ₘ R)) (hC : Counts s (a ::ₘ R))
    (hI : Starts P s (a ::ₘ R)) (hg : Counts.Genuine s R a) (ha : ∀ j c k, a ≠ .pc .pcOpEn j c k)
    (ha' : ∀ j r c, a ≠ .jobDone j r c) (h : Rknpu.exec P a x s = some (s', p)) :
    Starts P s' ((p : Multiset Stmt) + R) := by
  have hsub := exec_submitCount ha' h
  have heng := exec_engine ha h
  have hlog : ∃ es, s'.log = s.log ++ es ∧ ∀ c j k, .start c j k ∉ es := by
    obtain ⟨es, hl, hes⟩ := exec_logs h
    refine ⟨es, hl, fun c j k hm => ?_⟩
    have := hes _ hm
    cases a <;> simp [Stmt.logs] at this
    rename_i g i d n
    cases g <;> simp at this
    exact ha _ _ _ rfl
  have hon : ∀ k d, onEngine s' k d ≤ onEngine s k d := fun k d => by
    simp only [onEngine, hsub]
    rcases heng d with he | he <;> simp [he]
  have hcomplete : ∀ k d n, s'.engine d = .complete k n → s.engine d = .complete k n :=
    fun k d n he => by
      rcases heng d with h' | h'
      · rw [← h', he]
      · rw [h'] at he
        cases he
  have hreport : ∀ k d, load (jobDoneW k d) (p : Multiset Stmt) ≤ jobDoneW k d a →
      0 < onEngine s' k d + reported s' ((p : Multiset Stmt) + R) k d →
        0 < onEngine s k d + reported s (a ::ₘ R) k d := fun k d hw hpos => by
    have h₁ := hon k d
    simp only [reported, hsub, load_add, load_cons] at hpos ⊢
    by_cases he : s'.engine d = .complete k ((s.jobs k).submitCount d)
    · rw [if_pos (hcomplete k d _ he)]
      omega
    · rw [if_neg he] at hpos
      omega
  have hrelease : ∀ k d, load (releaseW k d) (p : Multiset Stmt) ≤ releaseW k d a →
      0 < load (releaseW k d) ((p : Multiset Stmt) + R) + s'.log.count (.release d k) →
        0 < load (releaseW k d) (a ::ₘ R) + s.log.count (.release d k) := fun k d hw hpos => by
    rw [load_add] at hpos
    rw [load_cons]
    by_cases hr : ∃ r, a = .releaseCore k r d
    · obtain ⟨r, rfl⟩ := hr
      rw [releaseW, if_pos ⟨rfl, rfl⟩]
      omega
    · rw [count_release (not_exists.mp hr) h] at hpos
      omega
  have hstep := hI.step ((p : Multiset Stmt) + R) hlog hsub (fun k hk => hQ.mask_exec h hk)
    (fun k hk hr => live_exec hQ hk hr h) (fun k hj hr => gathered hQ hC h hj hr)
  by_cases hm : a.moves = false
  · have hw := exec_wayward hm h
    refine hstep (fun k d hpos => .inl ?_)
      (fun k d => hreport k d (by simpa using hw.jobDone k d))
      (fun k d => hrelease k d (by simpa using hw.release k d))
    have h₁ := hw.jobCommit k
    have h₂ := hw.commit k d
    rw [load_singleton] at h₁ h₂
    simp only [load_add, load_cons] at hpos ⊢
    omega
  cases a with
  | runDec i =>
    obtain ⟨-, rfl⟩ := runDec_effect h
    refine hstep (fun k d hpos => ?_) (fun k d => hreport k d ?_)
      (fun k d => hrelease k d ?_)
    · split at hpos
      · by_cases hk : i = k
        · subst hk
          refine .inr fun hl => ?_
          omega
        · left
          simpa [jobCommitW, commitW, hk] using hpos
      · left
        simpa [jobCommitW, commitW] using hpos
    · split <;> simp [jobDoneW]
    · split <;> simp [releaseW]
  | jobCommit i =>
    cases h
    have hz := fun (f : Stmt → Nat) (hf : ∀ c, f (.subcoreCommit i c) = 0) =>
      load_commits_eq_zero hf (commitCores (s.jobs i).args.coreMask)
    refine hstep (fun k d hpos => .inl ?_) (fun k d => hreport k d ?_)
      (fun k d => hrelease k d ?_)
    · rw [load_add, load_add, hz (jobCommitW k) fun _ => rfl, load_map_subcoreCommit] at hpos
      rw [load_cons, load_cons, jobCommitW]
      by_cases hk : i = k
      · rw [if_pos hk]
        omega
      · rw [if_neg hk] at hpos
        omega
    · rw [hz (jobDoneW k d) fun _ => rfl]
      exact Nat.zero_le _
    · rw [hz (releaseW k d) fun _ => rfl]
      exact Nat.zero_le _
  | irqClear d e =>
    cases e with
    | done i =>
      have hgen := (hg d i rfl).1
      cases h
      refine hstep (fun k d hpos => .inl ?_) (fun k e hpos => ?_) (fun k d => hrelease k d ?_)
      · simpa [jobCommitW, commitW] using hpos
      · by_cases hk : i = k ∧ d = e
        · obtain ⟨rfl, rfl⟩ := hk
          rw [reported, if_pos hgen]
          omega
        · exact hreport k e (by simp [jobDoneW, hk]) hpos
      · simp [releaseW]
    | _ => exact absurd rfl hm
  | pc g i d n => cases g <;> first | exact absurd rfl (ha _ _ _) | exact absurd rfl hm
  | jobDone i r d => exact absurd rfl (ha' i r d)
  | _ => exact absurd rfl hm

theorem pcOpEn {k : Nat} (hC : Counts s (.pc .pcOpEn j c k ::ₘ R))
    (hI : Starts P s (.pc .pcOpEn j c k ::ₘ R))
    (h : Rknpu.exec P (.pc .pcOpEn j c k) x s = some (s', p)) :
    Starts P s' ((p : Multiset Stmt) + R) := by
  have hk := hC.pcIndex _ _ _ _ (Multiset.mem_cons_self _ _)
  have hone := hC.tokens_le_one j c
  have hlive := hC.live (j := j) (c := c) (by simp [tokens, commitW])
  have hbefore := hI.before j c (by simp [commitW])
  obtain ⟨-, hj, -, -, he, hlog, rfl⟩ := pcOpEn_effect h
  have hcnt : ∀ ev : Event, ev ≠ .start c j k → s'.log.count ev = s.log.count ev := fun ev hev => by
    simp [hlog, List.count_append, Ne.symm hev]
  have hst : ∀ i d, started s'.log d i =
      started s.log d i ++ if c = d ∧ j = i then [k] else [] := fun i d => by
    rw [hlog, started_append]
    by_cases hd : c = d ∧ j = i <;> simp [started, hd]
  have hst' : started s'.log c j = List.range ((s.jobs j).submitCount c + 1) := by
    rw [hst, hbefore, if_pos ⟨rfl, rfl⟩, hk, List.range_succ]
  have hother : ∀ i d, ¬(c = d ∧ j = i) → started s'.log d i = started s.log d i := fun i d hd => by
    rw [hst, if_neg hd, List.append_nil]
  have hmask : ∀ i, s'.mask i = s.mask i := fun i => by rw [Dev.mask, hj]; rfl
  simp only [tokens, load_cons, jobCommitW, commitW, releaseW, and_self, if_true] at hone
  constructor
  case fresh =>
    intro i hi d
    rw [hj, hcnt _ (by simp)] at hi
    rw [hother i d (by rintro ⟨-, rfl⟩; exact hi hlive), hj]
    exact hI.fresh i hi d
  case before =>
    intro i d hpos
    simp only [Multiset.coe_nil, zero_add] at hpos
    by_cases hd : c = d ∧ j = i
    · obtain ⟨rfl, rfl⟩ := hd
      omega
    · rw [hother i d hd, hj]
      exact hI.before i d (by simp only [load_cons]; omega)
  case after =>
    intro i d hpos
    by_cases hd : c = d ∧ j = i
    · obtain ⟨rfl, rfl⟩ := hd
      rw [hst', hj]
    · rw [hother i d hd, hj]
      refine hI.after i d (hpos.trans_le ?_)
      simp only [onEngine, reported, he, hj, load_cons, Multiset.coe_nil, zero_add]
      by_cases hcd : d = c
      · subst hcd
        have hji : j ≠ i := fun hji => hd ⟨rfl, hji⟩
        simp [hji]
        omega
      · rw [Function.update_of_ne hcd]
        omega
  case always =>
    intro i d
    by_cases hd : c = d ∧ j = i
    · obtain ⟨rfl, rfl⟩ := hd
      exact .inr (by rw [hst', hj])
    · rw [hother i d hd, hj]
      exact hI.always i d
  case leaving =>
    intro i d hpos
    rw [hcnt _ (by simp)] at hpos
    rw [hj]
    refine hI.leaving i d (hpos.trans_le ?_)
    simp
  case held =>
    intro i hi hr
    rw [hcnt _ (by simp)] at hi
    rw [hj] at hr
    exact (hI.held i hi hr).mono (hlog ▸ List.prefix_append _ _) (hmask i)
  case ordered =>
    intro l d i n hl
    rw [hlog, List.prefix_concat_iff] at hl
    rcases hl with hl | hl
    · obtain ⟨rfl, he⟩ := List.append_inj' hl rfl
      cases he
      exact (hI.held j hlive.1 hlive.2).mono List.prefix_rfl (hmask j)
    · exact (hI.ordered l d i n hl).mono List.prefix_rfl (hmask i)

theorem jobDone (hC : Counts s (.jobDone j r c ::ₘ R)) (hI : Starts P s (.jobDone j r c ::ₘ R))
    (h : Rknpu.exec P (.jobDone j r c) x s = some (s', p)) :
    Starts P s' ((p : Multiset Stmt) + R) := by
  have hone := hC.tokens_le_one j c
  have hlive := hC.live (j := j) (c := c) (by
    simp [tokens, reported, jobDoneW])
  have hafter := hI.after j c (by simp [reported, jobDoneW])
  simp only [tokens, reported, load_cons, jobCommitW, commitW, jobDoneW, releaseW, and_self,
    if_true] at hone
  obtain ⟨hs', hp⟩ := jobDone_effect h
  have hlog : s'.log = s.log := by rw [hs']; rfl
  have heng : s'.engine = s.engine := by rw [hs']; rfl
  have hrun : ∀ i, (s'.jobs i).runCount = (s.jobs i).runCount := fun i => by
    rw [hs']
    exact field_setJob Job.runCount rfl i
  have hmask : ∀ i, s'.mask i = s.mask i := fun i => by
    rw [hs']
    exact field_setJob (fun b => b.args.coreMask) rfl i
  have hself : (s'.jobs j).submitCount c = (s.jobs j).submitCount c + 1 := by
    rw [hs', setJob_jobs, if_pos rfl]
    simp
  have hsub : ∀ i d, ¬(j = i ∧ c = d) →
      (s'.jobs i).submitCount d = (s.jobs i).submitCount d := fun i d hd => by
    rw [hs', setJob_jobs]
    split
    · rename_i hi
      subst hi
      exact Function.update_of_ne (fun hcd => hd ⟨rfl, hcd.symm⟩) _ _
    · rfl
  have hw : ∀ i d, ¬(j = i ∧ c = d) → load (jobCommitW i) (p : Multiset Stmt) = 0 ∧
      load (commitW i d) (p : Multiset Stmt) = 0 ∧ load (jobDoneW i d) (p : Multiset Stmt) = 0 ∧
      load (releaseW i d) (p : Multiset Stmt) = 0 := fun i d hd => by
    rw [hp]
    split <;> simp [jobCommitW, commitW, jobDoneW, releaseW, hd]
  have hpj : load (jobDoneW j c) (p : Multiset Stmt) = 0 := by
    rw [hp]
    split <;> simp [jobDoneW]
  constructor
  case fresh =>
    intro i hi d
    rw [hlog, hrun] at hi
    have hd : ¬(j = i ∧ c = d) := by
      rintro ⟨rfl, -⟩
      exact hi hlive
    rw [hsub i d hd, hlog]
    exact hI.fresh i hi d
  case before =>
    intro i d hpos
    by_cases hd : j = i ∧ c = d
    · obtain ⟨rfl, rfl⟩ := hd
      rw [hlog, hafter, hself]
    · rw [hlog, hsub i d hd]
      refine hI.before i d ?_
      simp only [load_add, (hw i d hd).1, (hw i d hd).2.1, load_cons] at hpos ⊢
      omega
  case after =>
    intro i d hpos
    by_cases hd : j = i ∧ c = d
    · obtain ⟨rfl, rfl⟩ := hd
      exfalso
      have h₁ : s.engine c ≠ .running j ((s.jobs j).submitCount c + 1) := fun he => by
        have := hC.running c j _ he
        omega
      have h₂ : s.engine c ≠ .complete j ((s.jobs j).submitCount c + 1) := fun he => by
        have := (hC.complete c j _ he).1
        omega
      simp only [onEngine, reported, heng, hself, h₁, h₂, if_false, load_add, hpj] at hpos
      omega
    · rw [hlog, hsub i d hd]
      refine hI.after i d ?_
      simp only [onEngine, reported, heng, hsub i d hd, load_add, (hw i d hd).2.2.1,
        load_cons] at hpos ⊢
      omega
  case always =>
    intro i d
    by_cases hd : j = i ∧ c = d
    · obtain ⟨rfl, rfl⟩ := hd
      exact .inl (by rw [hlog, hafter, hself])
    · rw [hlog, hsub i d hd]
      exact hI.always i d
  case leaving =>
    intro i d hpos
    by_cases hd : j = i ∧ c = d
    · obtain ⟨rfl, rfl⟩ := hd
      omega
    · rw [hsub i d hd]
      refine hI.leaving i d ?_
      simp only [load_add, (hw i d hd).2.2.2, hlog, load_cons] at hpos ⊢
      omega
  case held =>
    intro i hi hr
    rw [hlog] at hi ⊢
    exact (hI.held i hi (hrun i ▸ hr)).mono List.prefix_rfl (hmask i)
  case ordered =>
    intro l d i n hl
    rw [hlog] at hl
    exact (hI.ordered l d i n hl).mono List.prefix_rfl (hmask i)

theorem exec (hQ : Queued P s (a ::ₘ R)) (hC : Counts s (a ::ₘ R)) (hI : Starts P s (a ::ₘ R))
    (hg : Counts.Genuine s R a) (h : Rknpu.exec P a x s = some (s', p)) :
    Starts P s' ((p : Multiset Stmt) + R) := by
  by_cases hs : ∃ j c k, a = .pc .pcOpEn j c k
  · obtain ⟨j, c, k, rfl⟩ := hs
    exact hI.pcOpEn hC h
  by_cases hd : ∃ j r c, a = .jobDone j r c
  · obtain ⟨j, r, c, rfl⟩ := hd
    exact hI.jobDone hC h
  push Not at hs hd
  exact hI.exec_step hQ hC hg hs hd h

theorem occur {e : Occurrence} (hQ : Queued P s R) (hC : Counts s R) (hI : Starts P s R)
    (h : Rknpu.occur P e s = some (s', p)) : Starts P s' ((p : Multiset Stmt) + R) := by
  have hcnt : ∀ k, s'.log.count (.enqueue k) = s.log.count (.enqueue k) := fun k =>
    occur_count h (by simp)
  have hrel : ∀ d k, s'.log.count (.release d k) = s.log.count (.release d k) := fun d k =>
    occur_count h (by simp)
  have hlog : ∃ es, s'.log = s.log ++ es ∧ ∀ c j k, .start c j k ∉ es := by
    obtain ⟨es, hl, hes⟩ := occur_logs h
    refine ⟨es, hl, fun c j k hm => ?_⟩
    obtain ⟨_, _, _, he⟩ := hes _ hm
    cases he
  have hnew : ∀ k, 0 < s.log.count (.enqueue k) → k ≠ s.jobNum := by
    rintro k hk rfl
    have := hQ.fresh s.jobNum le_rfl
    omega
  have hold : ∀ k, ¬(e.spawns ∧ k = s.jobNum) → (s'.jobs k).counters = (s.jobs k).counters :=
    fun k hk => by
      by_cases he : e.spawns
      · obtain ⟨rfl, -⟩ | ⟨b, args, -, -, -, hj, -⟩ := spawn_effect he h
        · rfl
        · rw [hj, Function.update_of_ne fun hn => hk ⟨he, hn⟩]
      · exact occur_counters (by simpa using he) h k
  have hsub : ∀ k, (s'.jobs k).submitCount = (s.jobs k).submitCount := fun k => by
    by_cases hk : e.spawns ∧ k = s.jobNum
    · obtain ⟨he, rfl⟩ := hk
      obtain ⟨rfl, -⟩ | ⟨b, args, hb, -, -, hj, -⟩ := spawn_effect he h
      · rfl
      · have hzero : (s.jobs s.jobNum).submitCount = fun _ => 0 := by
          funext d
          refine (hI.fresh s.jobNum (fun hl => ?_) d).1
          exact hnew _ hl.1 rfl
        rw [hj, Function.update_self, (counters_fields hb).2.2.2.2, hzero]
        rfl
    · exact (counters_fields (hold k hk)).2.2.2.2
  have hlive : ∀ k, 0 < s.log.count (.enqueue k) → (s'.jobs k).runCount = (s.jobs k).runCount ∧
      s'.mask k = s.mask k := fun k hk => by
    have hf := counters_fields (hold k fun hn => hnew k hk hn.2)
    exact ⟨hf.2.2.1, hf.1⟩
  have hstep := hI.step ((p : Multiset Stmt) + R) hlog hsub (fun k hk => (hlive k hk).2)
    (fun k hk hr => (hlive k hk).1.trans hr)
    (fun k hk hr => .inl ⟨hcnt k ▸ hk, (hlive k (hcnt k ▸ hk)).1 ▸ hr⟩)
  -- what the environment starts is on no way, unless it reports a chunk
  have hidle : Wayward 0 p → (∀ d, s'.engine d = s.engine d ∨ s'.engine d = .idle) →
      Starts P s' ((p : Multiset Stmt) + R) := fun hl he => by
    have hw := hl.add R
    rw [Multiset.zero_add] at hw
    refine hstep (fun k d hpos => .inl ?_) (fun k d hpos => ?_) fun k d hpos => ?_
    · have h₁ := hw.jobCommit k
      have h₂ := hw.commit k d
      omega
    · have h₁ := hw.jobDone k d
      simp only [onEngine, reported, hsub] at hpos ⊢
      rcases he d with he | he <;> simp only [he, reduceCtorEq, if_false] at hpos <;> omega
    · have h₁ := hw.release k d
      rw [hrel] at hpos
      omega
  -- a chunk that is reported was running
  have hreport : ∀ c j n, s.engine c = .running j n →
      s'.engine = Function.update s.engine c (.complete j n) →
      (p = [] ∨ p = [.jobDone j 0 c]) → Starts P s' ((p : Multiset Stmt) + R) :=
    fun c j n hr he hp => by
      have hn := hC.running c j n hr
      have hz : ∀ k d, load (jobCommitW k) (p : Multiset Stmt) = 0 ∧
          load (commitW k d) (p : Multiset Stmt) = 0 ∧ load (releaseW k d) (p : Multiset Stmt) = 0 :=
        fun k d => by rcases hp with rfl | rfl <;> simp [jobCommitW, commitW, releaseW]
      refine hstep (fun k d hpos => .inl ?_) (fun k d hpos => ?_) fun k d hpos => ?_
      · simpa only [load_add, hz k d, Nat.zero_add] using hpos
      · by_cases hd : j = k ∧ c = d
        · obtain ⟨rfl, rfl⟩ := hd
          rw [onEngine, hr, hn, if_pos rfl]
          omega
        · have hw : load (jobDoneW k d) (p : Multiset Stmt) = 0 := by
            rcases hp with rfl | rfl <;> simp [jobDoneW, hd]
          simp only [onEngine, reported, hsub, load_add, hw, he] at hpos ⊢
          by_cases hdc : d = c
          · subst hdc
            have hjk : j ≠ k := fun hjk => hd ⟨hjk, rfl⟩
            simp only [Function.update_self, reduceCtorEq, Engine.complete.injEq, hjk, false_and,
              if_false] at hpos
            omega
          · rw [Function.update_of_ne hdc] at hpos
            omega
      · rw [load_add, (hz k d).2.2, hrel] at hpos
        omega
  by_cases he : e.spawns
  · obtain ⟨rfl, rfl⟩ | ⟨b, args, -, hp, -, -, -, -, heng, -⟩ := spawn_effect he h
    · exact hidle (.of_light (by simp)) fun _ => .inl rfl
    · refine hidle ?_ fun d => .inl (by rw [heng])
      rcases hp with rfl | rfl <;> constructor <;> intros <;>
        simp [jobCommitW, commitW, jobDoneW, releaseW]
  by_cases hc : ∃ c, e = .completion c
  · obtain ⟨c, rfl⟩ := hc
    obtain ⟨j, n, hr, -, hp, -, -, -, -, he, -⟩ := completion_effect h
    exact hreport c j n hr he (.inr hp)
  by_cases hw : ∃ c bits, e = .hwComplete c bits
  · obtain ⟨c, bits, rfl⟩ := hw
    obtain ⟨j, n, hr, hp, -, -, -, -, he, -⟩ := hwComplete_effect h
    exact hreport c j n hr he (.inl hp)
  push Not at hc hw
  obtain ⟨hs, hl⟩ := occur_calm (by simpa using he) hc hw h
  exact hidle (.of_light (by simpa using hl)) hs.engine

theorem init : Starts P Dev.init 0 := by
  constructor <;>
    simp [Dev.init, jobAlloc, started, onEngine, reported]

theorem reach {G : Guard Dev Stmt Int Occurrence} (hG : Honest P G) {C : Conf Dev Stmt}
    (hC : Reach (driver P) G Dev.init C) : Starts P C.shared C.pending :=
  hC.invariant_with
    (fun s B => Queued P s B ∧ Counts s B ∧
      ∀ a R x, B = a ::ₘ R → G.run s B a x → Counts.Genuine s R a) (Starts P)
    (fun _ hC => ⟨Queued.reach hC, hG.counts hC, hG _ hC⟩) init
    (fun _ _ _ _ _ _ hJ hI hg h => hI.exec hJ.1 hJ.2.1 (hJ.2.2 _ _ _ rfl hg) h)
    (fun _ _ _ _ _ hJ hI _ h => hI.occur hJ.1 hJ.2.1 h)

end Starts

end Rknpu

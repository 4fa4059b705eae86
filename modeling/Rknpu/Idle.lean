import Rknpu.Isolation

namespace Rknpu

open Interleaving

variable {P : Platform} {s s' : Dev} {B R : Multiset Stmt} {a : Stmt} {x : Int} {p : List Stmt}
  {j : JobId} {c : Nat} {e : Occurrence}

def commitsW (j : JobId) : Stmt → Nat
  | .jobCommit i | .subcoreCommit i _ | .commitPc i _ | .pc _ i _ _ => if i = j then 1 else 0
  | _ => 0

/-- No core is or will be at work on job `j`, as far as it has come. -/
def Idle (s : Dev) (B : Multiset Stmt) (j : JobId) : Prop :=
  load (commitsW j) B = 0 ∧ ∀ c k, s.engine c ≠ .running j k

def Stmt.commits (P : Platform) (s : Dev) (j : JobId) (a : Stmt) : Prop :=
  (a = .runDec j ∧ (s.jobs j).runCount = 1) ∨
    ∃ r c, a = .jobDone j r c ∧
      (((s.jobs j).submitCount c + 1 : Nat) : Int) < (s.jobs j).chunkCount P.config c

/-- A job is aborted only when no core is at work on it, and not committed after that. -/
def idleAborts (P : Platform) : Guard Dev Stmt Int Occurrence :=
  endsOnce.and
    { run := fun s B a _ => ∀ j, (a = .jobAbort j → Idle s B j) ∧
        (a.commits P s j → .domainPut j ∉ s.log)
      env := fun _ _ _ => True }

theorem idle_of_finished (hQ : Queued P s B) (hC : Counts s B) (hf : 0 < finished s j) :
    Idle s B j := by
  have hnone : ∀ d, inMask (s.mask j) d →
      load (jobCommitW j) B = 0 ∧ load (commitW j d) B = 0 ∧ onEngine s j d = 0 := fun d hd => by
    have hrel := released_of_finished hQ hC hf hd
    have hone := hC.tokens_le_one j d
    simp only [tokens] at hone
    omega
  have hcore : ∀ d, 0 < load (commitW j d) B + onEngine s j d → False := fun d hd => by
    have := hnone d (hC.onCore j d (by omega))
    omega
  obtain ⟨d, hd⟩ : ∃ d, inMask (s.mask j) d := by
    simp only [finished] at hf
    split at hf
    · rename_i hfin
      have hints := hC.ints j hfin.1
      obtain ⟨d, hd⟩ := List.exists_mem_of_length_pos (l := releaseCores s.log j) (by omega)
      exact ⟨d, inMask_of_mem_releaseCores hQ hC hd⟩
    · omega
  refine ⟨load_eq_zero _ fun b hb => ?_, fun c k hk => ?_⟩
  · have hpos : ∀ d, 0 < commitW j d b → False := fun d hd =>
      hcore d (by have := le_load (commitW j d) hb; omega)
    cases b with
    | jobCommit i =>
      refine if_neg ?_
      rintro rfl
      have := le_load (jobCommitW i) hb
      have := (hnone d hd).1
      simp only [jobCommitW, if_pos] at *
      omega
    | subcoreCommit i c | commitPc i c | pc g i c k =>
      refine if_neg ?_
      rintro rfl
      exact hpos c (by simp [commitW])
    | _ => rfl
  · refine hcore c ?_
    have := hC.running c j k hk
    simp [onEngine, hk, ← this]

theorem exec_commitsW (ha : commitsW j a = 0) (hn : ¬a.commits P s j)
    (h : exec P a x s = some (s', p)) : load (commitsW j) (p : Multiset Stmt) = 0 := by
  cases exec_flow h
  case runDec i =>
    have hp := (runDec_effect h).2
    split at hp
    · have hij : i ≠ j := by
        rintro rfl
        exact hn (.inl ⟨rfl, ‹_›⟩)
      simp [commitsW, hij]
    · cases hp
  case jobDoneNext i r c =>
    have hp := (jobDone_effect h).2
    split at hp
    · have hij : i ≠ j := by
        rintro rfl
        exact hn (.inr ⟨r, c, rfl, ‹_›⟩)
      simp [commitsW, hij]
    · cases hp
  case jobCommit => exact load_commits_eq_zero (fun _ => ha) _
  all_goals first | rfl | simpa [commitsW] using ha

theorem Idle.exec (hI : Idle s (a ::ₘ R) j) (hn : ¬a.commits P s j)
    (h : Rknpu.exec P a x s = some (s', p)) : Idle s' ((p : Multiset Stmt) + R) j := by
  obtain ⟨hz, heng⟩ := hI
  rw [load_cons] at hz
  refine ⟨by rw [load_add, exec_commitsW (by omega) hn h]; omega, fun c k hk => ?_⟩
  by_cases hop : ∃ i d n, a = .pc .pcOpEn i d n
  · obtain ⟨i, d, n, rfl⟩ := hop
    obtain ⟨-, -, -, -, he, -⟩ := pcOpEn_effect h
    rw [he, Function.update_apply] at hk
    split at hk
    · cases hk
      simp [commitsW] at hz
    · exact heng c k hk
  · push Not at hop
    rcases exec_engine hop h c with he | he <;> rw [he] at hk
    · exact heng c k hk
    · cases hk

theorem Idle.occur (hI : Idle s R j) (h : Rknpu.occur P e s = some (s', p)) :
    Idle s' ((p : Multiset Stmt) + R) j := by
  obtain ⟨hz, heng⟩ := hI
  have hp : load (commitsW j) (p : Multiset Stmt) = 0 := load_eq_zero _ fun b hb => by
    have hb := Multiset.mem_coe.mp hb
    rcases occur_starts h with hp | ⟨-, ⟨rfl, -⟩ | rfl⟩ | ⟨i, c, -, rfl⟩ | ⟨i, -, rfl⟩
    · have := (hp b hb).1
      cases b <;> first | rfl | cases this
    all_goals
      obtain rfl := List.mem_singleton.mp hb
      rfl
  refine ⟨by rw [load_add]; omega, fun c k hk => ?_⟩
  rcases occur_report h with ⟨d, i, n, -, he, -⟩ | ⟨he, -⟩ <;> rw [he] at hk
  · rw [Function.update_apply] at hk
    split at hk
    · cases hk
    · exact heng c k hk
  · exact heng c k hk

def PutIdle (s : Dev) (B : Multiset Stmt) : Prop := ∀ j, .domainPut j ∈ s.log → Idle s B j

theorem PutIdle.exec (hQ : Queued P s (a ::ₘ R)) (hC : Counts s (a ::ₘ R)) (hE : Ends s (a ::ₘ R))
    (hI : PutIdle s (a ::ₘ R)) (hG : (idleAborts P).run s (a ::ₘ R) a x)
    (h : Rknpu.exec P a x s = some (s', p)) : PutIdle s' ((p : Multiset Stmt) + R) := by
  intro j hj
  obtain ⟨⟨hgen, -⟩, hidle⟩ := hG
  rw [Multiset.erase_cons_head] at hgen
  by_cases hf : 0 < finished s' j
  · exact idle_of_finished (hQ.exec h) (hC.exec hQ hgen h) hf
  · have hfin := finished_exec hQ hC hE.spent h (j := j)
    have hupto := hE.upto 1 (by omega) j
    have hst : stage a ≠ some (j, 1) := fun hst => by
      simp [untilW, hst] at hupto
      omega
    have hput := exec_puts h j
    rw [if_neg hst] at hput
    rw [← List.count_pos_iff] at hj
    by_cases ha : a = .jobAbort j
    · refine ((hidle j).1 ha).exec ?_ h
      subst ha
      rintro (⟨ha, -⟩ | ⟨r, c, ha, -⟩) <;> cases ha
    · rw [if_neg ha] at hput
      have hold : .domainPut j ∈ s.log := List.count_pos_iff.mp (by omega)
      exact (hI j hold).exec (fun hc => (hidle j).2 hc hold) h

theorem PutIdle.occur (hI : PutIdle s R) (h : Rknpu.occur P e s = some (s', p)) :
    PutIdle s' ((p : Multiset Stmt) + R) := fun j hj =>
  (hI j (by rwa [← List.count_pos_iff, occur_count h (by simp), List.count_pos_iff] at hj)).occur h

theorem PutIdle.reach {C : Conf Dev Stmt} (hC : Reach (driver P) (idleAborts P) Dev.init C) :
    PutIdle C.shared C.pending := by
  have hon : Honest P (idleAborts P) := honest_of_endsOnce fun _ _ _ _ => And.left
  refine hC.invariant_with (fun s B => Queued P s B ∧ Counts s B ∧ Ends s B) PutIdle ?_ ?_ ?_ ?_
  · exact fun C hC => ⟨Queued.reach hC, hon.counts hC, Ends.reach hon hC⟩
  · simp [PutIdle, Dev.init]
  · exact fun s R a x s' p hJ hI hG h => hI.exec hJ.1 hJ.2.1 hJ.2.2 hG h
  · exact fun s R e s' p _ hI _ h => hI.occur h

theorem enqueued_of_not_idle (hC : Counts s B) (hI : ¬Idle s B j) :
    0 < s.log.count (.enqueue j) := by
  have htoken : ∀ d, 0 < load (jobCommitW j) B + load (commitW j d) B + onEngine s j d →
      0 < s.log.count (.enqueue j) := fun d hd => (hC.live (j := j) (c := d) (by
    unfold tokens
    omega)).1
  by_cases hz : load (commitsW j) B = 0
  · obtain ⟨c, k, hk⟩ : ∃ c k, s.engine c = .running j k := by
      by_contra hn
      push Not at hn
      exact hI ⟨hz, hn⟩
    have := hC.running c j k hk
    exact htoken c (by simp [onEngine, hk, ← this])
  · obtain ⟨b, hb, hpos⟩ := load_pos (commitsW j) (by omega : 0 < load (commitsW j) B)
    have hone := le_load (jobCommitW j) hb
    have hcore := fun d => le_load (commitW j d) hb
    cases b with
    | jobCommit i =>
      simp only [commitsW, jobCommitW] at hpos hone
      exact htoken 0 (by omega)
    | subcoreCommit i c | commitPc i c | pc g i c k =>
      have := hcore c
      simp only [commitsW, commitW, and_true] at hpos this
      exact htoken c (by omega)
    | _ => cases hpos

namespace Isolation

def Working (C : Conf State Stmt) (j : JobId) : Prop :=
  (∃ a, .drv a ∈ C.pending ∧ commitsW j a = 1) ∨ ∃ c k, C.shared.dev.engine c = .running j k

/-- The hardware works on no job but in its own domain. -/
theorem domain_isolated {C : Conf State Stmt}
    (hC : Reach (machine P) (driverGuard (idleAborts P)) State.init C) {j : JobId}
    (hj : Working C j) : C.shared.pin.id = domainOf C.shared.dev j := by
  have hrun : ∀ s B a x, (idleAborts P).run s B a x → endsOnce.run s B a x := fun _ _ _ _ => And.left
  have henv : ∀ s B e, (idleAborts P).env s B e → submitted e := fun _ _ _ => And.left
  have htick : ∀ s B, (idleAborts P).env s B (.tick 0) := fun _ _ =>
    ⟨by simp [endsOnce, submitted], trivial⟩
  have hD := reach_driver htick hC
  have hN := (honest_of_endsOnce hrun).counts hD
  have hF := References.reach hrun henv hD
  have hH := PutIdle.reach hD
  rw [Conf.pending_view] at hN hF hH
  change Counts C.shared.dev _ at hN
  change References C.shared.dev _ at hF
  change PutIdle C.shared.dev _ at hH
  have hidle : ¬Idle C.shared.dev (C.pending.filterMap Stmt.driver) j := by
    rintro ⟨hz, heng⟩
    rcases hj with ⟨a, ha, hone⟩ | ⟨c, k, hk⟩
    · have := le_load (commitsW j) ((Multiset.mem_filterMap Stmt.driver _).mpr ⟨_, ha, rfl⟩)
      omega
    · exact heng c k hk
  refine (Pinned.reach hrun henv htick hC).job j ?_
  have hput := List.count_eq_zero.mpr fun hp => hidle (hH j hp)
  have henq := enqueued_of_not_idle hN hidle
  have hgot := hF.got j
  rw [Holds, count_gotJobs, count_putJobs]
  omega

def isolatedRun : List (Label Int Occurrence) :=
  [Label.env (Occurrence.drv (.submit (oneTask 1 1)))] ++ List.replicate 25 (Label.run 0 0) ++
    [Label.env (Occurrence.useDomain 1)]

theorem domain_isolated_isolatedRun : ∃ C : Conf State Stmt,
    C.shared.dev.engine 0 = .running 0 0 ∧ .gemGet 1 1 false ∈ C.pending ∧ C.shared.pin.id = 0 := by
  obtain ⟨C, hC, ht⟩ := Reach.exists_of_steps (machine (board rk356xConfig))
    (driverGuard (idleAborts (board rk356xConfig))) State.init isolatedRun
    (fun C a x => returns C a x && (putJobs C.shared.dev.log).isEmpty)
    (fun C => C.threads == [[.drv (.waitEvent 0 0)], [.gemGet 1 1 false]] &&
      C.shared.dev.engine 0 == .running 0 0 && domainOf C.shared.dev 0 == 0)
    (fun C a x h b hb => by
      subst hb
      rw [Bool.and_eq_true, List.isEmpty_iff] at h
      refine ⟨(returnsOnce_of_returns h.1).1, fun j => ⟨fun hj => ?_, fun _ => ?_⟩⟩
      · simp [hj, returns] at h
      · rw [← List.count_eq_zero, ← count_putJobs, h.2]
        rfl)
    (fun e he _ _ o ho => by
      subst ho
      simp [isolatedRun] at he
      subst he
      simp [idleAborts, Guard.and, endsOnce, submitted])
    (by decide +kernel)
  simp only [Bool.and_eq_true, beq_iff_eq] at ht
  obtain ⟨⟨ht, heng⟩, hdom⟩ := ht
  exact ⟨C, heng, by simp [Conf.pending, ht],
    (domain_isolated hC (.inr ⟨0, 0, heng⟩)).trans hdom⟩

/-- A blocking job for domain 0 times out and puts its domain while it is on the hardware, and a
GEM call switches to domain 1. -/
def strayRun : List (Label Int Occurrence) :=
  [Label.env (Occurrence.drv (.submit (oneTask 1 1)))] ++ List.replicate 35 (Label.run 0 0) ++
    [Label.env (Occurrence.useDomain 1), .run 1 0]

theorem abort_strays : ¬∀ (P : Platform) (C : Conf State Stmt) (j : JobId),
    Reach (machine P) (driverGuard (.events submitted)) State.init C → Working C j →
      C.shared.pin.id = domainOf C.shared.dev j := by
  intro hall
  obtain ⟨C, hC, ht⟩ := Reach.exists_of_steps (machine (board rk356xConfig))
    (driverGuard (.events submitted)) State.init strayRun
    (fun _ _ _ => true)
    (fun C => C.shared.dev.engine 0 == .running 0 0 && C.shared.pin.id == 1 &&
      domainOf C.shared.dev 0 == 0)
    (fun _ _ _ _ _ _ => trivial) (fun e he _ _ o ho => by
      subst ho
      simp [strayRun] at he
      subst he
      simp [Guard.events, submitted]) (by decide +kernel)
  simp only [Bool.and_eq_true, beq_iff_eq] at ht
  obtain ⟨⟨heng, hid⟩, hdom⟩ := ht
  have := hall _ C 0 hC (.inr ⟨0, 0, heng⟩)
  omega

end Isolation

end Rknpu

import Rknpu.Handlers

namespace Rknpu

open Interleaving

/-- The hardware reports a chunk and `rknpu_job_done` is called for it, with no interrupt that
it did not raise. -/
def completionWorld : Guard Dev Stmt Int Occurrence :=
  .events fun
    | .irq _ => False
    | _ => True

/-- `rknpu_job_timeout_clean` takes no job from a core on which `rknpu_job_done` is at work
for it. -/
def cancelGuard (P : Platform) : Guard Dev Stmt Int Occurrence where
  run s B a _ := ∀ j i, a = .cancel j i → ∀ c < P.config.numIrqs, s.slot c = some j →
    load (jobDoneW j c) B + load (releaseW j c) B = 0
  env _ _ _ := True

/-- `rknpu_job_done` is at work for jobs that hold their core and whose interrupt was noted. -/
def Serving (s : Dev) (B : Multiset Stmt) : Prop :=
  ∀ j c, 0 < load (jobDoneW j c) B + load (releaseW j c) B →
    s.slot c = some j ∧ (s.jobs j).irqEntry c = true

variable {P : Platform} {G : Guard Dev Stmt Int Occurrence} {C : Conf Dev Stmt} {s s' : Dev}
  {R : Multiset Stmt} {a : Stmt} {x : Int} {p : List Stmt} {j : JobId} {c : Nat}

theorem occur_handles {e : Occurrence} (hG : completionWorld.env s R e)
    (h : occur P e s = some (s', p)) : ∀ b ∈ p, b.handles = false := by
  cases e with
  | irq c => exact absurd hG id
  | completion c =>
    obtain ⟨j, k, -, -, rfl, -⟩ := completion_effect h
    simp [Stmt.handles]
  | _ =>
    simp only [occur, spawn] at h
    repeat' split at h
    all_goals
      cases h
      try simp [Stmt.handles]

theorem occur_jobDoneW {e : Occurrence} (hc : ∀ c, e ≠ .completion c)
    (h : occur P e s = some (s', p)) (k : JobId) (d : Nat) :
    load (jobDoneW k d) (p : Multiset Stmt) = 0 := by
  cases e with
  | completion c => exact absurd rfl (hc c)
  | _ =>
    simp only [occur, spawn] at h
    repeat' split at h
    all_goals
      cases h
      try rfl

theorem completionWorld_handles (hG : ∀ s B e, G.env s B e → completionWorld.env s B e)
    (hC : Reach (driver P) G Dev.init C) : ∀ a ∈ C.pending, a.handles = false :=
  hC.pending_all (fun a => a.handles = false) (fun _ _ _ _ _ _ ha _ h => exec_not_handles ha h)
    fun _ _ _ _ _ he h => occur_handles (hG _ _ _ he) h

theorem completionWorld_honest (hG : ∀ s B e, G.env s B e → completionWorld.env s B e) :
    Honest P G := by
  intro C hC a R x hB _ c j ha
  have := completionWorld_handles hG hC a (by simp [hB])
  rw [ha] at this
  cases this

namespace Serving

theorem exec (hC : Counts s (a ::ₘ R)) (hI : Serving s (a ::ₘ R)) (ha : a.handles = false)
    (hG : (cancelGuard P).run s (a ::ₘ R) a x) (h : Rknpu.exec P a x s = some (s', p)) :
    Serving s' ((p : Multiset Stmt) + R) := by
  intro k d hpos
  rw [load_add, load_add] at hpos
  have hdone : load (jobDoneW k d) (p : Multiset Stmt) ≤ jobDoneW k d a :=
    exec_jobDoneW (by rintro c j rfl; cases ha) h k d
  have hrel : load (releaseW k d) (p : Multiset Stmt) ≤ jobDoneW k d a + releaseW k d a := by
    by_cases hj : ∃ j r c, a = .jobDone j r c
    · obtain ⟨j, r, c, rfl⟩ := hj
      obtain ⟨-, rfl⟩ := jobDone_effect h
      split <;> simp [releaseW, jobDoneW]
    · push Not at hj
      exact (exec_releaseW hj h k d).trans (Nat.le_add_left _ _)
  have hone := hC.tokens_le_one k d
  simp only [tokens, reported, load_cons] at hone
  have hbusy : 0 < load (jobDoneW k d) (a ::ₘ R) + load (releaseW k d) (a ::ₘ R) := by
    simp only [load_cons]
    omega
  obtain ⟨hslot, hentry⟩ := hI k d hbusy
  refine ⟨?_, ?_⟩
  · cases a with
    | pickUp c =>
      obtain ⟨rfl, -⟩ | ⟨j, rest, hnone, -, -, -, hs, -⟩ := pickUp_effect h
      · exact hslot
      · rw [hs, Function.update_of_ne (by rintro rfl; rw [hnone] at hslot; cases hslot), hslot]
    | releaseCore j r c =>
      obtain ⟨-, rfl, -, hs, -⟩ := releaseCore_effect h
      by_cases hd : d = c
      · subst hd
        obtain ⟨hj, -⟩ := hI j d (by simp only [load_cons, releaseW, and_self, if_true]; omega)
        rw [hslot, Option.some.injEq] at hj
        subst hj
        simp [jobDoneW, releaseW] at hpos hone
        omega
      · rw [hs, Function.update_of_ne hd, hslot]
    | abortCores i =>
      rw [abortCores_slot h, if_neg, hslot]
      intro hab
      simp only [Dev.aborts, Bool.and_eq_true, beq_iff_eq, hslot, Option.some.injEq] at hab
      obtain ⟨⟨-, rfl⟩, hn⟩ := hab
      simp [hentry] at hn
    | cancel i n =>
      rw [cancel_slot h, if_neg, hslot]
      rintro ⟨hlt, hi⟩
      rw [hslot, Option.some.injEq] at hi
      subst hi
      exact absurd (hG k n rfl d hlt hslot) hbusy.ne'
    | _ => rw [exec_slot rfl h, hslot]
  · have hw : a.writes k .irqEntry = false := by
      cases a with
      | irqEnter c => cases ha
      | pc g j c n => cases g <;> rfl
      | _ => rfl
    exact (congrFun (exec_get hw h) d).trans hentry

theorem occur {e : Occurrence} (hQ : Queued P s R) (hI : Serving s R)
    (h : Rknpu.occur P e s = some (s', p)) : Serving s' ((p : Multiset Stmt) + R) := by
  intro k d hpos
  rw [occur_slot h]
  rw [load_add, load_add, (occur_weights h k d).2.2.2, Nat.zero_add] at hpos
  by_cases hc : ∃ c, e = .completion c
  · obtain ⟨c, rfl⟩ := hc
    obtain ⟨j, n, -, hslot, rfl, -⟩ := completion_effect h
    have hentry : ∀ i e, (s'.jobs i).irqEntry e =
        if i = j ∧ e = c then true else (s.jobs i).irqEntry e := fun i e => by
      simp only [Rknpu.occur, Option.map_eq_some_iff] at h
      obtain ⟨⟨j', n'⟩, hr, he⟩ := h
      obtain ⟨-, hp⟩ := Prod.mk.inj he
      obtain rfl : j' = j := by simpa using hp
      cases he
      simp only [setJob_jobs]
      by_cases hi : i = j'
      · by_cases hec : e = c <;> simp [hi, hec]
      · simp [hi]
    by_cases hkd : j = k ∧ c = d
    · obtain ⟨rfl, rfl⟩ := hkd
      exact ⟨hslot, by simp [hentry]⟩
    · obtain ⟨hs, he⟩ := hI k d (by simpa [jobDoneW, hkd] using hpos)
      exact ⟨hs, by rw [hentry, he, ite_self]⟩
  · push Not at hc
    rw [occur_jobDoneW hc h, Nat.zero_add] at hpos
    obtain ⟨hs, he⟩ := hI k d hpos
    refine ⟨hs, ?_⟩
    have hget : Field.irqEntry.get (s'.jobs k) = Field.irqEntry.get (s.jobs k) :=
      occur_get (fun _ => (hQ.lt_jobNum (hQ.enqueued_of_slot hs)).ne) (fun c hce => absurd hce (hc c)) h
    exact (congrFun hget d).trans he

theorem reach (hW : ∀ s B e, G.env s B e → completionWorld.env s B e)
    (hG : ∀ s B a x, G.run s B a x → (cancelGuard P).run s B a x)
    (hC : Reach (driver P) G Dev.init C) : Serving C.shared C.pending :=
  hC.invariant_with
    (fun s B => Queued P s B ∧ Counts s B ∧ ∀ a ∈ B, a.handles = false) Serving
    (fun _ hC => ⟨Queued.reach hC, (completionWorld_honest hW).counts hC,
      completionWorld_handles hW hC⟩)
    (by simp [Serving])
    (fun s R a x s' p hJ hI hg h =>
      hI.exec hJ.2.1 (hJ.2.2 a (Multiset.mem_cons_self a R)) (hG _ _ _ _ hg) h)
    (fun _ _ _ _ _ hJ hI _ h => hI.occur hJ.1 h)

end Serving

end Rknpu

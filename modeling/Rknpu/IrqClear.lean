import Rknpu.Irq

namespace Rknpu

open Interleaving

/-- A handler that does not go on to `rknpu_job_done` finds nothing in `INT_STATUS` where it writes
`INT_CLEAR`. -/
def clearGuard : Guard Dev Stmt Int Occurrence where
  run s _ a _ := ∀ c e, a = .irqClear c e → (∀ j, e ≠ .done j) → s.status c = 0
  env _ _ _ := True

def readNote (s : Dev) : Stmt → Bool → Bool
  | .irqStatus _ c, _ => s.status c != 0
  | _, b => b

def readMachine (P : Platform) : Machine Dev (Stmt × Bool) Int Occurrence :=
  (driver P).noted readNote false

/-- A completed chunk shows in `INT_STATUS`, or a handler that has read it there is about to call
`rknpu_job_done`. -/
def KeepsCompletions (C : Conf Dev (Stmt × Bool)) : Prop :=
  ∀ c j, C.shared.engine c = .complete j ((C.shared.jobs j).submitCount c) →
    C.shared.status c ≠ 0 ∨ (.jobDone j 0 c, true) ∈ C.pending

def Visible (s : Dev) (B : Multiset Stmt) : Prop := ∀ c j, Ready s B c j → s.status c ≠ 0

variable {P : Platform} {s s' : Dev} {R : Multiset Stmt} {a : Stmt} {x : Int} {p : List Stmt}
  {C : Conf Dev (Stmt × Bool)} {e : Occurrence}

theorem ready_of_occur {c : Nat} {j : JobId} (hS : Served P s R)
    (hR : Ready s' ((p : Multiset Stmt) + R) c j) (heng : s'.engine c = s.engine c)
    (h : Rknpu.occur P e s = some (s', p)) : Ready s R c j := by
  obtain ⟨he, hz⟩ := hR
  rw [heng] at he
  rw [load_add] at hz
  have henq := (hS.counts.complete c j _ he).2.1
  exact ⟨by rw [he, hS.submitCount_occur henq h], by omega⟩

namespace Visible

theorem exec (hS : Served P s (a ::ₘ R)) (hI : Irqs s (a ::ₘ R)) (hV : Visible s (a ::ₘ R))
    (hG : clearGuard.run s (a ::ₘ R) a x) (h : Rknpu.exec P a x s = some (s', p)) :
    Visible s' ((p : Multiset Stmt) + R) := by
  intro c j hR
  have hready := ready_of_exec hS hR h
  have hne := hV c j hready
  rw [(exec_hardware hS.kind_head h).2 ?_ ?_]
  · exact hne
  · rintro i k rfl
    exact hready.not_working hS.queued hS.counts hS.slotted (i := i) (by simp [commitW])
  · rintro e rfl
    cases e with
    | done i =>
      have hi := hI.matched i c (Multiset.mem_cons_self _ R)
      have hij := hready.eq hS.queued hS.counts hS.slotted hi.active
      subst hij
      cases h
      simpa [jobDoneW] using hR.2
    | _ => exact hne (hG c _ rfl (by simp))

theorem occur (hS : Served P s R) (hV : Visible s R) (hG : irqWorld.env s R e)
    (h : Rknpu.occur P e s = some (s', p)) : Visible s' ((p : Multiset Stmt) + R) := by
  intro c j hR
  obtain ⟨heng, hst⟩ | ⟨d, i, bits, heng, -, hbits, -, hst⟩ := irqWorld_status hS hG h
  · rw [hst]
    exact hV c j (ready_of_occur hS hR (congrFun heng c) h)
  · rw [hst]
    split
    · exact fun hz => hbits (BitVec.or_eq_zero_iff.mp hz).2
    · rename_i hcd
      refine hV c j (ready_of_occur hS hR ?_ h)
      rw [heng, Function.update_of_ne hcd]

theorem reach {C : Conf Dev Stmt} (hC : Reach (driver P) (servedWorld.and clearGuard) Dev.init C) :
    Visible C.shared C.pending :=
  hC.invariant_with (fun s B => Served P s B ∧ Irqs s B) Visible
    (fun _ hC => ⟨Served.reach hC.left, Irqs.reach hC.left⟩) (by simp [Visible, Ready, Dev.init])
    (fun _ _ _ _ _ _ hJ hV hG h => hV.exec hJ.1 hJ.2 hG.2 h)
    (fun _ _ _ _ _ hJ hV hG h => hV.occur hJ.1 hG.1.1.1 h)

end Visible

/-- Who goes on to `rknpu_job_done` has read bits. -/
def Reads : Stmt → Bool → Prop
  | .irqCheck _ _ status, n => status ≠ 0 → n = true
  | .irqClear _ (.done _), n => n = true
  | .jobDone _ r _, n => r = 0 ∧ n = true
  | _, _ => True

theorem reads_exec {n : Bool} (hG : maskedGuard.run s R a x) (ha : Reads a n)
    (h : exec P a x s = some (s', p)) : ∀ b ∈ p, Reads b (readNote s a n) := by
  intro b hb
  cases b with
  | irqCheck j c status =>
    cases exec_flow h <;> simp at hb
    obtain ⟨rfl, rfl, rfl⟩ := hb
    cases h
    exact fun hne => bne_iff_ne.mpr hne
  | irqClear c e =>
    cases e with
    | done j =>
      cases exec_flow h <;> simp at hb
      obtain ⟨rfl, rfl⟩ := hb
      simp only [exec, irqCheck, Option.some.injEq] at h
      split at h <;> rename_i hw <;> cases h
      refine ha ?_
      rintro rfl
      exact hG _ _ 0 rfl fuzzStatus_zero ((not_not.mp hw).symm.trans fuzzStatus_zero)
    | _ => trivial
  | jobDone j r c =>
    cases exec_flow h <;> simp at hb
    obtain ⟨rfl, rfl, rfl⟩ := hb
    exact ⟨rfl, ha⟩
  | _ => trivial

/-- No completion is lost where a handler clears nothing that it has not read. -/
theorem keepsCompletions
    (hC : Reach (readMachine P) ((irqWorld.and maskedGuard).and clearGuard).noted Dev.init C) :
    KeepsCompletions C := by
  have hplain : Reach (driver P) ((irqWorld.and maskedGuard).and clearGuard) Dev.init C.plain :=
    hC.of_noted (fun _ _ _ _ h => h) fun _ _ _ h => h
  have hreads : ∀ a ∈ C.pending, Reads a.1 a.2 := by
    refine noted_all Reads (fun s B a n x s' q ha hG h => ?_) (fun s B e s' q hG h b hb => ?_) hC
    · exact reads_exec hG.1.2 ha h
    · obtain ⟨i, rfl⟩ | ⟨d, rfl | rfl⟩ := irqWorld_new hG.1.1 h b hb <;> trivial
  have hvisible := Visible.reach (served_of_masked hplain)
  intro c j heng
  by_cases hzero : load (jobDoneW j c) C.plain.pending = 0
  · exact .inl (hvisible c j ⟨heng, hzero⟩)
  · obtain ⟨b, hb, hpos⟩ := load_pos (jobDoneW j c) (Nat.pos_of_ne_zero hzero)
    rw [Conf.pending_plain] at hb
    obtain ⟨a, ha, rfl⟩ := Multiset.mem_map.mp hb
    obtain ⟨b, n⟩ := a
    have hn := hreads _ ha
    cases b with
    | jobDone i r d =>
      obtain ⟨rfl, rfl⟩ : i = j ∧ d = c := by
        by_contra hne
        simp [jobDoneW, hne] at hpos
      obtain ⟨rfl, rfl⟩ := hn
      exact .inr ha
    | _ => exact absurd hpos (lt_irrefl 0)

def clearTest (C : Conf Dev (Stmt × Bool)) (a : Stmt × Bool) : Bool :=
  maskedTest C.plain a.1 &&
    match a.1 with
    | .irqClear c .noJob | .irqClear c .invalid => C.shared.status c == 0
    | _ => true

theorem keepsCompletions_irqRun : ∃ C : Conf Dev (Stmt × Bool),
    C.shared.engine 0 = .complete 0 0 ∧ C.shared.status 0 = 0 ∧
      (.jobDone 0 0 0, true) ∈ C.pending := by
  obtain ⟨C, hC, ht⟩ := Reach.exists_of_steps (readMachine (board rk356xConfig))
    ((irqWorld.and maskedGuard).and clearGuard).noted Dev.init
    (irqRun 20 (Label.env (Occurrence.irq 0) :: List.replicate 5 (Label.run 1 0) ++
      [Label.env (Occurrence.hwComplete 0 0x300), .env (.irq 0)] ++
      List.replicate 4 (Label.run 3 0)))
    (fun C a _ => clearTest C a)
    (fun C => C.shared.engine 0 == .complete 0 0 && C.shared.status 0 == 0 &&
      (C.shared.jobs 0).submitCount 0 == 0)
    (fun C a x h => by
      obtain ⟨hmask, hclear⟩ := Bool.and_eq_true_iff.mp h
      refine ⟨maskedTest_run (C := C.plain) hmask, ?_⟩
      intro c e he hd
      rw [he] at hclear
      cases e with
      | done j => exact absurd rfl (hd j)
      | _ => exact beq_iff_eq.mp hclear)
    (fun e he _ _ => by
      simp [irqRun] at he
      obtain rfl | rfl | rfl | rfl := he <;> exact ⟨⟨trivial, trivial⟩, trivial⟩)
    (by decide +kernel)
  simp only [Bool.and_eq_true, beq_iff_eq] at ht
  obtain ⟨⟨heng, hstatus⟩, hcount⟩ := ht
  have hkeep := keepsCompletions hC 0 0 (by rw [heng, hcount])
  exact ⟨C, heng, hstatus, hkeep.resolve_left (not_not.mpr hstatus)⟩

/-- A completion after the status was read is cleared as what a spurious interrupt left. -/
theorem completion_cleared : ¬∀ (P : Platform) (C : Conf Dev (Stmt × Bool)),
    (∀ addr k, (P.kvAddr addr k).intMask ≠ 0) → Reach (readMachine P) irqWorld.noted Dev.init C →
      KeepsCompletions C := by
  intro hall
  obtain ⟨C, hC, ht⟩ := Reach.exists_of_steps (readMachine (board rk356xConfig)) irqWorld.noted
    Dev.init
    (irqRun 20 (Label.env (Occurrence.irq 0) :: List.replicate 3 (Label.run 1 0) ++
      [Label.env (Occurrence.hwComplete 0 0x300), .run 1 0])) (fun _ _ _ => true)
    (fun C => C.shared.engine 0 == .complete 0 0 && C.shared.status 0 == 0 &&
      (C.shared.jobs 0).submitCount 0 == 0 && !C.threads.flatten.contains (.jobDone 0 0 0, true))
    (fun _ _ _ _ => trivial)
    (fun e he _ _ => by
      simp [irqRun] at he
      obtain rfl | rfl | rfl := he <;> exact trivial)
    (by decide +kernel)
  simp only [Bool.and_eq_true, beq_iff_eq, Bool.not_eq_true', ← Bool.not_eq_true,
    List.contains_iff_mem] at ht
  obtain ⟨⟨⟨heng, hstatus⟩, hcount⟩, hnone⟩ := ht
  obtain hne | hmem := hall _ C (by simp [board]) hC 0 0 (by rw [heng, hcount])
  · exact hne hstatus
  · exact hnone hmem

end Rknpu

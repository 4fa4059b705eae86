import Rknpu.Domain

namespace Rknpu.Domain

open Interleaving

def attachesSucceed : Guard State Stmt Reply Occurrence where
  run _ _ a x := ((∃ n d src dst new, a = .attach n d src dst new) ∨ ∃ dom, a = .resetAttach dom) →
    x.ret = 0
  env _ _ _ := True

/-- `rknpu_iommu_switch_domain` attaches no domain while `rknpu_soft_reset` is to put
another one back. -/
def switchGuard : Guard State Stmt Reply Occurrence where
  run _ B a _ := ∀ n d src dst new, a = .attach n d src dst new →
    ∀ dom, .resetDetach dom ∈ B ∨ .resetAttach dom ∈ B → dom = dst
  env _ _ _ := True

def Stmt.outside : Stmt → Bool
  | .returned _ _ _ | .put _ _ => true
  | _ => false

def Stmt.attaches : Stmt → Bool
  | .attach _ _ _ _ _ | .resetAttach _ => true
  | _ => false

def Stmt.recording : Stmt → Option Nat
  | .switchId _ _ dst _ | .switchTable _ _ dst => some dst
  | _ => none

def Target (s : State) (B : Multiset Stmt) (o : Option Nat) : Prop :=
  (∃ a ∈ B, ∃ dst, a.recording = some dst ∧ o = some dst) ∨
    (∀ a ∈ B, a.recording = none) ∧ o = s.domains s.pin.id

def resetW : Stmt → Nat
  | .resetDomain | .resetDetach _ | .resetAttach _ | .resetEnd => 1
  | _ => 0

/-- The domain that a switch found in the table, and has not yet recorded. -/
def Stmt.existing : Stmt → Option (Int × Nat)
  | .detach _ d _ dst false | .attach _ d _ dst false | .switchId _ d dst false => some (d, dst)
  | _ => none

/-- The attach of `rknpu_iommu_switch_domain`. -/
def Stmt.switching : Stmt → Bool
  | .attach _ _ _ _ _ => true
  | _ => false

def Stmt.restores : Stmt → Option Nat
  | .resetDetach dom | .resetAttach dom => some dom
  | _ => none

/-- The device is attached, or going to be attached, to the domain that is recorded. -/
structure Agreed (s : State) (B : Multiset Stmt) : Prop where
  attached : (∀ a ∈ B, a.attaches = false) → Target s B s.attached
  reset : (∀ a ∈ B, a.switching = false) →
    ∀ dom, ∀ a ∈ B, a.restores = some dom → Target s B (some dom)
  existing : ∀ a ∈ B, ∀ d dst, a.existing = some (d, dst) → s.domains d = some dst

variable {P : Probe} {G : Guard State Stmt Reply Occurrence} {C : Conf State Stmt} {dom : Nat}
  {s s' : State} {B R : Multiset Stmt} {a : Stmt} {x : Reply} {p : List Stmt}

/-- `reset_lock` is held by exactly one reset. -/
theorem load_resetW (hC : Reach (machine P) G (State.init P dom) C) :
    (if C.shared.resetLock then 1 else 0 : Int) = load resetW C.pending := by
  refine Reach.balance resetW (fun s => if s.resetLock then 1 else 0) (fun _ => True)
    (fun _ _ _ _ => trivial) (by rfl) ?_ ?_ hC
  · intro s a x s' p _ hle h
    replace h : exec P a x s = some (s', p) := h
    have hlock : resetW a = 1 → s.resetLock := fun ha => by
      by_contra hn
      rw [if_neg hn] at hle
      omega
    cases a <;> simp only [exec, switchDomain, Option.some.injEq] at h
    all_goals
      repeat' split at h
      all_goals
        cases h <;> simp_all [resetW]
  · intro s e s' p h
    obtain ⟨d, rfl, rfl⟩ | ⟨rfl, rfl⟩ := occur_threads h <;> simp [resetW]

def Stmt.still : Stmt → Bool
  | .detach _ _ _ _ _ | .attach _ _ _ _ _ | .reattach _ _ _ _ | .switchId _ _ _ _
  | .switchTable _ _ _ | .resetDomain | .resetDetach _ | .resetAttach _ => false
  | _ => true

theorem exec_still (ha : a.still) (h : exec P a x s = some (s', p)) :
    s'.attached = s.attached ∧ s'.domains = s.domains ∧ s'.pin.id = s.pin.id ∧
      (∀ b ∈ p, b.recording = none ∧ b.restores = none) ∧
      ∀ b ∈ p, ∀ d dst, b.existing = some (d, dst) → s.domains d = some dst := by
  cases a <;> simp only [Stmt.still, Bool.false_eq_true] at ha <;>
    simp only [exec, switchDomain, Option.some.injEq] at h
  all_goals
    repeat' split at h
    all_goals
      cases h <;> simp_all [Stmt.recording, Stmt.restores, Stmt.existing, Pin.put]

theorem lockW_of_recording {dst : Nat} (h : a.recording = some dst) : lockW a = 1 := by
  cases a <;> first | rfl | cases h

theorem lockW_of_existing {d : Int} {dst : Nat} (h : a.existing = some (d, dst)) :
    lockW a = 1 := by
  cases a <;> first | rfl | cases h

theorem switching_of_attaches (h : a.attaches = false) : a.switching = false := by
  cases a <;> first | rfl | cases h

theorem not_attaches (hs : a.switching = false) (hr : a.restores = none) : a.attaches = false := by
  cases a <;> simp_all [Stmt.attaches, Stmt.switching, Stmt.restores]

theorem restores_cases (h : a.restores = some dom) : a = .resetDetach dom ∨ a = .resetAttach dom := by
  cases a <;> cases h
  · exact .inl rfl
  · exact .inr rfl

theorem outside_quiet (h : a.outside) : a.attaches = false ∧ a.recording = none := by
  cases a <;> first | exact ⟨rfl, rfl⟩ | cases h

section Remaining

theorem before_of_after {K : Stmt → Prop} (ha : K a) (h : ∀ b ∈ (p : Multiset Stmt) + R, K b) :
    ∀ b ∈ a ::ₘ R, K b := fun b hb => by
  rcases Multiset.mem_cons.mp hb with rfl | hb
  · exact ha
  · exact h b (Multiset.mem_add.mpr (.inr hb))

theorem after_of {K : Stmt → Prop} (hp : ∀ b ∈ p, K b) (hR : ∀ b ∈ R, K b) :
    ∀ b ∈ (p : Multiset Stmt) + R, K b := fun b hb => by
  rcases Multiset.mem_add.mp hb with hb | hb
  · exact hp b (by simpa using hb)
  · exact hR b hb

end Remaining

theorem resetW_of_restores (h : a.restores = some dom) : resetW a = 1 := by
  cases a <;> first | rfl | cases h

namespace Agreed

theorem target_mono {o : Option Nat} (hT : Target s (a ::ₘ R) o) (ha : a.recording = none)
    (hp : ∀ b ∈ p, b.recording = none) (hid : s'.domains s'.pin.id = s.domains s.pin.id) :
    Target s' ((p : Multiset Stmt) + R) o := by
  rcases hT with ⟨b, hb, dst, hdst, ho⟩ | ⟨hnone, ho⟩
  · rcases Multiset.mem_cons.mp hb with rfl | hb
    · rw [ha] at hdst
      cases hdst
    · exact .inl ⟨b, Multiset.mem_add.mpr (.inr hb), dst, hdst, ho⟩
  · exact .inr ⟨after_of hp fun b hb => hnone b (Multiset.mem_cons_of_mem hb), ho.trans hid.symm⟩

theorem target_recording {o : Option Nat} {dst : Nat} (ha : a.recording = some dst)
    (hR : ∀ b ∈ R, b.recording = none) (hT : Target s (a ::ₘ R) o) : o = some dst := by
  rcases hT with ⟨b, hb, dst', hdst, ho⟩ | ⟨hall, -⟩
  · rcases Multiset.mem_cons.mp hb with rfl | hb
    · rw [ha] at hdst
      exact ho.trans hdst.symm
    · rw [hR b hb] at hdst
      cases hdst
  · rw [hall a (Multiset.mem_cons_self a R)] at ha
    cases ha

theorem step (hI : Agreed s (a ::ₘ R)) (ha : a.attaches = false)
    (htarget : ∀ o, Target s (a ::ₘ R) o → Target s' ((p : Multiset Stmt) + R) o)
    (hatt : s'.attached = s.attached) (hp : ∀ b ∈ p, b.restores = none)
    (hex : ∀ b ∈ (p : Multiset Stmt) + R, ∀ d dst, b.existing = some (d, dst) →
      s'.domains d = some dst) : Agreed s' ((p : Multiset Stmt) + R) := by
  constructor
  case attached =>
    intro hall
    rw [hatt]
    exact htarget _ (hI.attached (before_of_after ha hall))
  case reset =>
    intro hall dom b hb hdom
    refine htarget _ (hI.reset (before_of_after ?_ hall) dom b ?_ hdom)
    · exact switching_of_attaches ha
    · rcases Multiset.mem_add.mp hb with hb | hb
      · rw [hp b (by simpa using hb)] at hdom
        cases hdom
      · exact Multiset.mem_cons_of_mem hb
  case existing => exact hex

theorem still (hI : Agreed s (a ::ₘ R)) (ha : a.still) (h : Domain.exec P a x s = some (s', p)) :
    Agreed s' ((p : Multiset Stmt) + R) := by
  obtain ⟨hatt, hdom, hid, hp, hex⟩ := exec_still ha h
  have hrec : a.recording = none := by cases a <;> first | rfl | cases ha
  have hnot : a.attaches = false := by cases a <;> first | rfl | cases ha
  refine hI.step hnot (fun o hT => target_mono hT hrec (fun b hb => (hp b hb).1) (by rw [hdom, hid]))
    hatt (fun b hb => (hp b hb).2) ?_
  rw [hdom]
  exact after_of hex fun b hb => hI.existing b (Multiset.mem_cons_of_mem hb)

/-- Whoever records has `domain_lock`. -/
theorem recording_none (hlock : load lockW (a ::ₘ R) ≤ 1) (ha : lockW a = 1) :
    ∀ b ∈ R, b.recording = none ∧ b.existing = none := fun b hb => by
  have hz := load_all_eq_zero lockW hlock ha b hb
  refine ⟨Option.eq_none_iff_forall_ne_some.mpr fun dst hd => ?_,
    Option.eq_none_iff_forall_ne_some.mpr fun q hd => ?_⟩
  · rw [lockW_of_recording hd] at hz
    cases hz
  · rw [lockW_of_existing (show b.existing = some (q.1, q.2) from hd)] at hz
    cases hz

/-- Whoever restores has `reset_lock`. -/
theorem restores_none (hreset : load resetW (a ::ₘ R) ≤ 1) (ha : resetW a = 1) :
    ∀ b ∈ R, b.restores = none := fun b hb => by
  have hz := load_all_eq_zero resetW hreset ha b hb
  refine Option.eq_none_iff_forall_ne_some.mpr fun dom hd => ?_
  rw [resetW_of_restores hd] at hz
  cases hz

theorem rest (hI : Agreed s (a ::ₘ R)) : ∀ b ∈ R, ∀ d dst, b.existing = some (d, dst) →
    s.domains d = some dst := fun b hb => hI.existing b (Multiset.mem_cons_of_mem hb)

/-- The reset reads the domain where no switch is about to attach another one. -/
theorem resetDomain (hreset : load resetW (.resetDomain ::ₘ R) ≤ 1)
    (hI : Agreed s (.resetDomain ::ₘ R)) (h : Domain.exec P .resetDomain x s = some (s', p)) :
    Agreed s' ((p : Multiset Stmt) + R) := by
  have hnone := restores_none hreset rfl
  simp only [Domain.exec] at h
  repeat' split at h
  all_goals cases h
  case h_1.refl dom hdom =>
    have hatt : s.attached = some dom := by
      split at hdom
      · exact hdom
      · cases hdom
    have hmono : ∀ {o}, Target s (.resetDomain ::ₘ R) o →
        Target s ((([.resetDetach dom] : List Stmt) : Multiset Stmt) + R) o := fun hT =>
      target_mono hT rfl (by simp [Stmt.recording]) rfl
    refine ⟨fun hall => hmono (hI.attached (before_of_after rfl hall)), fun hall dom' b hb hdom' => ?_,
      after_of (by simp [Stmt.existing]) hI.rest⟩
    rcases Multiset.mem_add.mp hb with hb | hb
    · obtain rfl : b = _ := by simpa using hb
      cases hdom'
      rw [← hatt]
      refine hmono (hI.attached fun b hb => ?_)
      rcases Multiset.mem_cons.mp hb with rfl | hb
      · rfl
      · exact not_attaches (hall b (Multiset.mem_add.mpr (.inr hb))) (hnone b hb)
    · rw [hnone b hb] at hdom'
      cases hdom'
  all_goals
    exact hI.step rfl (fun o hT => target_mono hT rfl (by simp [Stmt.recording]) rfl) rfl
      (by simp [Stmt.restores]) (after_of (by simp [Stmt.existing]) hI.rest)

theorem resetDetach (hreset : load resetW (.resetDetach dom ::ₘ R) ≤ 1)
    (hI : Agreed s (.resetDetach dom ::ₘ R))
    (h : Domain.exec P (.resetDetach dom) x s = some (s', p)) :
    Agreed s' ((p : Multiset Stmt) + R) := by
  cases h
  have hm : Stmt.resetAttach dom ∈ (([.resetAttach dom] : List Stmt) : Multiset Stmt) + R := by simp
  refine ⟨fun hall => absurd (hall _ hm) (by simp [Stmt.attaches]), fun hall dom' b hb hdom => ?_,
    after_of (by simp [Stmt.existing]) hI.rest⟩
  rcases Multiset.mem_add.mp hb with hb | hb
  · obtain rfl : b = _ := by simpa using hb
    exact target_mono (hI.reset (before_of_after rfl hall) dom' _ (Multiset.mem_cons_self _ _) hdom)
      rfl (by simp [Stmt.recording]) rfl
  · rw [restores_none hreset rfl b hb] at hdom
    cases hdom

theorem resetAttach (hreset : load resetW (.resetAttach dom ::ₘ R) ≤ 1)
    (hI : Agreed s (.resetAttach dom ::ₘ R)) (hz : x.ret = 0)
    (h : Domain.exec P (.resetAttach dom) x s = some (s', p)) :
    Agreed s' ((p : Multiset Stmt) + R) := by
  simp only [Domain.exec, if_pos hz] at h
  cases h
  refine ⟨fun hall => ?_, fun _ dom' b hb hdom => ?_, after_of (by simp [Stmt.existing]) hI.rest⟩
  · refine target_mono (hI.reset (before_of_after (p := [.resetEnd]) rfl fun b hb => ?_) dom _
      (Multiset.mem_cons_self _ _) rfl) rfl (by simp [Stmt.recording]) rfl
    have := hall b hb
    cases b <;> first | rfl | cases this
  · rcases Multiset.mem_add.mp hb with hb | hb
    · obtain rfl : b = _ := by simpa using hb
      cases hdom
    · rw [restores_none hreset rfl b hb] at hdom
      cases hdom

theorem exec (hlock : load lockW (a ::ₘ R) ≤ 1) (hreset : load resetW (a ::ₘ R) ≤ 1)
    (hP : Pinned s (a ::ₘ R)) (hre : ∀ n d src ret, a ≠ .reattach n d src ret)
    (hG : (attachesSucceed.and switchGuard).run s (a ::ₘ R) a x) (hI : Agreed s (a ::ₘ R))
    (h : Domain.exec P a x s = some (s', p)) : Agreed s' ((p : Multiset Stmt) + R) := by
  by_cases hstill : a.still
  · exact hI.still hstill h
  have hself := Multiset.mem_cons_self a R
  have hexR := hI.rest
  cases a <;> simp only [Stmt.still, not_true_eq_false] at hstill
  case detach n d src dst new =>
    cases h
    have hex := hI.existing _ hself
    have hm : Stmt.attach n d src dst new ∈
        (([.attach n d src dst new] : List Stmt) : Multiset Stmt) + R := by
      simp
    refine ⟨fun hall => absurd (hall _ hm) (by simp [Stmt.attaches]),
      fun hall => absurd (hall _ hm) (by simp [Stmt.switching]), after_of ?_ hexR⟩
    intro b hb d' dst' hd
    obtain rfl : b = _ := by simpa using hb
    exact hex d' dst' (by cases new <;> exact hd)
  case attach n d src dst new =>
    have hz : x.ret = 0 := hG.1 (.inl ⟨n, d, src, dst, new, rfl⟩)
    have hdoms := hG.2 n d src dst new rfl
    have hex := hI.existing _ hself
    simp only [Domain.exec, if_pos hz, Option.some.injEq] at h
    cases h
    have hT : Target { s with attached := some dst }
        ((([.switchId n d dst new] : List Stmt) : Multiset Stmt) + R) (some dst) :=
      .inl ⟨.switchId n d dst new, by simp, dst, rfl, rfl⟩
    refine ⟨fun _ => hT, fun _ dom b hb hdom => ?_, after_of ?_ hexR⟩
    · rcases Multiset.mem_add.mp hb with hb | hb
      · obtain rfl : b = _ := by simpa using hb
        cases hdom
      · have hdd : dom = dst := by
          refine hdoms dom ?_
          obtain rfl | rfl := restores_cases hdom
          · exact .inl (Multiset.mem_cons_of_mem hb)
          · exact .inr (Multiset.mem_cons_of_mem hb)
        rw [hdd]
        exact hT
    · intro b hb d' dst' hd
      obtain rfl : b = _ := by simpa using hb
      exact hex d' dst' (by cases new <;> exact hd)
  case reattach n d src ret => exact absurd rfl (hre n d src ret)
  case switchId n d dst new =>
    have hR := recording_none hlock rfl
    have hex := hI.existing _ hself
    cases h
    refine hI.step rfl (fun o hT => ?_) rfl (by cases new <;> simp [Stmt.restores]) (after_of ?_ hexR)
    · rw [target_recording rfl (fun b hb => (hR b hb).1) hT]
      cases new
      · exact .inr ⟨after_of (by simp [Stmt.recording]) fun b hb => (hR b hb).1, (hex d dst rfl).symm⟩
      · exact .inl ⟨.switchTable n d dst, by simp, dst, rfl, rfl⟩
    · cases new <;> simp [Stmt.existing]
  case switchTable n d dst =>
    have hR := recording_none hlock rfl
    have hid : s.pin.id = d := hP.selected _ hself d rfl
    cases h
    refine hI.step rfl (fun o hT => ?_) rfl (by simp [Stmt.restores])
      (after_of (by simp [Stmt.existing]) ?_)
    · rw [target_recording rfl (fun b hb => (hR b hb).1) hT]
      refine .inr ⟨after_of (by simp [Stmt.recording]) fun b hb => (hR b hb).1, ?_⟩
      change some dst = Function.update s.domains d (some dst) s.pin.id
      rw [hid, Function.update_self]
    · intro b hb d' dst' hd
      rw [(hR b hb).2] at hd
      cases hd
  case resetDomain => exact hI.resetDomain hreset h
  case resetDetach dom => exact hI.resetDetach hreset h
  case resetAttach dom => exact hI.resetAttach hreset (hG.1 (.inr ⟨dom, rfl⟩)) h

theorem reach (hC : Reach (machine P) (attachesSucceed.and switchGuard) (State.init P dom) C) :
    Agreed C.shared C.pending := by
  have hre : ∀ C, Reach (machine P) (attachesSucceed.and switchGuard) (State.init P dom) C →
      ∀ a ∈ C.pending, ∀ n d src ret, a ≠ .reattach n d src ret := fun C hC => by
    refine hC.pending_all (fun a => ∀ n d src ret, a ≠ .reattach n d src ret) ?_ ?_
    · intro s B a x s' p _ hG h b hb n d src ret
      replace h : Domain.exec P a x s = some (s', p) := h
      rintro rfl
      cases a <;> simp only [Domain.exec, switchDomain, Option.some.injEq] at h
      case attach =>
        rw [if_pos (hG.1 (.inl ⟨_, _, _, _, _, rfl⟩))] at h
        cases h
        simp at hb
      all_goals
        repeat' split at h
        all_goals
          cases h <;> simp at hb
    · intro s B e s' p _ h
      obtain ⟨d, rfl, -⟩ | ⟨rfl, -⟩ := occur_threads h <;> simp
  refine hC.invariant_with
    (fun s B => load lockW B ≤ 1 ∧ load resetW B ≤ 1 ∧ Pinned s B ∧
      ∀ a ∈ B, ∀ n d src ret, a ≠ .reattach n d src ret) Agreed ?_ ?_ ?_ ?_
  · intro C hC
    have hr := load_resetW hC
    refine ⟨load_lockW_le_one hC, ?_, Pinned.reach hC, hre C hC⟩
    split at hr <;> omega
  · refine ⟨fun _ => .inr ⟨by simp, ?_⟩, by simp, by simp⟩
    simp [State.init]
  · rintro s R a x s' p ⟨hl, hr, hP, hn⟩ hI hG h
    exact hI.exec hl hr hP (hn a (Multiset.mem_cons_self a R)) hG h
  · intro s R e s' p _ hI _ h
    have hT : ∀ {p : List Stmt} {s' : State} {o}, (∀ b ∈ p, b.recording = none) →
        s'.domains s'.pin.id = s.domains s.pin.id → Target s R o →
        Target s' ((p : Multiset Stmt) + R) o := by
      rintro p s' o hp hid (⟨b, hb, hd⟩ | ⟨hall, ho⟩)
      · exact .inl ⟨b, Multiset.mem_add.mpr (.inr hb), hd⟩
      · exact .inr ⟨after_of hp hall, ho.trans hid.symm⟩
    obtain ⟨d, rfl, rfl⟩ | ⟨rfl, rfl⟩ := occur_threads h
    all_goals
      refine ⟨fun hall => hT (by simp [Stmt.recording]) rfl
        (hI.attached fun b hb => hall b (Multiset.mem_add.mpr (.inr hb))), ?_,
        after_of (by simp [Stmt.existing]) hI.existing⟩
      intro hall dom b hb hdom
      rcases Multiset.mem_add.mp hb with hb | hb
      · obtain rfl : b = _ := by simpa using hb
        cases hdom
      · exact hT (by simp [Stmt.recording]) rfl
          (hI.reset (fun b hb => hall b (Multiset.mem_add.mpr (.inr hb))) dom b hb hdom)

end Agreed

/-- Where no thread is in one of the functions, the device is attached to the domain that
`iommu_domain_id` selects. -/
theorem domain_agrees
    (hC : Reach (machine P) (attachesSucceed.and switchGuard) (State.init P dom) C)
    (hout : ∀ a ∈ C.pending, a.outside) :
    C.shared.attached = C.shared.domains C.shared.pin.id := by
  have hall : ∀ a ∈ C.pending, a.attaches = false ∧ a.recording = none := fun a ha =>
    outside_quiet (hout a ha)
  rcases (Agreed.reach hC).attached fun a ha => (hall a ha).1 with ⟨a, ha, dst, hd, -⟩ | ⟨-, h⟩
  · rw [(hall a ha).2] at hd
    cases hd
  · exact h

def resetRun : List (Label Reply Occurrence) :=
  [Label.env (Occurrence.get 1)] ++ switchRun 0 ++ [Label.env Occurrence.softReset] ++
    List.replicate 5 (Label.run 1 ⟨0, some 5⟩)

theorem domain_agrees_resetRun : ∃ C : Conf State Stmt, C.shared.pin.id = 1 ∧
    C.shared.attached = C.shared.domains 1 := by
  obtain ⟨C, hC, ht⟩ := Reach.exists_of_steps (machine ⟨true, true, false⟩)
    (attachesSucceed.and switchGuard) (State.init ⟨true, true, false⟩ 4) resetRun
    (fun C a x => x.ret == 0 && match a with
      | .attach _ _ _ _ _ => C.threads.flatten.all fun b => b.restores == none
      | _ => true)
    (fun C => C.threads == [[.put 0 1], []] && C.shared.pin.id == 1)
    (fun C a x h => by
      simp only [Bool.and_eq_true, beq_iff_eq] at h
      refine ⟨fun _ => h.1, ?_⟩
      rintro n d src dst new rfl dom hdom
      have hall := List.all_eq_true.mp h.2
      rcases hdom with hdom | hdom
      · cases hall _ (Multiset.mem_coe.mp hdom)
      · cases hall _ (Multiset.mem_coe.mp hdom))
    (fun _ _ _ _ => ⟨trivial, trivial⟩) (by decide +kernel)
  simp only [Bool.and_eq_true, beq_iff_eq] at ht
  have hout : ∀ a ∈ C.pending, a.outside := by
    rw [Conf.pending, ht.1]
    simp [Stmt.outside]
  have := domain_agrees hC hout
  rw [ht.2] at this
  exact ⟨C, ht.2, this⟩

/-- A reset reads the domain, another thread switches to a new one, and the reset puts back
the one it has read. -/
def staleRun : List (Label Reply Occurrence) :=
  [Label.env Occurrence.softReset, .env (.get 1)] ++ List.replicate 2 (Label.run 0 ⟨0, none⟩) ++
    switchRun 1 ++
    List.replicate 3 (Label.run 0 ⟨0, some 5⟩)

theorem reset_disagrees : ¬∀ (P : Probe) (dom : Nat) (C : Conf State Stmt),
    Reach (machine P) attachesSucceed (State.init P dom) C → (∀ a ∈ C.pending, a.outside) →
      C.shared.attached = C.shared.domains C.shared.pin.id := by
  intro hall
  obtain ⟨C, hC, ht⟩ := Reach.exists_of_steps (machine ⟨true, true, false⟩) attachesSucceed
    (State.init ⟨true, true, false⟩ 4) staleRun
    (fun _ _ x => x.ret == 0)
    (fun C => C.threads == [[], [.put 0 1]] && C.shared.attached == some 4 &&
      C.shared.domains C.shared.pin.id == some 5)
    (fun C a x h _ => by simpa using h) (fun _ _ _ _ => trivial) (by decide +kernel)
  simp only [Bool.and_eq_true, beq_iff_eq] at ht
  have := hall _ _ C hC (by
    rw [Conf.pending, ht.1.1]
    simp [Stmt.outside])
  rw [ht.1.2, ht.2] at this
  cases this

end Rknpu.Domain

import Rknpu.References
import Rknpu.Domain

namespace Rknpu

open Interleaving

namespace Isolation

variable (P : Platform)

/-- The driver, and `iommu_domain_id` and `iommu_domain_refcount` as its calls see them. -/
structure State where
  dev : Dev
  pin : Pin

inductive Stmt where
  | drv (a : Rknpu.Stmt)
  | gemGet (d : Int) (tries : Nat) (destroy : Bool)
  | gemPut (d : Int)
deriving DecidableEq

def Stmt.driver : Stmt → Option Rknpu.Stmt
  | .drv a => some a
  | _ => none

def State.init : State := ⟨Dev.init, ⟨0, 0⟩⟩

/-- `job->iommu_domain_id` -/
def domainOf (s : Dev) (j : JobId) : Int := toInt (s.jobs j).args.iommuDomainId

/-- What a statement of the driver does to the pinned domain: the statement of
`rknpu_job_schedule` waits for its domain, unless it gives up with an error. -/
def pinned (s : State) (a : Rknpu.Stmt) (x : Int) : Option Pin :=
  match a with
  | .domainGet j => if x = 0 then s.pin.get (domainOf s.dev j) else some s.pin
  | .donePut _ _ _ | .jobAbort _ => some s.pin.put
  | _ => some s.pin

/-- `rknpu_gem_destroy_ioctl` holds the domain while it releases the object, which may get
it once more. -/
def exec (a : Stmt) (x : Int) (s : State) : Option (State × List Stmt) :=
  match a with
  | .drv a =>
    (pinned s a x).bind fun pin =>
      (Rknpu.exec P a x s.dev).map fun r => (⟨r.1, pin⟩, r.2.map .drv)
  | .gemGet d tries destroy =>
    if x = 0 then
      (s.pin.get d).map fun pin =>
        ({ s with pin := pin }, if destroy then [.gemGet d 3 false, .gemPut d] else [.gemPut d])
    else some (s, if 1 < tries then [.gemGet d (tries - 1) destroy] else [])
  | .gemPut _ => some ({ s with pin := s.pin.put }, [])

inductive Occurrence where
  | drv (e : Rknpu.Occurrence)
  /-- `rknpu_gem_object_create`, `rknpu_gem_sync_ioctl` or `RKNPU_SET_IOMMU_DOMAIN_ID`. -/
  | useDomain (d : Int)
  /-- `rknpu_gem_object_destroy` -/
  | objectDestroy (d : Int)
  /-- `rknpu_gem_destroy_ioctl` -/
  | destroyIoctl (d : Int)

def occur (e : Occurrence) (s : State) : Option (State × List Stmt) :=
  match e with
  | .drv e => (Rknpu.occur P e s.dev).map fun r => ({ s with dev := r.1 }, r.2.map .drv)
  | .useDomain d => some (s, [.gemGet d 1 false])
  | .objectDestroy d => some (s, [.gemGet d 3 false])
  | .destroyIoctl d => some (s, [.gemGet d 3 true])

def machine : Machine State Stmt Int Occurrence := ⟨exec P, occur P⟩

def driverGuard (G : Guard Dev Rknpu.Stmt Int Rknpu.Occurrence) : Guard State Stmt Int Occurrence where
  run s B a x := ∀ b, a = .drv b → G.run s.dev (B.filterMap Stmt.driver) b x
  env s B e := ∀ o, e = .drv o → G.env s.dev (B.filterMap Stmt.driver) o

variable {P} {G : Guard Dev Rknpu.Stmt Int Rknpu.Occurrence} {C : Conf State Stmt}

/-- The part of a run that the driver takes is one of its runs. -/
theorem reach_driver (hG : ∀ s B, G.env s B (.tick 0))
    (hC : Reach (machine P) (driverGuard G) State.init C) :
    Reach (driver P) G Dev.init (C.view State.dev Stmt.driver) := by
  refine Reach.view State.dev Stmt.driver ?_ ?_ hC
  · intro s B a x s' p hG h
    cases a with
    | drv b =>
      simp only [machine, exec, Option.bind_eq_some_iff, Option.map_eq_some_iff] at h
      obtain ⟨pin, -, r, hr, he⟩ := h
      cases he
      exact ⟨x, hG b rfl, by rw [filterMap_embed (f := Stmt.drv) fun _ => rfl]; exact hr⟩
    | gemGet d tries destroy =>
      simp only [machine, exec] at h
      split at h
      · simp only [Option.map_eq_some_iff] at h
        obtain ⟨pin, -, he⟩ := h
        cases he
        exact ⟨rfl, by cases destroy <;> rfl⟩
      · cases h
        refine ⟨rfl, ?_⟩
        split <;> rfl
    | gemPut d =>
      cases h
      exact ⟨rfl, rfl⟩
  · intro s B e s' p hG' h
    cases e with
    | drv o =>
      simp only [machine, occur, Option.map_eq_some_iff] at h
      obtain ⟨r, hr, he⟩ := h
      cases he
      exact ⟨o, hG' o rfl, by rw [filterMap_embed (f := Stmt.drv) fun _ => rfl]; exact hr⟩
    | _ =>
      cases h
      exact ⟨.tick 0, hG _ _, by simp [driver, Rknpu.occur, Stmt.driver]⟩

def gemW : Stmt → Nat
  | .gemPut _ => 1
  | _ => 0

def gotJobs (l : List Event) : List JobId :=
  l.filterMap fun | .domainGet j => some j | _ => none

def putJobs (l : List Event) : List JobId :=
  l.filterMap fun | .domainPut j => some j | _ => none

theorem gotJobs_append (l l' : List Event) : gotJobs (l ++ l') = gotJobs l ++ gotJobs l' :=
  List.filterMap_append

theorem putJobs_append (l l' : List Event) : putJobs (l ++ l') = putJobs l ++ putJobs l' :=
  List.filterMap_append

theorem count_gotJobs (l : List Event) (j : JobId) : (gotJobs l).count j = l.count (.domainGet j) :=
  count_filterMap_event l fun e => by cases e <;> simp

theorem count_putJobs (l : List Event) (j : JobId) : (putJobs l).count j = l.count (.domainPut j) :=
  count_filterMap_event l fun e => by cases e <;> simp

def Holds (s : Dev) (j : JobId) : Prop := (putJobs s.log).count j < (gotJobs s.log).count j

/-- `iommu_domain_refcount` counts the jobs and GEM calls that hold the domain, and
`iommu_domain_id` is the domain of each of them. -/
structure Pinned (s : State) (B : Multiset Stmt) : Prop where
  refs : s.pin.refs + (putJobs s.dev.log).length = (gotJobs s.dev.log).length + load gemW B
  job : ∀ j, Holds s.dev j → s.pin.id = domainOf s.dev j
  gem : ∀ d, .gemPut d ∈ B → s.pin.id = d

theorem Pin.get_eq {q q' : Pin} {d : Int} (h : q.get d = some q') :
    q' = ⟨d, q.refs + 1⟩ ∧ (d = q.id ∨ q.refs = 0) := by
  unfold Pin.get at h
  split at h
  · rename_i hd
    exact ⟨(Option.some.inj h).symm, hd.imp_right And.left⟩
  · cases h

section Driver

variable {t : Dev} {b : Rknpu.Stmt} {x : Int} {p : List Rknpu.Stmt} {j : JobId} {s : State} {q : Pin}

theorem pinned_effect (hq : pinned s b x = some q) (h : Rknpu.exec P b x s.dev = some (t, p)) :
    (∃ j, s.pin.get (domainOf s.dev j) = some q ∧ gotJobs t.log = gotJobs s.dev.log ++ [j] ∧
      putJobs t.log = putJobs s.dev.log) ∨
    (∃ j, q = s.pin.put ∧ gotJobs t.log = gotJobs s.dev.log ∧
      putJobs t.log = putJobs s.dev.log ++ [j]) ∨
    (q = s.pin ∧ gotJobs t.log = gotJobs s.dev.log ∧ putJobs t.log = putJobs s.dev.log) := by
  have hsame : (∀ j, b.logs (.domainGet j) = false ∧ b.logs (.domainPut j) = false) →
      gotJobs t.log = gotJobs s.dev.log ∧ putJobs t.log = putJobs s.dev.log := fun hb => by
    obtain ⟨es, hl, hes⟩ := exec_logs h
    have hg : gotJobs es = [] := List.filterMap_eq_nil_iff.mpr fun e he => by
      have := hes e he
      cases e <;> simp_all
    have hp : putJobs es = [] := List.filterMap_eq_nil_iff.mpr fun e he => by
      have := hes e he
      cases e <;> simp_all
    rw [hl, gotJobs_append, putJobs_append, hg, hp, List.append_nil, List.append_nil]
    exact ⟨rfl, rfl⟩
  cases b with
  | domainGet j =>
    simp only [Rknpu.exec, domainGet, Option.some.injEq] at h
    simp only [pinned] at hq
    split at h <;> cases h <;> rename_i hx
    · rw [if_pos hx] at hq
      exact .inl ⟨j, hq, by simp [gotJobs, Dev.record], by simp [putJobs, Dev.record]⟩
    · rw [if_neg hx] at hq
      cases hq
      exact .inr (.inr ⟨rfl, rfl, rfl⟩)
  | donePut j r n =>
    cases hq
    cases h
    exact .inr (.inl ⟨j, rfl, by simp [gotJobs, Dev.record], by simp [putJobs, Dev.record]⟩)
  | jobAbort j =>
    cases hq
    cases h
    exact .inr (.inl ⟨j, rfl, by simp [gotJobs, Dev.record], by simp [putJobs, Dev.record]⟩)
  | pc g j c k =>
    cases hq
    exact .inr (.inr ⟨rfl, hsame fun j => by cases g <;> exact ⟨rfl, rfl⟩⟩)
  | _ =>
    cases hq
    exact .inr (.inr ⟨rfl, hsame fun j => ⟨rfl, rfl⟩⟩)

theorem exec_domainOf {s : Dev} (h : Rknpu.exec P b x s = some (t, p)) (j : JobId) :
    domainOf t j = domainOf s j := by
  have : (t.jobs j).args.iommuDomainId = (s.jobs j).args.iommuDomainId :=
    exec_get (f := .domain) (by cases b <;> first | rfl | (rename_i g _ _ _; cases g <;> rfl)) h
  rw [domainOf, this, domainOf]

theorem occur_jobs {s : Dev} {o : Rknpu.Occurrence} (h : Rknpu.occur P o s = some (t, p)) :
    gotJobs t.log = gotJobs s.log ∧ putJobs t.log = putJobs s.log := by
  obtain ⟨es, hl, hes⟩ := occur_logs h
  have hg : gotJobs es = [] := List.filterMap_eq_nil_iff.mpr fun e he => by
    obtain ⟨c, j, k, rfl⟩ := hes e he
    rfl
  have hp : putJobs es = [] := List.filterMap_eq_nil_iff.mpr fun e he => by
    obtain ⟨c, j, k, rfl⟩ := hes e he
    rfl
  rw [hl, gotJobs_append, putJobs_append, hg, hp, List.append_nil, List.append_nil]
  exact ⟨rfl, rfl⟩

end Driver

namespace Pinned

variable {s s' : State} {B R : Multiset Stmt} {a : Stmt} {x : Int} {p : List Stmt} {j : JobId}

def Covered (s : Dev) : Prop := ∀ j, (putJobs s.log).count j ≤ (gotJobs s.log).count j

theorem free (hI : Pinned s B) (hle : Covered s.dev) (hz : s.pin.refs = 0) :
    (∀ j, ¬Holds s.dev j) ∧ ∀ d, .gemPut d ∉ B := by
  have hsub : (putJobs s.dev.log).Subperm (gotJobs s.dev.log) := List.subperm_iff_count.mpr hle
  have hlen := hsub.length_le
  have hrefs := hI.refs
  refine ⟨fun j hj => ?_, fun d hd => ?_⟩
  · have hperm := hsub.perm_of_length_le (by omega)
    have := hperm.count_eq j
    unfold Holds at hj
    omega
  · have := le_load gemW hd
    simp only [gemW] at this
    omega

theorem exec (hle : Covered s.dev)
    (hI : Pinned s (a ::ₘ R)) (h : Isolation.exec P a x s = some (s', p)) :
    Pinned s' ((p : Multiset Stmt) + R) := by
  have hgem : ∀ d, .gemPut d ∈ R → s.pin.id = d := fun d hd =>
    hI.gem d (Multiset.mem_cons_of_mem hd)
  have hrefs := hI.refs
  have hfree := hI.free hle
  rw [load_cons] at hrefs
  cases a with
  | drv b =>
    simp only [Isolation.exec, Option.bind_eq_some_iff, Option.map_eq_some_iff] at h
    obtain ⟨q, hq, ⟨t, l⟩, ht, he⟩ := h
    cases he
    have hl : load gemW ((l.map Stmt.drv : List Stmt) : Multiset Stmt) = 0 :=
      load_eq_zero _ fun b hb => by
        obtain ⟨c, -, rfl⟩ := List.mem_map.mp (Multiset.mem_coe.mp hb)
        rfl
    have hin : ∀ d, .gemPut d ∈ ((l.map Stmt.drv : List Stmt) : Multiset Stmt) + R →
        .gemPut d ∈ R := fun d hd => by simpa using hd
    have hdom := exec_domainOf ht
    rcases pinned_effect hq ht with ⟨i, hget, hg, hp⟩ | ⟨i, rfl, hg, hp⟩ | ⟨rfl, hg, hp⟩
    · obtain ⟨rfl, hd⟩ := Pin.get_eq hget
      refine ⟨?_, fun k hk => ?_, fun d hm => ?_⟩
      · simp only [hg, hp, load_add, hl, List.length_append, List.length_singleton]
        simp only [gemW] at hrefs
        omega
      · rw [hdom]
        by_cases hik : i = k
        · rw [hik]
        · have hold : Holds s.dev k := by simpa [Holds, hg, hp, hik] using hk
          rcases hd with hd | hz
          · rw [hd, hI.job k hold]
          · exact absurd hold ((hfree hz).1 k)
      · rcases hd with hd | hz
        · rw [hd, hgem d (hin d hm)]
        · exact absurd (Multiset.mem_cons_of_mem (hin d hm)) ((hfree hz).2 d)
    · refine ⟨?_, fun k hk => ?_, fun d hm => hgem d (hin d hm)⟩
      · simp only [hg, hp, load_add, hl, List.length_append, List.length_singleton, Pin.put]
        simp only [gemW] at hrefs
        omega
      · rw [hdom]
        refine hI.job k ?_
        rw [Holds, hg, hp, List.count_append] at hk
        unfold Holds
        omega
    · refine ⟨?_, fun k hk => ?_, fun d hm => hgem d (hin d hm)⟩
      · simp only [hg, hp, load_add, hl]
        simpa [gemW] using hrefs
      · rw [hdom]
        exact hI.job k (by rwa [Holds, hg, hp] at hk)
  | gemGet d tries destroy =>
    simp only [Isolation.exec] at h
    split at h
    · simp only [Option.map_eq_some_iff] at h
      obtain ⟨q, hget, he⟩ := h
      cases he
      obtain ⟨rfl, hd⟩ := Pin.get_eq hget
      have hl : load gemW (((if destroy then [.gemGet d 3 false, .gemPut d] else [.gemPut d] :
          List Stmt)) : Multiset Stmt) = 1 := by
        cases destroy <;> rfl
      refine ⟨?_, fun k hk => ?_, fun e hm => ?_⟩
      · simp only [load_add, hl]
        simp only [gemW] at hrefs
        omega
      · rcases hd with hd | hz
        · exact hd.trans (hI.job k hk)
        · exact absurd hk ((hfree hz).1 k)
      · rcases Multiset.mem_add.mp hm with hm | hm
        · cases destroy <;> simp at hm <;> exact hm.symm
        · rcases hd with hd | hz
          · exact hd.trans (hgem e hm)
          · exact absurd (Multiset.mem_cons_of_mem hm) ((hfree hz).2 e)
    · cases h
      refine ⟨?_, hI.job, fun e hm => hgem e ?_⟩
      · split <;> simpa [gemW] using hrefs
      · split at hm <;> simpa using hm
  | gemPut d =>
    cases h
    refine ⟨?_, hI.job, fun e hm => hgem e (by simpa using hm)⟩
    simp only [gemW] at hrefs
    simp [Pin.put]
    omega

theorem occur {e : Occurrence}
    (hnew : ∀ j, s.dev.jobNum ≤ j → s.dev.log.count (.domainGet j) = 0) (hI : Pinned s R)
    (h : Isolation.occur P e s = some (s', p)) :
    Pinned s' ((p : Multiset Stmt) + R) := by
  have hgem : (∀ d, .gemPut d ∉ p) → ∀ d, .gemPut d ∈ (p : Multiset Stmt) + R → s.pin.id = d :=
    fun hp d hd => hI.gem d ((Multiset.mem_add.mp hd).resolve_left (by simpa using hp d))
  have hrefs := hI.refs
  cases e with
  | drv o =>
    simp only [Isolation.occur, Option.map_eq_some_iff] at h
    obtain ⟨⟨t, l⟩, ht, he⟩ := h
    cases he
    have hl : load gemW ((l.map Stmt.drv : List Stmt) : Multiset Stmt) = 0 :=
      load_eq_zero _ fun b hb => by
        obtain ⟨c, -, rfl⟩ := List.mem_map.mp (Multiset.mem_coe.mp hb)
        rfl
    obtain ⟨hg, hp⟩ := occur_jobs ht
    refine ⟨?_, fun k hk => ?_, hgem (by simp)⟩
    · simpa only [hg, hp, load_add, hl, Nat.zero_add] using hrefs
    · have hold : Holds s.dev k := by rwa [Holds, hg, hp] at hk
      have hk : k < s.dev.jobNum := Nat.lt_of_not_le fun hc => by
        have := hnew k hc
        unfold Holds at hold
        rw [count_gotJobs] at hold
        omega
      have hdom : (t.jobs k).args.iommuDomainId = (s.dev.jobs k).args.iommuDomainId :=
        occur_get (f := .domain) (fun _ => Nat.ne_of_lt hk) (by simp) ht
      rw [hI.job k hold, domainOf, domainOf, hdom]
  | _ =>
    cases h
    exact ⟨by simpa [gemW] using hrefs, hI.job, hgem (by simp)⟩

theorem init : Pinned State.init 0 := by
  constructor <;> simp [State.init, Dev.init, gotJobs, putJobs, Holds]

theorem reach (hrun : ∀ s B a x, G.run s B a x → endsOnce.run s B a x)
    (henv : ∀ s B e, G.env s B e → submitted e) (htick : ∀ s B, G.env s B (.tick 0))
    (hC : Reach (machine P) (driverGuard G) State.init C) : Pinned C.shared C.pending := by
  refine hC.invariant_with
    (fun s B => Queued P s.dev (B.filterMap Stmt.driver) ∧
      References s.dev (B.filterMap Stmt.driver)) Pinned ?_ init ?_ ?_
  · intro C hC
    have hD := reach_driver htick hC
    have hQ := Queued.reach hD
    have hF := References.reach hrun henv hD
    rw [Conf.pending_view] at hQ hF
    exact ⟨hQ, hF⟩
  · rintro s R a x s' p ⟨-, hF⟩ hI - h
    exact hI.exec (fun j => by rw [count_gotJobs, count_putJobs]; exact hF.put_le_get j) h
  · rintro s R e s' p ⟨hQ, hF⟩ hI - h
    refine hI.occur (P := P) (fun j hj => ?_) h
    have hle := load_mono (f := enqueueW j) (g := preW j) (B := R.filterMap Stmt.driver)
      fun a _ => (enqueueW_le_scheduleW j a).trans (scheduleW_le_preW j a)
    have := hQ.fresh j hj
    have := hF.got j
    omega

end Pinned

/-- A job gets its domain at most once, puts it no more often, and has put it as often as it
got it when it is over; without jobs and GEM calls the count is zero. -/
structure Balanced (C : Conf State Stmt) : Prop where
  put : ∀ j, C.shared.dev.log.count (.domainPut j) ≤ C.shared.dev.log.count (.domainGet j) ∧
    C.shared.dev.log.count (.domainGet j) ≤ 1
  ended : ∀ j, .drv (.jobFree j) ∈ C.pending ∨ .free j ∈ C.shared.dev.log →
    C.shared.dev.log.count (.domainPut j) = C.shared.dev.log.count (.domainGet j)
  zero : (∀ j < C.shared.dev.jobNum, .free j ∈ C.shared.dev.log) → (∀ d, .gemPut d ∉ C.pending) →
    C.shared.pin.refs = 0

theorem references_balanced
    (hC : Reach (machine P) (driverGuard returnsOnce) State.init C) : Balanced C := by
  have hrun : ∀ s B a x, returnsOnce.run s B a x → endsOnce.run s B a x := fun _ _ _ _ => And.left
  have henv : ∀ s B e, returnsOnce.env s B e → submitted e := fun _ _ _ => And.left
  have htick : ∀ s B, returnsOnce.env s B (.tick 0) := fun _ _ =>
    ⟨by simp [endsOnce, submitted], trivial⟩
  have hD := reach_driver htick hC
  have hQ := Queued.reach hD
  have hF := References.reach hrun henv hD
  have hR := Returned.reach (fun _ _ _ _ h => h) henv hD
  have hP := Pinned.reach hrun henv htick hC
  rw [Conf.pending_view] at hQ hF hR
  change Queued P C.shared.dev _ at hQ
  change References C.shared.dev _ at hF
  have hended : ∀ j, .drv (.jobFree j) ∈ C.pending ∨ .free j ∈ C.shared.dev.log →
      C.shared.dev.log.count (.domainPut j) = C.shared.dev.log.count (.domainGet j) := fun j hj =>
    Returned.put_eq_get hQ hF hR (hj.imp_left fun hj =>
      (Multiset.mem_filterMap _ _).mpr ⟨_, hj, rfl⟩)
  refine ⟨fun j => ⟨hF.put_le_get j, References.get_le_one hQ (hF.got j)⟩, hended,
    fun hfree hgem => ?_⟩
  have hperm : (putJobs C.shared.dev.log).Perm (gotJobs C.shared.dev.log) :=
    List.perm_iff_count.mpr fun j => by
      rw [count_gotJobs, count_putJobs]
      by_cases hj : j < C.shared.dev.jobNum
      · exact hended j (.inr (hfree j hj))
      · have hle := load_mono (f := enqueueW j) (g := preW j)
          (B := C.pending.filterMap Stmt.driver)
          fun a _ => (enqueueW_le_scheduleW j a).trans (scheduleW_le_preW j a)
        have := hQ.fresh j (Nat.le_of_not_lt hj)
        have := hF.got j
        have := hF.put_le_get j
        omega
  have hz : load gemW C.pending = 0 := load_eq_zero _ fun a ha => by
    cases a with
    | gemPut d => exact absurd ha (hgem d)
    | _ => rfl
  have := hP.refs
  have := hperm.length_eq
  omega

def balancedRun : List (Label Int Occurrence) :=
  [Label.env (Occurrence.drv (.submit (oneTask 1 1)))] ++ List.replicate 25 (Label.run 0 0) ++
    [Label.env (Occurrence.drv (.completion 0))] ++ List.replicate 12 (Label.run 1 0) ++
    [Label.run 0 1] ++
    List.replicate 7 (Label.run 0 0) ++ [Label.env (Occurrence.useDomain 1), .run 2 0, .run 2 0]

def returns (C : Conf State Stmt) (a : Stmt) (x : Int) : Bool :=
  match a with
  | .drv (.irqClear _ _) | .drv (.jobAbort _) | .drv (.cancelWork _ _) | .drv (.drainWork _ _) =>
    false
  | .drv (.domainGet _) => x == 0
  | .drv (.interruptDec j _ _) => !C.shared.dev.log.contains (.domainPut j)
  | .drv (.submitResult j) => (C.shared.dev.jobs j).done
  | _ => true

theorem returnsOnce_of_returns {b : Rknpu.Stmt} {x : Int} {B : Multiset Rknpu.Stmt}
    (h : returns C (.drv b) x) : returnsOnce.run C.shared.dev B b x := by
  refine ⟨⟨fun c j hj => ?_, fun j hj => ?_, fun j hj => ?_, fun j r c hj _ => ?_⟩, fun j hj => ?_⟩
  · simp [hj, returns] at h
  · simpa [hj, returns] using h
  · simp [hj, returns] at h
  · simpa [hj, returns] using h
  · obtain ⟨rfl, -⟩ | ⟨i, rfl | rfl⟩ := hj
    · simpa [returns] using h
    · simp [returns] at h
    · simp [returns] at h

theorem references_balanced_balancedRun : ∃ C : Conf State Stmt,
    C.shared.dev.log.count (.domainGet 0) = 1 ∧ C.shared.dev.log.count (.domainPut 0) = 1 ∧
      C.shared.pin = ⟨1, 0⟩ := by
  obtain ⟨C, hC, ht⟩ := Reach.exists_of_steps (machine (board rk356xConfig))
    (driverGuard returnsOnce) State.init balancedRun
    returns
    (fun C => C.threads == [[], [], []] && C.shared.dev.jobNum == 1 &&
      C.shared.dev.log.contains (.free 0) && C.shared.pin.id == 1 &&
      C.shared.dev.log.count (.domainGet 0) == 1)
    (fun C a x h b hb => returnsOnce_of_returns (hb ▸ h))
    (fun e he _ _ o ho => by
      subst ho
      simp [balancedRun] at he
      rcases he with rfl | rfl <;> simp [returnsOnce, Guard.and, endsOnce, submitted])
    (by decide +kernel)
  simp only [Bool.and_eq_true, beq_iff_eq] at ht
  obtain ⟨⟨⟨⟨ht, hn⟩, hfree⟩, hid⟩, hget⟩ := ht
  have hfree : .free 0 ∈ C.shared.dev.log := by simpa using hfree
  obtain ⟨-, hended, hzero⟩ := references_balanced hC
  have hrefs := hzero (fun j hj => by
    obtain rfl : j = 0 := by omega
    exact hfree) (by simp [Conf.pending, ht])
  exact ⟨C, hget, (hended 0 (.inr hfree)).trans hget, by rw [← hid, ← hrefs]⟩

/-- A nonblocking job whose domain cannot be got. -/
def unpinnedRun : List (Label Int Occurrence) :=
  [Label.env (Occurrence.drv (.submit (oneTask 3 1)))] ++ List.replicate 6 (Label.run 0 0) ++
    [Label.run 0 1, .run 0 0, .run 0 0]

theorem abort_unbalances : ¬∀ (P : Platform) (C : Conf State Stmt),
    Reach (machine P) (driverGuard (.events submitted)) State.init C → Balanced C := by
  intro hall
  obtain ⟨C, hC, ht⟩ := Reach.exists_of_steps (machine (board rk356xConfig))
    (driverGuard (.events submitted)) State.init unpinnedRun
    (fun _ _ _ => true)
    (fun C => C.shared.dev.log.count (.domainPut 0) == 1 &&
      C.shared.dev.log.count (.domainGet 0) == 0)
    (fun _ _ _ _ _ _ => trivial) (fun e he _ _ o ho => by
      subst ho
      simp [unpinnedRun] at he
      subst he
      simp [Guard.events, submitted]) (by decide +kernel)
  simp only [Bool.and_eq_true, beq_iff_eq] at ht
  have := ((hall _ C hC).put 0).1
  omega

end Isolation

end Rknpu

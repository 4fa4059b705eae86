import Rknpu.Domain

namespace Rknpu

namespace ObjectDomain

open Interleaving

/-- Of `struct rknpu_gem_object` its field `iommu_domain_id`, and while it has a mapping the
value that the field of the device had when the mapping was made; whether the object was
returned to its user, and whether its last reference is gone. -/
structure Object where
  iommuDomainId : Int
  mapped : Option Int
  born : Bool
  dropped : Bool

/-- A mapping that was removed: the domain that was current then and when it was made, and
the one that the object has recorded. -/
structure Removal where
  current : Int
  made : Int
  recorded : Int

structure State where
  dom : Domain.State
  objects : Nat → Object
  count : Nat
  removed : List Removal

def State.init (P : Domain.Probe) (dom : Nat) : State where
  dom := Domain.State.init P dom
  objects _ := ⟨0, none, false, false⟩
  count := 0
  removed := []

def State.setObject (s : State) (o : Nat) (b : Object) : State :=
  { s with objects := Function.update s.objects o b }

/-- The mapping of an object is removed in the domain that is current. -/
def State.unmap (s : State) (o : Nat) : State :=
  let b := s.objects o
  { s.setObject o { b with mapped := none } with
    removed := b.mapped.toList.map (⟨s.dom.pin.id, ·, b.iommuDomainId⟩) ++ s.removed }

/-- Who calls `rknpu_iommu_domain_get_and_switch`; the number is `wait_count`. -/
inductive Caller where
  | use
  | create (o : Nat)
  | destroy (o waitCount : Nat)
deriving DecidableEq

inductive Stmt where
  | get (r : Caller) (a : Domain.Stmt)
  -- rknpu_gem_object_create, where the domain is selected, and what it takes back on an error
  | alloc (o : Nat) (d : Int)
  | release (o : Nat) (d : Int)
  -- rknpu_gem_object_destroy
  | free (o : Nat) (d : Int)
  | again (o : Nat) (d : Int) (waitCount : Nat)
  -- the mapping that DRM imports, rknpu_gem_prime_import_sg_table, and where that fails what
  -- DRM does with its mapping
  | attach (o : Nat)
  | importSgTable (o : Nat)
  | failUnmap (o : Nat)
deriving DecidableEq

variable (P : Domain.Probe)

/-- What the caller does when `rknpu_iommu_domain_get_and_switch` returns. -/
def Caller.returned : Caller → Int → Int → List Stmt
  | .use, _, _ => []
  | .create o, d, ret => if ret = 0 then [.alloc o d] else []
  | .destroy o waitCount, d, ret =>
    if ret = 0 then [.free o d]
    else if waitCount + 1 < 3 then [.again o d (waitCount + 1)]
    else []

def Caller.after (r : Caller) : Domain.Stmt → List Stmt
  | .returned _ d ret => r.returned d ret
  | _ => []

/-- A call of `rknpu_iommu_domain_get_and_switch` begins. -/
def getAndSwitch (s : State) (r : Caller) (d : Int) : Option (State × List Stmt) :=
  (Domain.occur (.get d) s.dom).map fun t => ({ s with dom := t.1 }, t.2.map (.get r))

def exec (a : Stmt) (x : Domain.Reply) (s : State) : Option (State × List Stmt) :=
  match a with
  | .get r a =>
    (Domain.exec P a x s.dom).map fun t =>
      ({ s with dom := t.1 }, r.after a ++ t.2.map (.get r))
  | .alloc o d =>
    some (s.setObject o ⟨d, some s.dom.pin.id, x.ret = 0, false⟩,
      if x.ret = 0 then [] else [.release o d])
  | .release o _ | .free o _ => some (s.unmap o, [])
  | .again o d waitCount => getAndSwitch s (.destroy o waitCount) d
  -- the object is zeroed, and nothing selects or records a domain
  | .attach o => some (s.setObject o ⟨0, some s.dom.pin.id, false, false⟩, [.importSgTable o])
  | .importSgTable o =>
    if x.ret = 0 then some (s.setObject o { s.objects o with born := true }, [])
    else some (s, [.failUnmap o])
  | .failUnmap o => some (s.unmap o, [])

inductive Occurrence where
  | create (d : Int)
  | primeImport
  /-- The last reference of the object is dropped. -/
  | destroy (o : Nat)
  | switch (d : Int)
  | softReset

def occur (e : Occurrence) (s : State) : Option (State × List Stmt) :=
  match e with
  | .create d => getAndSwitch { s with count := s.count + 1 } (.create s.count) d
  | .primeImport => some ({ s with count := s.count + 1 }, [.attach s.count])
  | .destroy o =>
    let b := s.objects o
    if b.born && !b.dropped then
      getAndSwitch (s.setObject o { b with dropped := true }) (.destroy o 0) b.iommuDomainId
    else none
  | .switch d => getAndSwitch s .use d
  | .softReset =>
    (Domain.occur .softReset s.dom).map fun t => ({ s with dom := t.1 }, t.2.map (.get .use))

def machine : Machine State Stmt Domain.Reply Occurrence := ⟨exec P, occur⟩

/-- Buffers are imported only while the domain is the one that an object is born with, and so
are those that DRM unmaps again as the import fails. -/
def importGuard : Guard State Stmt Domain.Reply Occurrence where
  run s _ a _ := ∀ o, a = .attach o ∨ a = .failUnmap o → s.dom.pin.id = 0
  env _ _ _ := True

def Stmt.driver : Stmt → Option Domain.Stmt
  | .get _ a => some a
  | _ => none

/-- The domain that a statement of `rknpu_iommu_domain_get_and_switch` is called for. -/
def wanted : Domain.Stmt → Option Int
  | .lock _ d | .check _ d | .refcount _ d | .inc _ d | .unlock _ d | .fail _ d _ | .retry _ d
  | .timeout _ d | .switchDomain _ d | .source _ d | .dest _ d _ | .alloc _ d _
  | .detach _ d _ _ _ | .attach _ d _ _ _ | .reattach _ d _ _ | .switchId _ d _ _
  | .switchTable _ d _ | .returned _ d _ | .put _ d => some d
  | _ => none

def putting : Domain.Stmt → Bool
  | .put _ _ => true
  | _ => false

def Stmt.needs : Stmt → Option Int
  | .alloc _ d | .release _ d | .free _ d => some d
  | _ => none

def Stmt.destroys : Stmt → Option (Nat × Int)
  | .get (.destroy o _) a => (wanted a).map (o, ·)
  | .free o d | .again o d _ => some (o, d)
  | _ => none

/-- The object that is mapped and not yet returned, with the domain that it records. -/
def Stmt.bears : Stmt → Option (Nat × Int)
  | .release o d => some (o, d)
  | .importSgTable o | .failUnmap o => some (o, 0)
  | _ => none

def birthW (o : Nat) : Stmt → Nat
  | .get (.create o') a => if o' = o ∧ putting a = false then 1 else 0
  | .alloc o' _ | .release o' _ | .attach o' | .importSgTable o' | .failUnmap o' =>
    if o' = o then 1 else 0
  | _ => 0

variable {P} {s s' : State} {a : Stmt} {x : Domain.Reply} {p : List Stmt} {B R : Multiset Stmt}
  {G : Guard State Stmt Domain.Reply Occurrence} {C : Conf State Stmt} {dom : Nat} {r : Caller}

theorem exec_single {t t' : Domain.State} {a : Domain.Stmt} {q : List Domain.Stmt}
    (h : Domain.exec P a x t = some (t', q)) :
    q = [] ∨ ∃ b, q = [b] ∧ wanted b = wanted a ∧ putting a = false ∧
      (putting b → ∃ n d, a = .returned n d 0 ∧ b = .put n d) := by
  cases a <;> simp only [Domain.exec, Domain.switchDomain, Option.some.injEq] at h
  all_goals
    repeat' split at h
    all_goals
      cases h <;>
        first
          | exact .inl rfl
          | exact .inr ⟨_, rfl, rfl, rfl, fun hb => (Bool.false_ne_true hb).elim⟩
          | exact .inr ⟨_, rfl, rfl, rfl, fun _ => ⟨_, _, congrArg _ ‹_›, rfl⟩⟩

inductive Follows (r : Caller) (a : Domain.Stmt) : List Stmt → Prop
  | done : Follows r a []
  | next (b : Domain.Stmt) (hb : wanted b = wanted a) (ha : putting a = false)
      (hput : putting b → r = .use) :
      Follows r a [.get r b]
  | alloc (o n : Nat) (d : Int) (hr : r = .create o) (ha : a = .returned n d 0) :
      Follows r a [.alloc o d, .get r (.put n d)]
  | free (o k n : Nat) (d : Int) (hr : r = .destroy o k) (ha : a = .returned n d 0) :
      Follows r a [.free o d, .get r (.put n d)]
  | again (o k n : Nat) (d ret : Int) (hr : r = .destroy o k) (ha : a = .returned n d ret) :
      Follows r a [.again o d (k + 1)]

theorem exec_get {a : Domain.Stmt} (h : exec P (.get r a) x s = some (s', p)) :
    ∃ t q, Domain.exec P a x s.dom = some (t, q) ∧ s' = { s with dom := t } ∧
      p = r.after a ++ q.map (.get r) := by
  obtain ⟨⟨t, q⟩, ht, he⟩ := Option.map_eq_some_iff.mp h
  cases he
  exact ⟨t, q, ht, rfl, rfl⟩

theorem follows {a : Domain.Stmt} (h : exec P (.get r a) x s = some (s', p)) : Follows r a p := by
  obtain ⟨t, q, ht, -, rfl⟩ := exec_get h
  by_cases hret : ∃ n d ret, a = .returned n d ret
  · obtain ⟨n, d, ret, rfl⟩ := hret
    cases ht
    by_cases hz : ret = 0
    · subst hz
      cases r with
      | use => exact .next (.put n d) rfl rfl fun _ => rfl
      | create o => exact .alloc o n d rfl rfl
      | destroy o k => exact .free o k n d rfl rfl
    · rw [if_neg hz, List.map_nil, List.append_nil]
      cases r with
      | use => exact .done
      | create o =>
        rw [Caller.after, Caller.returned, if_neg hz]
        exact .done
      | destroy o k =>
        rw [Caller.after, Caller.returned, if_neg hz]
        split
        · exact .again o k n d ret rfl rfl
        · exact .done
  · have hafter : r.after a = [] := by
      cases a <;> first | rfl | exact absurd ⟨_, _, _, rfl⟩ hret
    rw [hafter, List.nil_append]
    rcases exec_single ht with rfl | ⟨b, rfl, hb, hpa, hput⟩
    · exact .done
    · refine .next b hb hpa fun hp => ?_
      obtain ⟨n, d, ha, -⟩ := hput hp
      exact absurd ⟨n, d, 0, ha⟩ hret

/-- A thread that has to use the domain keeps its reference until after that. -/
inductive Shape : List Stmt → Prop
  | nil : Shape []
  | one (b : Stmt) (hb : b.needs = none) : Shape [b]
  | holds (b : Stmt) (d : Int) (r : Caller) (n : Nat) (hb : b.needs = some d) :
      Shape [b, .get r (.put n d)]

theorem getAndSwitch_eq {d : Int} (h : getAndSwitch s r d = some (s', p)) :
    s' = { s with dom := { s.dom with calls := s.dom.calls + 1 } } ∧
      p = [.get r (.lock s.dom.calls d)] := by
  cases h
  exact ⟨rfl, rfl⟩

theorem shape_exec {k : List Stmt} (hT : Shape (a :: k)) (h : exec P a x s = some (s', p)) :
    Shape (p ++ k) := by
  cases hT with
  | one b hb =>
    rw [List.append_nil]
    cases a with
    | get r a =>
      cases follows h with
      | done => exact .nil
      | next b => exact .one _ rfl
      | alloc o n d => exact .holds _ d r n rfl
      | free o k n d => exact .holds _ d r n rfl
      | again o k n d => exact .one _ rfl
    | alloc o d | release o d | free o d => cases hb
    | again o d k =>
      rw [(getAndSwitch_eq h).2]
      exact .one _ rfl
    | attach o => cases h; exact .one _ rfl
    | importSgTable o =>
      simp only [exec] at h
      split at h
      · cases h; exact .nil
      · cases h; exact .one _ rfl
    | failUnmap o => cases h; exact .nil
  | holds b d r n hb =>
    cases a with
    | alloc o d' =>
      cases h
      cases hb
      split
      · exact .one _ rfl
      · exact .holds _ d r n rfl
    | release o d | free o d => cases h; exact .one _ rfl
    | _ => cases hb

theorem occur_threads {e : Occurrence} (h : occur e s = some (s', p)) :
    (∃ r d, p = [.get r (.lock s.dom.calls d)] ∧
        s'.dom = { s.dom with calls := s.dom.calls + 1 }) ∨
      p = [.get .use .softReset] ∧ s' = s ∨
      p = [.attach s.count] ∧ s' = { s with count := s.count + 1 } := by
  cases e with
  | create d => cases h; exact .inl ⟨_, _, rfl, rfl⟩
  | primeImport => cases h; exact .inr (.inr ⟨rfl, rfl⟩)
  | destroy o =>
    simp only [occur] at h
    split at h
    · cases h; exact .inl ⟨_, _, rfl, rfl⟩
    · cases h
  | switch d => cases h; exact .inl ⟨_, _, rfl, rfl⟩
  | softReset => cases h; exact .inr (.inl ⟨rfl, rfl⟩)

theorem shapes (hC : Reach (machine P) G (State.init P dom) C) : ∀ t ∈ C.threads, Shape t := by
  refine hC.threads_all Shape (fun _ _ _ _ _ _ _ hT _ h => shape_exec hT h) ?_
  intro s B e s' p _ h
  obtain ⟨r, d, rfl, -⟩ | ⟨rfl, -⟩ | ⟨rfl, -⟩ := occur_threads h <;> exact .one _ rfl

/-- Where the domain is used a reference is held. -/
theorem held (hC : Reach (machine P) G (State.init P dom) C) :
    ∀ b ∈ C.pending, ∀ d, b.needs = some d → ∃ r n, .get r (.put n d) ∈ C.pending := by
  intro b hb d hd
  obtain ⟨t, ht, hbt⟩ := List.mem_flatten.mp (Multiset.mem_coe.mp hb)
  have hmem : ∀ b' ∈ t, b' ∈ C.pending := fun b' hb' =>
    Multiset.mem_coe.mpr (List.mem_flatten.mpr ⟨t, ht, hb'⟩)
  cases shapes hC t ht with
  | nil => cases hbt
  | one b' hb' =>
    obtain rfl := List.mem_singleton.mp hbt
    rw [hb'] at hd
    cases hd
  | holds b' d' r n hb' =>
    rcases List.mem_pair.mp hbt with rfl | rfl
    · rw [hb', Option.some.injEq] at hd
      subst hd
      exact ⟨r, n, hmem _ (by simp)⟩
    · cases hd

theorem filterMap_after (r : Caller) (a : Domain.Stmt) :
    (r.after a).filterMap Stmt.driver = [] := by
  cases a <;> try rfl
  cases r <;> simp only [Caller.after, Caller.returned] <;> repeat' split
  all_goals rfl

theorem Kept.reach (hC : Reach (machine P) G (State.init P dom) C) :
    Domain.Kept C.shared.dom (C.pending.filterMap Stmt.driver) := by
  refine hC.invariant (fun s B => Domain.Kept s.dom (B.filterMap Stmt.driver)) Domain.Kept.init ?_ ?_
  · intro s R a x s' p hI _ h
    replace h : exec P a x s = some (s', p) := h
    rw [Multiset.filterMap_add, Multiset.filterMap_coe]
    cases a with
    | get r a =>
      obtain ⟨t, q, ht, rfl, rfl⟩ := exec_get h
      rw [Multiset.filterMap_cons_some Stmt.driver _ R rfl] at hI
      rw [List.filterMap_append, filterMap_after, filterMap_embed (f := Stmt.get r) fun _ => rfl]
      exact hI.exec ht
    | again o d k =>
      obtain ⟨rfl, rfl⟩ := getAndSwitch_eq h
      rw [Multiset.filterMap_cons_none _ R rfl] at hI
      exact hI.occur (e := .get d) rfl
    | alloc o d =>
      cases h
      rw [Multiset.filterMap_cons_none _ R rfl] at hI
      split <;> exact (zero_add (Multiset.filterMap Stmt.driver R)).symm ▸ hI
    | importSgTable o =>
      simp only [ObjectDomain.exec] at h
      rw [Multiset.filterMap_cons_none _ R rfl] at hI
      split at h <;> cases h <;> exact (zero_add (Multiset.filterMap Stmt.driver R)).symm ▸ hI
    | _ =>
      cases h
      rw [Multiset.filterMap_cons_none _ R rfl] at hI
      exact (zero_add (Multiset.filterMap Stmt.driver R)).symm ▸ hI
  · intro s R e s' p hI _ h
    replace h : occur e s = some (s', p) := h
    rw [Multiset.filterMap_add, Multiset.filterMap_coe]
    obtain ⟨r, d, rfl, hd⟩ | ⟨rfl, rfl⟩ | ⟨rfl, rfl⟩ := occur_threads h
    · rw [hd]
      exact hI.occur (e := .get d) rfl
    · exact hI.occur (e := .softReset) rfl
    · exact (zero_add (Multiset.filterMap Stmt.driver R)).symm ▸ hI

/-- Every mapping was made in the domain that its object has recorded, and is removed there. -/
structure Recorded (s : State) (B : Multiset Stmt) : Prop where
  birth : ∀ o, load (birthW o) B + (if (s.objects o).born then 1 else 0) ≤ 1
  fresh : ∀ o, s.count ≤ o → load (birthW o) B = 0 ∧ (s.objects o).born = false
  destroys : ∀ b ∈ B, ∀ o d, b.destroys = some (o, d) →
    (s.objects o).born ∧ (s.objects o).iommuDomainId = d
  bears : ∀ b ∈ B, ∀ o d, b.bears = some (o, d) → (s.objects o).iommuDomainId = d
  mapped : ∀ o m, (s.objects o).mapped = some m → (s.objects o).iommuDomainId = m
  removed : ∀ r ∈ s.removed, r.current = r.made ∧ r.made = r.recorded

theorem Follows.births {a : Domain.Stmt} (h : Follows r a p) (o : Nat) :
    load (birthW o) (p : Multiset Stmt) ≤ birthW o (.get r a) := by
  cases h with
  | done => simp
  | next b hb ha hput =>
    cases r with
    | create o' =>
      have hnot : putting b = false := by
        by_contra hp
        cases hput (by simpa using hp)
      simp [birthW, hnot, ha]
    | _ => simp [birthW]
  | alloc o' n d hr ha =>
    subst hr ha
    simp [birthW, putting]
  | free o' k n d hr ha =>
    subst hr ha
    simp [birthW]
  | again o' k n d ret hr ha =>
    subst hr ha
    simp [birthW]

theorem Follows.destroys {a : Domain.Stmt} (h : Follows r a p) {b : Stmt} (hb : b ∈ p) {o : Nat}
    {d : Int} (hd : b.destroys = some (o, d)) : (Stmt.get r a).destroys = some (o, d) := by
  cases h with
  | done => cases hb
  | next b' hb' ha hput =>
    obtain rfl := List.mem_singleton.mp hb
    cases r with
    | destroy o' k => simpa [Stmt.destroys, hb'] using hd
    | _ => cases hd
  | alloc o' n d' hr ha =>
    subst hr
    rcases List.mem_pair.mp hb with rfl | rfl <;> cases hd
  | free o' k n d' hr ha =>
    subst hr ha
    rcases List.mem_pair.mp hb with rfl | rfl <;> exact hd
  | again o' k n d' ret hr ha =>
    subst hr ha
    obtain rfl := List.mem_singleton.mp hb
    exact hd

theorem Follows.bears {a : Domain.Stmt} (h : Follows r a p) {b : Stmt} (hb : b ∈ p) :
    b.bears = none := by
  cases h with
  | done => cases hb
  | next b' hb' ha hput => obtain rfl := List.mem_singleton.mp hb; rfl
  | alloc o n d hr ha => rcases List.mem_pair.mp hb with rfl | rfl <;> rfl
  | free o k n d hr ha => rcases List.mem_pair.mp hb with rfl | rfl <;> rfl
  | again o k n d ret hr ha => obtain rfl := List.mem_singleton.mp hb; rfl

theorem birthW_of_bears {o : Nat} {d : Int} (h : a.bears = some (o, d)) : birthW o a = 1 := by
  cases a <;> cases h <;> simp [birthW]

theorem Recorded.frame (hI : Recorded s (a ::ₘ R)) (ho : s'.objects = s.objects)
    (hc : s'.count = s.count) (hr : s'.removed = s.removed)
    (hbirth : ∀ o, load (birthW o) (p : Multiset Stmt) ≤ birthW o a)
    (hdestroys : ∀ b ∈ p, ∀ o d, b.destroys = some (o, d) → a.destroys = some (o, d))
    (hbears : ∀ b ∈ p, ∀ o d, b.bears = some (o, d) → a.bears = some (o, d)) :
    Recorded s' ((p : Multiset Stmt) + R) := by
  constructor
  case birth =>
    intro o
    have := hI.birth o
    have := hbirth o
    rw [load_cons] at *
    rw [ho, load_add]
    omega
  case fresh =>
    intro o hle
    obtain ⟨hl, hb⟩ := hI.fresh o (hc ▸ hle)
    have := hbirth o
    rw [load_cons] at hl
    rw [ho, load_add]
    exact ⟨by omega, hb⟩
  case destroys =>
    intro b hb o d hd
    rw [ho]
    rcases Multiset.mem_add.mp hb with hb | hb
    · exact hI.destroys a (Multiset.mem_cons_self a R) o d (hdestroys b (by simpa using hb) o d hd)
    · exact hI.destroys b (Multiset.mem_cons_of_mem hb) o d hd
  case bears =>
    intro b hb o d hi
    rw [ho]
    rcases Multiset.mem_add.mp hb with hb | hb
    · exact hI.bears a (Multiset.mem_cons_self a R) o d (hbears b (by simpa using hb) o d hi)
    · exact hI.bears b (Multiset.mem_cons_of_mem hb) o d hi
  case mapped => rw [ho]; exact hI.mapped
  case removed => rw [hr]; exact hI.removed

theorem Recorded.bear {o : Nat} {b : Object} (hI : Recorded s (a ::ₘ R)) (ha : birthW o a = 1)
    (hs : s' = s.setObject o b) (hp : ∀ c ∈ p, c.destroys = none)
    (hbirth : load (birthW o) (p : Multiset Stmt) + (if b.born then 1 else 0) ≤ 1)
    (hother : ∀ o', o' ≠ o → load (birthW o') (p : Multiset Stmt) = 0)
    (hbears : ∀ c ∈ p, ∀ o' d, c.bears = some (o', d) → o' = o ∧ b.iommuDomainId = d)
    (hmapped : ∀ m, b.mapped = some m → b.iommuDomainId = m) :
    Recorded s' ((p : Multiset Stmt) + R) := by
  subst hs
  have hone := hI.birth o
  rw [load_cons, ha] at hone
  constructor
  case birth =>
    intro o'
    by_cases ho : o' = o
    · subst ho
      simp only [State.setObject, Function.update_self, load_add]
      omega
    · have := hI.birth o'
      have := hother o' ho
      rw [load_cons] at *
      simp only [State.setObject, Function.update_of_ne ho, load_add]
      omega
  case fresh =>
    intro o' hle
    obtain ⟨hl, hb⟩ := hI.fresh o' hle
    rw [load_cons] at hl
    by_cases ho : o' = o
    · subst ho
      omega
    · have := hother o' ho
      simp only [State.setObject, Function.update_of_ne ho, load_add]
      exact ⟨by omega, hb⟩
  case destroys =>
    intro c hc o' d hd
    rcases Multiset.mem_add.mp hc with hc | hc
    · rw [hp c (by simpa using hc)] at hd
      cases hd
    · have hborn := hI.destroys c (Multiset.mem_cons_of_mem hc) o' d hd
      by_cases ho : o' = o
      · subst ho
        rw [if_pos hborn.1] at hone
        omega
      · simpa only [State.setObject, Function.update_of_ne ho] using hborn
  case bears =>
    intro c hc o' d hi
    rcases Multiset.mem_add.mp hc with hc | hc
    · obtain ⟨rfl, hz⟩ := hbears c (by simpa using hc) o' d hi
      simpa only [State.setObject, Function.update_self] using hz
    · have ho : o' ≠ o := by
        rintro rfl
        have := le_load (birthW o') hc
        rw [birthW_of_bears hi] at this
        omega
      simpa only [State.setObject, Function.update_of_ne ho] using
        hI.bears c (Multiset.mem_cons_of_mem hc) o' d hi
  case mapped =>
    intro o' m hm
    by_cases ho : o' = o
    · subst ho
      simp only [State.setObject, Function.update_self] at hm ⊢
      exact hmapped m hm
    · simp only [State.setObject, Function.update_of_ne ho] at hm ⊢
      exact hI.mapped o' m hm
  case removed => exact hI.removed

theorem Recorded.forget (o : Nat) {d : Int} (hI : Recorded s (.free o d ::ₘ R)) :
    Recorded (s.setObject o { s.objects o with mapped := none })
      ((([] : List Stmt) : Multiset Stmt) + R) := by
  have hsame : ∀ o', (Function.update s.objects o { s.objects o with mapped := none } o').born =
      (s.objects o').born ∧
    (Function.update s.objects o { s.objects o with mapped := none } o').iommuDomainId =
      (s.objects o').iommuDomainId := by
    intro o'
    by_cases ho : o' = o
    · subst ho
      simp
    · simp [Function.update_of_ne ho]
  have hself : ∀ o', birthW o' (.free o d) = 0 := fun _ => rfl
  constructor
  case birth =>
    intro o'
    have := hI.birth o'
    rw [load_cons, hself, Nat.zero_add] at this
    simpa [State.setObject, (hsame o').1] using this
  case fresh =>
    intro o' hle
    have := hI.fresh o' hle
    rw [load_cons, hself, Nat.zero_add] at this
    simpa [State.setObject, (hsame o').1] using this
  case destroys =>
    intro c hc o' d' hd'
    have := hI.destroys c (Multiset.mem_cons_of_mem (by simpa using hc)) o' d' hd'
    simpa [State.setObject, (hsame o').1, (hsame o').2] using this
  case bears =>
    intro c hc o' d' hi
    have := hI.bears c (Multiset.mem_cons_of_mem (by simpa using hc)) o' d' hi
    simpa [State.setObject, (hsame o').2] using this
  case mapped =>
    intro o' m hm
    by_cases ho : o' = o
    · subst ho
      simp [State.setObject] at hm
    · simp only [State.setObject, Function.update_of_ne ho] at hm ⊢
      exact hI.mapped o' m hm
  case removed => exact hI.removed

theorem Recorded.unmap {o : Nat} {B' : Multiset Stmt}
    (hI : Recorded (s.setObject o { s.objects o with mapped := none }) B) (hs : Recorded s B')
    (hd : s.dom.pin.id = (s.objects o).iommuDomainId) : Recorded (s.unmap o) B := by
  refine ⟨hI.birth, hI.fresh, hI.destroys, hI.bears, hI.mapped, fun r hr => ?_⟩
  rcases List.mem_append.mp hr with hr | hr
  · obtain ⟨m, hm, rfl⟩ := List.mem_map.mp hr
    have hmade := hs.mapped o m (Option.mem_toList.mp hm)
    exact ⟨hd.trans hmade, hmade.symm⟩
  · exact hs.removed r hr

/-- A mapping is taken back before its object was returned. -/
theorem Recorded.unborn {o : Nat} {d : Int} (hI : Recorded s (a ::ₘ R))
    (ha : a.bears = some (o, d)) (hid : s.dom.pin.id = d) :
    Recorded (s.unmap o) ((([] : List Stmt) : Multiset Stmt) + R) := by
  have hunborn : (s.objects o).born = false := by
    have := hI.birth o
    rw [load_cons, birthW_of_bears ha] at this
    by_contra hb
    rw [if_pos (Bool.eq_true_of_not_eq_false hb)] at this
    omega
  refine Recorded.unmap (hI.bear (o := o) (birthW_of_bears ha) rfl (by simp) (by simp [hunborn])
    (by simp) (by simp) fun m hm => by cases hm) hI ?_
  rw [hid, hI.bears a (Multiset.mem_cons_self a R) o d ha]

theorem Recorded.exec (hI : Recorded s (a ::ₘ R)) (hG : importGuard.run s (a ::ₘ R) a x)
    (hneeds : ∀ d, a.needs = some d → s.dom.pin.id = d)
    (h : ObjectDomain.exec P a x s = some (s', p)) : Recorded s' ((p : Multiset Stmt) + R) := by
  cases a with
  | get r a =>
    have hf := follows h
    obtain ⟨t, q, ht, rfl, hp⟩ := exec_get h
    refine hI.frame rfl rfl rfl hf.births (fun b hb o d hd => hf.destroys hb hd) fun b hb o d hi => ?_
    rw [hf.bears hb] at hi
    cases hi
  | again o d k =>
    obtain ⟨rfl, rfl⟩ := getAndSwitch_eq h
    refine hI.frame rfl rfl rfl (by simp [birthW]) (fun b hb o' d' hd => ?_) fun b hb o' d' hi => ?_
    · obtain rfl := List.mem_singleton.mp hb
      exact hd
    · obtain rfl := List.mem_singleton.mp hb
      cases hi
  | alloc o d =>
    cases h
    have hmapped : ∀ m, some s.dom.pin.id = some m → d = m := fun m hm => by
      rw [← Option.some.inj hm, hneeds d rfl]
    by_cases hx : x.ret = 0
    · rw [if_pos hx]
      exact hI.bear (o := o) (by simp [birthW]) rfl (by simp) (by simp [hx]) (by simp) (by simp)
        hmapped
    · rw [if_neg hx]
      refine hI.bear (o := o) (by simp [birthW]) rfl (by simp [Stmt.destroys])
        (by simp [birthW, hx]) (fun o' ho => by simp [birthW, Ne.symm ho]) ?_ hmapped
      intro c hc o' d' hi
      obtain rfl := List.mem_singleton.mp hc
      cases hi
      exact ⟨rfl, rfl⟩
  | release o d =>
    cases h
    exact hI.unborn rfl (hneeds d rfl)
  | attach o =>
    cases h
    refine hI.bear (o := o) (by simp [birthW]) rfl (by simp [Stmt.destroys]) (by simp [birthW])
      (fun o' ho => by simp [birthW, Ne.symm ho]) ?_ ?_
    · intro c hc o' d hi
      obtain rfl := List.mem_singleton.mp hc
      cases hi
      exact ⟨rfl, rfl⟩
    · intro m hm
      cases hm
      exact (hG o (.inl rfl)).symm
  | importSgTable o =>
    simp only [ObjectDomain.exec] at h
    split at h
    · cases h
      exact hI.bear (o := o) (by simp [birthW]) rfl (by simp) (by simp) (by simp) (by simp)
        fun m hm => hI.mapped o m hm
    · cases h
      refine hI.frame rfl rfl rfl (by simp [birthW]) (by simp [Stmt.destroys]) fun b hb o' d hi => ?_
      obtain rfl := List.mem_singleton.mp hb
      exact hi
  | failUnmap o =>
    cases h
    exact hI.unborn rfl (hG o (.inr rfl))
  | free o d =>
    cases h
    obtain ⟨hborn, hd⟩ := hI.destroys _ (Multiset.mem_cons_self ..) o d rfl
    exact Recorded.unmap (hI.forget o) hI ((hneeds d rfl).trans hd.symm)

theorem Recorded.begin (hI : Recorded s R) (ho : s'.objects = s.objects)
    (hc : s'.count = s.count + 1) (hr : s'.removed = s.removed)
    (ha : ∀ o, birthW o a = if s.count = o then 1 else 0) (hd : a.destroys = none)
    (hi : a.bears = none) :
    Recorded s' ((([a] : List Stmt) : Multiset Stmt) + R) := by
  have hnew := hI.fresh s.count (le_refl _)
  constructor
  case birth =>
    intro o
    have := hI.birth o
    rw [ho, load_add, load_coe_cons, load_coe_nil, ha]
    split
    · subst o
      rw [hnew.1, hnew.2]
      decide
    · omega
  case fresh =>
    intro o hle
    obtain ⟨hl, hb⟩ := hI.fresh o (by omega)
    rw [ho, load_add, load_coe_cons, load_coe_nil, ha, if_neg (by omega)]
    exact ⟨by omega, hb⟩
  case destroys =>
    intro c hc' o d hd'
    rw [ho]
    rcases Multiset.mem_add.mp hc' with hc' | hc'
    · obtain rfl : c = a := by simpa using hc'
      rw [hd] at hd'
      cases hd'
    · exact hI.destroys c hc' o d hd'
  case bears =>
    intro c hc' o d hi'
    rw [ho]
    rcases Multiset.mem_add.mp hc' with hc' | hc'
    · obtain rfl : c = a := by simpa using hc'
      rw [hi] at hi'
      cases hi'
    · exact hI.bears c hc' o d hi'
  case mapped => rw [ho]; exact hI.mapped
  case removed => rw [hr]; exact hI.removed

theorem Recorded.spawn (hI : Recorded s R)
    (ho : ∀ o, (s'.objects o).born = (s.objects o).born ∧
      (s'.objects o).iommuDomainId = (s.objects o).iommuDomainId ∧
      (s'.objects o).mapped = (s.objects o).mapped)
    (hc : s'.count = s.count) (hr : s'.removed = s.removed) (ha : ∀ o, birthW o a = 0)
    (hd : ∀ o d, a.destroys = some (o, d) →
      (s.objects o).born ∧ (s.objects o).iommuDomainId = d) (hi : a.bears = none) :
    Recorded s' ((([a] : List Stmt) : Multiset Stmt) + R) := by
  constructor
  case birth =>
    intro o
    have := hI.birth o
    rw [(ho o).1, load_add, load_coe_cons, load_coe_nil, ha]
    omega
  case fresh =>
    intro o hle
    obtain ⟨hl, hb⟩ := hI.fresh o (hc ▸ hle)
    rw [(ho o).1, load_add, load_coe_cons, load_coe_nil, ha]
    exact ⟨by omega, hb⟩
  case destroys =>
    intro c hc' o d hd'
    rw [(ho o).1, (ho o).2.1]
    rcases Multiset.mem_add.mp hc' with hc' | hc'
    · obtain rfl : c = a := by simpa using hc'
      exact hd o d hd'
    · exact hI.destroys c hc' o d hd'
  case bears =>
    intro c hc' o d hi'
    rw [(ho o).2.1]
    rcases Multiset.mem_add.mp hc' with hc' | hc'
    · obtain rfl : c = a := by simpa using hc'
      rw [hi] at hi'
      cases hi'
    · exact hI.bears c hc' o d hi'
  case mapped =>
    intro o m hm
    rw [(ho o).2.2] at hm
    rw [(ho o).2.1]
    exact hI.mapped o m hm
  case removed => rw [hr]; exact hI.removed

theorem Recorded.occur {e : Occurrence} (hI : Recorded s R)
    (h : ObjectDomain.occur e s = some (s', p)) : Recorded s' ((p : Multiset Stmt) + R) := by
  cases e with
  | create d =>
    cases h
    exact hI.begin rfl rfl rfl (fun o => by simp [birthW, putting]) rfl rfl
  | primeImport =>
    cases h
    exact hI.begin rfl rfl rfl (fun _ => rfl) rfl rfl
  | destroy o =>
    simp only [ObjectDomain.occur] at h
    split at h
    · rename_i hb
      rw [Bool.and_eq_true] at hb
      cases h
      refine hI.spawn (fun o' => ?_) rfl rfl (fun _ => rfl) (fun o' d hd => ?_) rfl
      · by_cases ho : o' = o
        · subst ho
          simp [State.setObject]
        · simp [State.setObject, Function.update_of_ne ho]
      · cases hd
        exact ⟨hb.1, rfl⟩
    · cases h
  | switch d =>
    cases h
    exact hI.spawn (fun _ => ⟨rfl, rfl, rfl⟩) rfl rfl (fun _ => rfl) (fun _ _ hd => nomatch hd) rfl
  | softReset =>
    cases h
    exact hI.spawn (fun _ => ⟨rfl, rfl, rfl⟩) rfl rfl (fun _ => rfl) (fun _ _ hd => nomatch hd) rfl

theorem Recorded.reach (hC : Reach (machine P) importGuard (State.init P dom) C) :
    Recorded C.shared C.pending := by
  refine hC.invariant_with
    (fun s B => ∀ b ∈ B, ∀ d, b.needs = some d → s.dom.pin.id = d) Recorded ?_ ?_ ?_ ?_
  · intro C hC b hb d hd
    obtain ⟨r, n, hput⟩ := held hC b hb d hd
    exact (Kept.reach hC).pinned.selected (.put n d)
      ((Multiset.mem_filterMap _ _).mpr ⟨_, hput, rfl⟩) d rfl
  · constructor <;> simp [State.init]
  · intro s R a x s' p hJ hI hG h
    exact hI.exec hG (hJ a (Multiset.mem_cons_self a R)) h
  · intro s R e s' p _ hI _ h
    exact hI.occur h

/-- Every mapping is removed in the domain it was made in, which its object has recorded. -/
theorem unmapped_where_mapped (P : Domain.Probe) (dom : Nat) (C : Conf State Stmt)
    (hC : Reach (machine P) importGuard (State.init P dom) C) :
    ∀ r ∈ C.shared.removed, r.current = r.made ∧ r.made = r.recorded :=
  (Recorded.reach hC).removed

def importTest (C : Conf State Stmt) : Stmt → Domain.Reply → Bool
  | .attach _, _ | .failUnmap _, _ => C.shared.dom.pin.id == 0
  | _, _ => true

theorem importTest_guard {C : Conf State Stmt} {a : Stmt} {x : Domain.Reply}
    (h : importTest C a x) : importGuard.run C.shared C.pending a x := by
  rintro o (rfl | rfl) <;> exact eq_of_beq h

theorem unmapped_where_mapped_zero : ∃ C : Conf State Stmt, C.shared.removed.length = 1 ∧
    ∀ r ∈ C.shared.removed, r.current = r.made ∧ r.made = r.recorded := by
  obtain ⟨C, hC, hlen⟩ := Reach.exists_of_steps (machine ⟨true, true, false⟩) importGuard
    (State.init ⟨true, true, false⟩ 0)
    ([Label.env Occurrence.primeImport, .run 0 ⟨0, none⟩, .run 0 ⟨0, none⟩, .env (.destroy 0)] ++
      List.replicate 6 (Label.run 1 ⟨0, none⟩))
    importTest (fun C => C.shared.removed.length == 1) (fun _ _ _ => importTest_guard)
    (fun _ _ _ _ => trivial) (by decide +kernel)
  exact ⟨C, eq_of_beq hlen, unmapped_where_mapped ⟨true, true, false⟩ 0 C hC⟩

/-- A buffer is imported while domain 1 is selected, and destroyed in domain 0. -/
theorem unmapped_elsewhere : ¬∀ (P : Domain.Probe) (dom : Nat) (C : Conf State Stmt),
    Reach (machine P) (.events fun _ => True) (State.init P dom) C →
    ∀ r ∈ C.shared.removed, r.current = r.made ∧ r.made = r.recorded := by
  intro h
  obtain ⟨C, hC, htest⟩ := Reach.exists_of_steps (machine ⟨true, true, false⟩) (.events fun _ => True)
    (State.init ⟨true, true, false⟩ 0)
    ([Label.env (Occurrence.switch 1)] ++ List.replicate 15 (Label.run 0 ⟨0, some 1⟩) ++
      [Label.env Occurrence.primeImport, .run 1 ⟨0, none⟩, .run 1 ⟨0, none⟩, .env (.destroy 0)] ++
      List.replicate 13 (Label.run 2 ⟨0, some 1⟩))
    (fun _ _ _ => true) (fun C => C.shared.removed.any fun r => r.current != r.made)
    (fun _ _ _ _ => trivial) (fun _ _ _ _ => trivial) (by decide +kernel)
  obtain ⟨r, hr, hne⟩ := List.any_eq_true.mp htest
  exact bne_iff_ne.mp hne (h _ _ C hC r hr).1

end ObjectDomain

end Rknpu

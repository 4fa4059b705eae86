import Rknpu.Interleaving.Machine
import Rknpu.Job

namespace Rknpu

namespace Gem

open Interleaving

structure Entry where
  client : Nat
  handle : Nat
  object : Option Nat
deriving DecidableEq

structure Read where
  object : Nat
  freed : Bool

/-- A value that a client has passed was used as the address of an object: whether there was
one, and whether the client had a handle of it. -/
structure Access where
  client : Nat
  value : Nat
  allowed : Bool

/-- The GEM objects by number, with their reference counts and addresses, and the handles of
all clients. -/
structure State where
  table : List Entry
  count : Nat
  refs : Nat → Nat
  freed : Nat → Bool
  addr : Nat → Nat
  reads : List Read
  accesses : List Access

def State.init : State := ⟨[], 0, fun _ => 0, fun _ => false, fun _ => 0, [], []⟩

namespace State

variable (s : State)

def lookup (c h : Nat) : Option Nat :=
  (s.table.find? fun e => e.client == c && e.handle == h).bind Entry.object

def locate (v : Nat) : Option Nat := (List.range s.count).find? fun o => !s.freed o && s.addr o == v

def allowed (c v : Nat) : Bool :=
  (s.locate v).any fun o => s.table.any fun e => e.client == c && e.object == some o

def get (o : Nat) : State := { s with refs := Function.update s.refs o (s.refs o + 1) }

def put (o : Nat) : State :=
  { s with
    refs := Function.update s.refs o (s.refs o - 1)
    freed := Function.update s.freed o (s.freed o || s.refs o ≤ 1) }

def free (o : Nat) : State :=
  { s with refs := Function.update s.refs o 0, freed := Function.update s.freed o true }

def alloc (v : Nat) : State :=
  { s with
    count := s.count + 1
    refs := Function.update s.refs s.count 1
    addr := Function.update s.addr s.count v }

def read (o : Nat) : State := { s with reads := ⟨o, s.freed o⟩ :: s.reads }

def access (c v : Nat) : State :=
  if v = 0 then s else { s with accesses := ⟨c, v, s.allowed c v⟩ :: s.accesses }

end State

inductive Field where
  | size
  | sramSize
  | dmaAddr
deriving DecidableEq

inductive Use where
  | syncFlags
  | syncDomain
  | syncMemory
  | jobGet
  | commitPc
  | jobPut
deriving DecidableEq

inductive Stmt where
  -- rknpu_gem_create_ioctl
  | createFind (c h : Nat)
  | objectCreate (c : Nat)
  | handleCreate (c o : Nat)
  | objectDestroy (c o : Nat) (ret : Int)
  | read (o : Nat) (f : Field)
  -- rknpu_gem_object_put
  | put (o : Nat)
  -- rknpu_gem_destroy_ioctl
  | destroyFind (c h : Nat)
  | destroyDomain (c h o waitCount : Nat)
  | handleDelete (c h : Nat)
  | idrRemove (c h : Nat)
  -- rknpu_gem_sync_ioctl, and a job from rknpu_job_alloc to rknpu_job_free
  | syncCheck (c v : Nat)
  | use (c v : Nat) (u : Use)
  | jobRun (c v : Nat)
  | returned (c : Nat) (ret : Int)
deriving DecidableEq

/-- What the kernel answers: an error code, a handle that is not in use, memory for an object. -/
structure Reply where
  ret : Int
  handle : Nat
  addr : Nat

/-- The results that `rknpu_gem_create_ioctl` copies from the object. -/
def copyResults (c o : Nat) : List Stmt :=
  [.read o .size, .read o .sramSize, .read o .dmaAddr, .returned c 0]

def exec (a : Stmt) (x : Reply) (s : State) : Option (State × List Stmt) :=
  match a with
  | .createFind c h =>
    some (match s.lookup c h with
      | some o => (s.get o, .put o :: copyResults c o)
      | none => (s, [.objectCreate c]))
  | .objectCreate c =>
    if x.ret ≠ 0 then some (s, [.returned c x.ret])
    else if x.addr = 0 ∨ (s.locate x.addr).isSome then none
    else some (s.alloc x.addr, [.handleCreate c s.count])
  | .handleCreate c o =>
    if x.ret ≠ 0 then some (s, [.objectDestroy c o x.ret])
    else if s.table.any fun e => e.client == c && e.handle == x.handle then none
    else some ({ s.get o with table := ⟨c, x.handle, some o⟩ :: s.table }, .put o :: copyResults c o)
  | .objectDestroy c o ret => some (s.free o, [.returned c ret])
  | .read o _ => some (s.read o, [])
  | .put o => some (s.put o, [])
  | .destroyFind c h =>
    some (match s.lookup c h with
      | some o => (s.get o, [.put o, .destroyDomain c h o 0])
      | none => (s, [.returned c (-einval)]))
  | .destroyDomain c h o waitCount =>
    some (s.read o,
      if x.ret = 0 then [.handleDelete c h]
      else if waitCount + 1 < 3 then [.destroyDomain c h o (waitCount + 1)]
      else [.returned c x.ret])
  | .handleDelete c h =>
    some (match s.lookup c h with
      | some o =>
        ({ s with table := ⟨c, h, none⟩ :: s.table.erase ⟨c, h, some o⟩ },
          [.put o, .idrRemove c h, .returned c 0])
      | none => (s, [.returned c (-einval)]))
  | .idrRemove c h => some ({ s with table := s.table.erase ⟨c, h, none⟩ }, [])
  | .syncCheck c v => some (s, if v = 0 then [.returned c (-einval)] else [.use c v .syncFlags])
  | .use c v u =>
    let s := s.access c v
    some (match u with
      | .syncFlags => (s, if x.ret = 0 then [.returned c (-einval)] else [.use c v .syncDomain])
      | .syncDomain => (s, if x.ret ≠ 0 then [.returned c (-einval)] else [.use c v .syncMemory])
      | .syncMemory => (s, [.returned c 0])
      | .jobGet => ((s.locate v).elim s s.get, [.jobRun c v])
      | .commitPc => (s, [])
      | .jobPut => ((s.locate v).elim s s.put, []))
  -- the job is committed once more, or freed
  | .jobRun c v => some (s, if x.ret = 0 then [.use c v .jobPut] else [.use c v .commitPc, .jobRun c v])
  | .returned _ _ => some (s, [])

inductive Occurrence where
  | create (c h : Nat)
  | destroy (c h : Nat)
  | sync (c v : Nat)
  | submit (c v : Nat)

def occur (e : Occurrence) (s : State) : Option (State × List Stmt) :=
  some (s, match e with
    | .create c h => [.createFind c h]
    | .destroy c h => [.destroyFind c h]
    | .sync c v => [.syncCheck c v]
    | .submit c v => [.use c v .jobGet])

def machine : Machine State Stmt Reply Occurrence := ⟨exec, occur⟩

def Stmt.reader : Stmt → Option Nat
  | .read o _ | .destroyDomain _ _ o _ => some o
  | _ => none

/-- The client and the value it has passed, where that is still to be used. -/
def Stmt.user : Stmt → Option (Nat × Nat)
  | .syncCheck c v => if v = 0 then none else some (c, v)
  | .use c v _ | .jobRun c v => some (c, v)
  | _ => none

/-- A handle is deleted only when no call has to read a field of its object. -/
def readGuard : Guard State Stmt Reply Occurrence where
  run s B a _ := ∀ c h o, a = .handleDelete c h → s.lookup c h = some o → ∀ b ∈ B, b.reader ≠ some o
  env _ _ _ := True

/-- Clients pass addresses of objects that they have a handle of, or NULL to be synchronized,
and delete the handle only when no call and no job of theirs has to use the address. -/
def addressGuard : Guard State Stmt Reply Occurrence where
  run s B a _ := ∀ c h o, a = .handleDelete c h → s.lookup c h = some o →
    ∀ b ∈ B, b.user ≠ some (c, s.addr o)
  env s _ e := match e with
    | .sync c v => v = 0 ∨ s.allowed c v
    | .submit c v => s.allowed c v
    | _ => True

def putW (o : Nat) : Stmt → Nat
  | .put o' | .handleCreate _ o' | .objectDestroy _ o' _ => if o' = o then 1 else 0
  | _ => 0

def newW (o : Nat) : Stmt → Nat
  | .handleCreate _ o' | .objectDestroy _ o' _ => if o' = o then 1 else 0
  | _ => 0

/-- The references that jobs hold of what is at an address. -/
def jobW (v : Nat) : Stmt → Nat
  | .jobRun _ v' | .use _ v' .jobPut => if v' = v then 1 else 0
  | _ => 0

def State.handles (s : State) (o : Nat) : Nat := s.table.countP (·.object = some o)

variable {s s' : State} {a : Stmt} {x : Reply} {p : List Stmt} {B R : Multiset Stmt}
  {G : Guard State Stmt Reply Occurrence} {C : Conf State Stmt} {c h o v : Nat}

/-- An object is freed only when neither a call nor a job nor a handle has a reference of it,
and a value still to be used is the address of an object that the client has a handle of. -/
structure Counted (s : State) (B : Multiset Stmt) : Prop where
  fresh : ∀ o, s.count ≤ o → load (putW o) B = 0 ∧ s.freed o = false ∧ s.handles o = 0
  new : ∀ o, 0 < load (newW o) B → load (putW o) B = 1 ∧ s.handles o = 0
  refs : ∀ o, o < s.count → s.freed o = false →
    load (putW o) B + load (jobW (s.addr o)) B + s.handles o ≤ s.refs o
  dead : ∀ o, s.freed o → load (putW o) B = 0 ∧ s.handles o = 0
  apart : ∀ o o', o < s.count → o' < s.count → s.freed o = false → s.freed o' = false →
    s.addr o = s.addr o' → o = o'
  users : ∀ b ∈ B, ∀ c v, b.user = some (c, v) →
    ∃ o, s.addr o = v ∧ ∃ e ∈ s.table, e.client = c ∧ e.object = some o

theorem lookup_mem (hl : s.lookup c h = some o) : ⟨c, h, some o⟩ ∈ s.table := by
  obtain ⟨e, he, ho⟩ := Option.bind_eq_some_iff.mp hl
  have hmem := List.mem_of_find?_eq_some he
  have hkey := List.find?_some he
  rw [Bool.and_eq_true, beq_iff_eq, beq_iff_eq] at hkey
  obtain ⟨rfl, rfl⟩ := hkey
  rw [← ho]
  exact hmem

theorem handles_pos {e : Entry} (he : e ∈ s.table) (ho : e.object = some o) : 0 < s.handles o :=
  List.countP_pos_iff.mpr ⟨e, he, by simpa using ho⟩

theorem handles_delete (hmem : ⟨c, h, some o⟩ ∈ s.table) (o' : Nat) :
    State.handles { s with table := ⟨c, h, none⟩ :: s.table.erase ⟨c, h, some o⟩ } o' +
      (if o = o' then 1 else 0) = s.handles o' := by
  have hperm := (List.perm_cons_erase hmem).countP_eq (fun e => decide (e.object = some o'))
  rw [List.countP_cons] at hperm
  simp only [State.handles, List.countP_cons, hperm]
  simp

theorem handles_remove (s : State) (c h o : Nat) :
    State.handles { s with table := s.table.erase ⟨c, h, none⟩ } o = s.handles o := by
  by_cases hmem : ⟨c, h, none⟩ ∈ s.table
  · have hperm := (List.perm_cons_erase hmem).countP_eq (fun e => decide (e.object = some o))
    rw [List.countP_cons] at hperm
    simp only [State.handles, hperm]
    simp
  · rw [State.handles, List.erase_of_not_mem hmem, State.handles]

theorem locate_some (hl : s.locate v = some o) : o < s.count ∧ s.freed o = false ∧ s.addr o = v := by
  have hmem := List.mem_of_find?_eq_some hl
  have hkey := List.find?_some hl
  rw [Bool.and_eq_true, Bool.not_eq_true', beq_iff_eq] at hkey
  exact ⟨List.mem_range.mp hmem, hkey.1, hkey.2⟩

theorem locate_none (hl : s.locate v = none) (ho : o < s.count) (hf : s.freed o = false) :
    s.addr o ≠ v := by
  have hno := List.find?_eq_none.mp hl o (List.mem_range.mpr ho)
  intro ha
  simp [hf, ha] at hno

theorem newW_le_putW (o : Nat) (B : Multiset Stmt) : load (newW o) B ≤ load (putW o) B :=
  load_mono (newW o) fun a _ => by cases a <;> simp [newW, putW]

theorem user_of_jobW (hw : 0 < jobW v a) : ∃ c, a.user = some (c, v) := by
  cases a with
  | jobRun c v' =>
    have hv : v' = v := by
      by_contra hv
      simp [jobW, hv] at hw
    exact ⟨c, by rw [hv]; rfl⟩
  | use c v' u =>
    have hv : v' = v := by
      by_contra hv
      cases u <;> simp [jobW, hv] at hw
    exact ⟨c, by rw [hv]; rfl⟩
  | _ => exact absurd hw (lt_irrefl 0)

namespace Counted

theorem live (hI : Counted s B) (hh : 0 < s.handles o) : o < s.count ∧ s.freed o = false := by
  constructor
  · by_contra hle
    rw [(hI.fresh o (Nat.not_lt.mp hle)).2.2] at hh
    cases hh
  · by_contra hf
    rw [(hI.dead o (by simpa using hf)).2] at hh
    cases hh

theorem locate_eq (hI : Counted s B) (ho : o < s.count) (hf : s.freed o = false) :
    s.locate (s.addr o) = some o := by
  cases hl : s.locate (s.addr o) with
  | none => exact absurd rfl (locate_none hl ho hf)
  | some o' =>
    obtain ⟨ho', hf', ha⟩ := locate_some hl
    rw [hI.apart o' o ho' ho hf' hf ha]

theorem access (hI : Counted s B) (c v : Nat) : Counted (s.access c v) B := by
  rw [State.access]
  split
  · exact hI
  · exact ⟨hI.fresh, hI.new, hI.refs, hI.dead, hI.apart, hI.users⟩

/-- The object that a value still to be used is the address of. -/
theorem used (hI : Counted s B) {b : Stmt} (hb : b ∈ B) (hu : b.user = some (c, v)) :
    s.allowed c v := by
  obtain ⟨o, rfl, e, he, hc, ho⟩ := hI.users b hb c v hu
  obtain ⟨hlt, hf⟩ := hI.live (handles_pos he ho)
  rw [State.allowed, hI.locate_eq hlt hf, Option.any_some, List.any_eq_true]
  exact ⟨e, he, by simp [hc, ho]⟩

theorem quiet (hI : Counted s (a ::ₘ R)) (ht : s'.table = s.table) (hc : s'.count = s.count)
    (hr : s'.refs = s.refs) (hf : s'.freed = s.freed) (ha : s'.addr = s.addr)
    (hput : ∀ o, load (putW o) (p : Multiset Stmt) = putW o a)
    (hnew : ∀ o, load (newW o) (p : Multiset Stmt) = newW o a)
    (hjob : ∀ v, load (jobW v) (p : Multiset Stmt) = jobW v a)
    (huser : ∀ b ∈ p, ∀ u, b.user = some u → a.user = some u) :
    Counted s' ((p : Multiset Stmt) + R) := by
  have hh : ∀ o, s'.handles o = s.handles o := fun o => by rw [State.handles, ht, State.handles]
  have hload : ∀ f : Stmt → Nat, load f (p : Multiset Stmt) = f a →
      load f ((p : Multiset Stmt) + R) = load f (a ::ₘ R) := fun f h => by
    rw [load_add, load_cons, h]
  constructor
  case fresh => simpa only [hload _ (hput _), hc, hf, hh] using hI.fresh
  case new => simpa only [hload _ (hput _), hload _ (hnew _), hh] using hI.new
  case refs => simpa only [hload _ (hput _), hload _ (hjob _), hc, hf, ha, hh, hr] using hI.refs
  case dead => simpa only [hload _ (hput _), hf, hh] using hI.dead
  case apart => rw [hc, hf, ha]; exact hI.apart
  case users =>
    intro b hb c v hu
    rw [ha, ht]
    rcases Multiset.mem_add.mp hb with hb | hb
    · exact hI.users a (Multiset.mem_cons_self a R) c v (huser b (by simpa using hb) _ hu)
    · exact hI.users b (Multiset.mem_cons_of_mem hb) c v hu

theorem get (hI : Counted s (a ::ₘ R)) (hpos : 0 < s.handles o)
    (ha : ∀ o, putW o a = 0) (ha' : ∀ v, jobW v a = 0)
    (hgain : ∀ o' < s.count, s.freed o' = false → load (putW o') (p : Multiset Stmt) +
      load (jobW (s.addr o')) (p : Multiset Stmt) ≤ if o = o' then 1 else 0)
    (hput : ∀ o', o ≠ o' → load (putW o') (p : Multiset Stmt) = 0)
    (hnew : ∀ o, load (newW o) (p : Multiset Stmt) = 0)
    (huser : ∀ b ∈ p, ∀ u, b.user = some u → a.user = some u) :
    Counted (s.get o) ((p : Multiset Stmt) + R) := by
  obtain ⟨hlt, hfo⟩ := hI.live hpos
  constructor
  case fresh =>
    intro o' ho'
    have hold := hI.fresh o' ho'
    have hne : o ≠ o' := by rintro rfl; exact absurd hlt (Nat.not_lt.mpr ho')
    rw [load_cons, ha, Nat.zero_add] at hold
    rw [load_add, hput o' hne, Nat.zero_add]
    exact hold
  case new =>
    intro o' ho'
    rw [load_add, hnew, Nat.zero_add] at ho'
    have hold := hI.new o' (by rw [load_cons]; omega)
    rw [load_cons, ha, Nat.zero_add] at hold
    have hne : o ≠ o' := by rintro rfl; omega
    rw [load_add, hput o' hne, Nat.zero_add]
    exact hold
  case refs =>
    intro o' ho' hf'
    have hold := hI.refs o' ho' hf'
    have := hgain o' ho' hf'
    rw [load_cons, load_cons, ha, ha', Nat.zero_add, Nat.zero_add] at hold
    show _ + load (jobW (s.addr o')) _ + s.handles o' ≤ _
    rw [load_add, load_add]
    by_cases ho : o = o'
    · subst ho
      rw [if_pos rfl] at this
      simp only [State.get, Function.update_self]
      omega
    · rw [if_neg ho] at this
      simp only [State.get, Function.update_of_ne (Ne.symm ho)]
      omega
  case dead =>
    intro o' hf'
    have hold := hI.dead o' hf'
    have hne : o ≠ o' := by
      rintro rfl
      exact absurd hf' (by simp [State.get, hfo])
    rw [load_cons, ha, Nat.zero_add] at hold
    rw [load_add, hput o' hne, Nat.zero_add]
    exact hold
  case apart => exact hI.apart
  case users =>
    intro b hb c v hu
    rcases Multiset.mem_add.mp hb with hb | hb
    · exact hI.users a (Multiset.mem_cons_self a R) c v (huser b (by simpa using hb) _ hu)
    · exact hI.users b (Multiset.mem_cons_of_mem hb) c v hu

theorem find (hI : Counted s (a ::ₘ R)) (hl : s.lookup c h = some o)
    (ha : ∀ o, putW o a = 0) (ha' : ∀ v, jobW v a = 0)
    (hput : ∀ o', load (putW o') (p : Multiset Stmt) = if o = o' then 1 else 0)
    (hnew : ∀ o, load (newW o) (p : Multiset Stmt) = 0)
    (hjob : ∀ v, load (jobW v) (p : Multiset Stmt) = 0)
    (huser : ∀ b ∈ p, b.user = none) : Counted (s.get o) ((p : Multiset Stmt) + R) := by
  refine hI.get (handles_pos (lookup_mem hl) rfl) ha ha' ?_ (fun o' ho => by rw [hput, if_neg ho])
    hnew fun b hb u hu => ?_
  · intro o' _ _
    rw [hput, hjob, Nat.add_zero]
  · rw [huser b hb] at hu
    cases hu

theorem put (hI : Counted s (a ::ₘ R)) (hlt : o < s.count) (hfo : s.freed o = false)
    (ha : putW o a + jobW (s.addr o) a = 1) : Counted (s.put o) R := by
  have hone := hI.refs o hlt hfo
  rw [load_cons, load_cons] at hone
  have hfreed : ∀ o', (s.put o).freed o' = false → s.freed o' = false ∧ (o' = o → 2 ≤ s.refs o) := by
    intro o' hf'
    by_cases ho : o' = o
    · subst ho
      simp only [State.put, Function.update_self, Bool.or_eq_false_iff, decide_eq_false_iff_not] at hf'
      exact ⟨hf'.1, fun _ => by omega⟩
    · simp only [State.put, Function.update_of_ne ho] at hf'
      exact ⟨hf', fun h => absurd h ho⟩
  constructor
  case fresh =>
    intro o' ho'
    have hne : o' ≠ o := by rintro rfl; exact absurd hlt (Nat.not_lt.mpr ho')
    have hold := hI.fresh o' ho'
    rw [load_cons] at hold
    refine ⟨by omega, ?_, hold.2.2⟩
    simp only [State.put, Function.update_of_ne hne]
    exact hold.2.1
  case new =>
    intro o' ho'
    have hold := hI.new o' (by rw [load_cons]; omega)
    rw [load_cons] at hold
    have := newW_le_putW o' R
    exact ⟨by omega, hold.2⟩
  case refs =>
    intro o' ho' hf'
    obtain ⟨hf, htwo⟩ := hfreed o' hf'
    have hold := hI.refs o' ho' hf
    rw [load_cons, load_cons] at hold
    show _ + load (jobW (s.addr o')) _ + s.handles o' ≤ _
    by_cases ho : o' = o
    · subst ho
      simp only [State.put, Function.update_self]
      omega
    · simp only [State.put, Function.update_of_ne ho]
      omega
  case dead =>
    intro o' hf'
    by_cases ho : o' = o
    · subst ho
      simp only [State.put, Function.update_self, hfo, Bool.false_or, decide_eq_true_eq] at hf'
      exact ⟨by omega, by show s.handles o' = 0; omega⟩
    · simp only [State.put, Function.update_of_ne ho] at hf'
      have hold := hI.dead o' hf'
      rw [load_cons] at hold
      exact ⟨by omega, hold.2⟩
  case apart =>
    intro o₁ o₂ h₁ h₂ hf₁ hf₂ haddr
    exact hI.apart o₁ o₂ h₁ h₂ (hfreed o₁ hf₁).1 (hfreed o₂ hf₂).1 haddr
  case users => exact fun b hb => hI.users b (Multiset.mem_cons_of_mem hb)

theorem held (hI : Counted s B) (hput : 0 < load (putW o) B) :
    o < s.count ∧ s.freed o = false := by
  constructor
  · by_contra hle
    have := (hI.fresh o (Nat.not_lt.mp hle)).1
    omega
  · by_contra hf
    have := (hI.dead o (by simpa using hf)).1
    omega

theorem objectCreate (hI : Counted s (.objectCreate c ::ₘ R)) (hl : s.locate v = none) :
    Counted (s.alloc v) ((([.handleCreate c s.count] : List Stmt) : Multiset Stmt) + R) := by
  have hself : ∀ o, putW o (.objectCreate c) = 0 := fun _ => rfl
  have hself' : ∀ o, newW o (.objectCreate c) = 0 := fun _ => rfl
  obtain ⟨hput, hfreed, hhandles⟩ := hI.fresh s.count (le_refl _)
  rw [load_cons, hself, Nat.zero_add] at hput
  have hlive : ∀ e ∈ s.table, ∀ o, e.object = some o → o ≠ s.count := by
    rintro e he o ho rfl
    have := handles_pos he ho
    omega
  have hp : ∀ o, load (putW o) (([.handleCreate c s.count] : List Stmt) : Multiset Stmt) =
      if s.count = o then 1 else 0 := fun o => by simp [putW]
  have hp' : ∀ o, load (newW o) (([.handleCreate c s.count] : List Stmt) : Multiset Stmt) =
      if s.count = o then 1 else 0 := fun o => by simp [newW]
  constructor
  case fresh =>
    intro o ho
    have hold := hI.fresh o (Nat.le_of_succ_le ho)
    rw [load_cons, hself, Nat.zero_add] at hold
    have hne : s.count ≠ o := Nat.ne_of_lt ho
    rw [load_add, hp, if_neg hne, Nat.zero_add]
    exact hold
  case new =>
    intro o ho
    rw [load_add, hp'] at ho
    rw [load_add, hp]
    by_cases hne : s.count = o
    · subst hne
      rw [if_pos rfl, hput]
      exact ⟨rfl, hhandles⟩
    · rw [if_neg hne, Nat.zero_add] at ho
      have hold := hI.new o (by rw [load_cons, hself', Nat.zero_add]; exact ho)
      rw [load_cons, hself, Nat.zero_add] at hold
      rw [if_neg hne, Nat.zero_add]
      exact hold
  case refs =>
    intro o ho hf
    rw [load_add, load_add, hp]
    by_cases hne : s.count = o
    · subst hne
      -- a job that has the address would have an object there
      have hjob : load (jobW v) R = 0 := by
        refine load_eq_zero _ fun b hb => ?_
        by_contra hw
        obtain ⟨c', hu⟩ := user_of_jobW (Nat.pos_of_ne_zero hw)
        obtain ⟨o, hao, e, he, -, ho⟩ := hI.users b (Multiset.mem_cons_of_mem hb) c' v hu
        obtain ⟨hlt, hfo⟩ := hI.live (handles_pos he ho)
        exact locate_none hl hlt hfo hao
      simp only [State.alloc, Function.update_self, if_true]
      rw [hput, hjob]
      show _ + _ + s.handles s.count ≤ 1
      rw [hhandles]
      simp [jobW]
    · have hold := hI.refs o (by have : o < s.count + 1 := ho; omega) hf
      rw [load_cons, load_cons, hself, Nat.zero_add] at hold
      simp only [State.alloc, Function.update_of_ne (Ne.symm hne), if_neg hne]
      show _ + _ + s.handles o ≤ _
      simpa [jobW] using hold
  case dead =>
    intro o hf
    have hne : s.count ≠ o := by
      rintro rfl
      exact absurd hf (by simp [State.alloc, hfreed])
    have hold := hI.dead o hf
    rw [load_cons, hself, Nat.zero_add] at hold
    rw [load_add, hp, if_neg hne, Nat.zero_add]
    exact hold
  case apart =>
    have hold : ∀ o, o < s.count + 1 → o ≠ s.count → o < s.count := fun o ho hne => by omega
    intro o o' ho ho' hf hf' ha
    by_cases hn : o = s.count <;> by_cases hn' : o' = s.count
    · rw [hn, hn']
    · subst hn
      simp only [State.alloc, Function.update_self, Function.update_of_ne hn'] at ha
      exact absurd ha.symm (locate_none hl (hold o' ho' hn') hf')
    · subst hn'
      simp only [State.alloc, Function.update_self, Function.update_of_ne hn] at ha
      exact absurd ha (locate_none hl (hold o ho hn) hf)
    · simp only [State.alloc, Function.update_of_ne hn, Function.update_of_ne hn'] at ha
      exact hI.apart o o' (hold o ho hn) (hold o' ho' hn') hf hf' ha
  case users =>
    intro b hb c' v' hu
    rcases Multiset.mem_add.mp hb with hb | hb
    · obtain rfl : b = _ := by simpa using hb
      cases hu
    · obtain ⟨o, hao, e, he, hec, heo⟩ := hI.users b (Multiset.mem_cons_of_mem hb) c' v' hu
      refine ⟨o, ?_, e, he, hec, heo⟩
      simpa only [State.alloc, Function.update_of_ne (hlive e he o heo)] using hao

theorem created (hI : Counted s (a ::ₘ R)) (ha : newW o a = 1) :
    o < s.count ∧ s.freed o = false ∧ putW o a + load (putW o) R = 1 ∧ load (newW o) R = 0 ∧
      s.handles o = 0 := by
  obtain ⟨hput, hh⟩ := hI.new o (by rw [load_cons]; omega)
  have hle : newW o a ≤ putW o a := by cases a <;> simp [newW, putW]
  have := newW_le_putW o R
  rw [load_cons] at hput
  refine ⟨?_, ?_, by omega, by omega, hh⟩
  · by_contra hn
    have := (hI.fresh o (by omega)).1
    rw [load_cons] at this
    omega
  · by_contra hf
    have := (hI.dead o (by simpa using hf)).1
    rw [load_cons] at this
    omega

theorem handleCreate (hI : Counted s (.handleCreate c o ::ₘ R)) (h : Nat) :
    Counted { s.get o with table := ⟨c, h, some o⟩ :: s.table }
      (((.put o :: copyResults c o : List Stmt) : Multiset Stmt) + R) := by
  obtain ⟨hlt, hfo, hput, hnew, hzero⟩ := hI.created (o := o) (by simp [newW])
  have hself : ∀ o', putW o' (.handleCreate c o) = if o = o' then 1 else 0 := fun _ => rfl
  have hjobs : ∀ v, jobW v (.handleCreate c o) = 0 := fun _ => rfl
  have hp : ∀ o', load (putW o') ((.put o :: copyResults c o : List Stmt) : Multiset Stmt) =
      putW o' (.handleCreate c o) := fun o' => by simp [copyResults, putW]
  have hp' : ∀ o', load (newW o') ((.put o :: copyResults c o : List Stmt) : Multiset Stmt) = 0 :=
    fun o' => by simp [copyResults, newW]
  have hj : ∀ v, load (jobW v) ((.put o :: copyResults c o : List Stmt) : Multiset Stmt) = 0 :=
    fun v => by simp [copyResults, jobW]
  have hh : ∀ o', State.handles { s.get o with table := ⟨c, h, some o⟩ :: s.table } o' =
      s.handles o' + if o = o' then 1 else 0 := by
    intro o'
    simp only [State.handles, List.countP_cons, decide_eq_true_eq, Option.some.injEq]
  rw [hself, if_pos rfl] at hput
  constructor
  case fresh =>
    intro o' ho'
    have hold := hI.fresh o' ho'
    rw [load_cons] at hold
    have hne : o ≠ o' := by rintro rfl; exact absurd hlt (Nat.not_lt.mpr ho')
    rw [load_add, hp, hh, if_neg hne]
    exact hold
  case new =>
    intro o' ho'
    rw [load_add, hp', Nat.zero_add] at ho'
    have hne : o ≠ o' := by rintro rfl; omega
    have hold := hI.new o' (by rw [load_cons]; omega)
    rw [load_cons] at hold
    rw [load_add, hp, hh, if_neg hne]
    exact hold
  case refs =>
    intro o' ho' hf'
    have hold := hI.refs o' ho' hf'
    rw [load_cons, load_cons, hjobs, Nat.zero_add] at hold
    show _ + load (jobW (s.addr o')) _ + _ ≤ (s.get o).refs o'
    rw [load_add, load_add, hp, hj, hh, Nat.zero_add]
    by_cases ho : o = o'
    · subst ho
      simp only [State.get, Function.update_self, if_true]
      omega
    · simp only [State.get, Function.update_of_ne (Ne.symm ho), if_neg ho]
      omega
  case dead =>
    intro o' hf'
    have hne : o ≠ o' := by
      rintro rfl
      exact absurd hf' (by simp [State.get, hfo])
    have hold := hI.dead o' hf'
    rw [load_cons] at hold
    rw [load_add, hp, hh, if_neg hne]
    exact hold
  case apart => exact hI.apart
  case users =>
    intro b hb c' v hu
    rcases Multiset.mem_add.mp hb with hb | hb
    · have hb : b ∈ .put o :: copyResults c o := by simpa using hb
      simp only [copyResults, List.mem_cons, List.not_mem_nil, or_false] at hb
      rcases hb with rfl | rfl | rfl | rfl | rfl <;> cases hu
    · obtain ⟨o', ha, e, he, hec, heo⟩ := hI.users b (Multiset.mem_cons_of_mem hb) c' v hu
      exact ⟨o', ha, e, List.mem_cons_of_mem _ he, hec, heo⟩

theorem objectDestroy {ret : Int} (hI : Counted s (.objectDestroy c o ret ::ₘ R)) :
    Counted (s.free o) ((([.returned c ret] : List Stmt) : Multiset Stmt) + R) := by
  obtain ⟨hlt, hfo, hput, hnew, hzero⟩ := hI.created (o := o) (by simp [newW])
  have hself : ∀ o', putW o' (.objectDestroy c o ret) = if o = o' then 1 else 0 := fun _ => rfl
  have hjobs : ∀ v, jobW v (.objectDestroy c o ret) = 0 := fun _ => rfl
  have hp : ∀ f : Stmt → Nat, f (.returned c ret) = 0 →
      load f ((([.returned c ret] : List Stmt) : Multiset Stmt) + R) = load f R := fun f hf => by
    rw [load_add, load_coe_cons, hf, load_coe_nil, Nat.zero_add]
  have hfreed : ∀ o', (s.free o).freed o' = false → o' ≠ o ∧ s.freed o' = false := by
    intro o' hf'
    by_cases ho : o' = o
    · subst ho
      simp [State.free] at hf'
    · simp only [State.free, Function.update_of_ne ho] at hf'
      exact ⟨ho, hf'⟩
  rw [hself, if_pos rfl] at hput
  constructor
  case fresh =>
    intro o' ho'
    have hold := hI.fresh o' ho'
    have hne : o' ≠ o := by rintro rfl; exact absurd hlt (Nat.not_lt.mpr ho')
    rw [load_cons] at hold
    rw [hp _ rfl]
    refine ⟨by omega, ?_, hold.2.2⟩
    simp only [State.free, Function.update_of_ne hne]
    exact hold.2.1
  case new =>
    intro o' ho'
    rw [hp _ rfl] at ho'
    have hne : o ≠ o' := by rintro rfl; omega
    have hold := hI.new o' (by rw [load_cons]; omega)
    rw [load_cons, hself, if_neg hne, Nat.zero_add] at hold
    rw [hp _ rfl]
    exact hold
  case refs =>
    intro o' ho' hf'
    obtain ⟨hne, hf⟩ := hfreed o' hf'
    have hold := hI.refs o' ho' hf
    rw [load_cons, load_cons, hjobs, hself, if_neg (Ne.symm hne), Nat.zero_add, Nat.zero_add] at hold
    rw [hp _ rfl, hp _ rfl]
    show _ + load (jobW (s.addr o')) _ + s.handles o' ≤ Function.update s.refs o 0 o'
    rw [Function.update_of_ne hne]
    exact hold
  case dead =>
    intro o' hf'
    rw [hp _ rfl]
    by_cases ho : o' = o
    · subst ho
      exact ⟨by omega, hzero⟩
    · simp only [State.free, Function.update_of_ne ho] at hf'
      have hold := hI.dead o' hf'
      rw [load_cons] at hold
      exact ⟨by omega, hold.2⟩
  case apart =>
    intro o₁ o₂ h₁ h₂ hf₁ hf₂ ha
    exact hI.apart o₁ o₂ h₁ h₂ (hfreed o₁ hf₁).2 (hfreed o₂ hf₂).2 ha
  case users =>
    intro b hb c' v hu
    rcases Multiset.mem_add.mp hb with hb | hb
    · obtain rfl : b = _ := by simpa using hb
      cases hu
    · exact hI.users b (Multiset.mem_cons_of_mem hb) c' v hu

theorem handleDelete (hI : Counted s (.handleDelete c h ::ₘ R)) (hl : s.lookup c h = some o)
    (hG : ∀ b ∈ R, b.user ≠ some (c, s.addr o)) :
    Counted { s with table := ⟨c, h, none⟩ :: s.table.erase ⟨c, h, some o⟩ }
      ((([.put o, .idrRemove c h, .returned c 0] : List Stmt) : Multiset Stmt) + R) := by
  have hmem := lookup_mem hl
  have hpos := handles_pos hmem rfl
  obtain ⟨hlt, hfo⟩ := hI.live hpos
  have hp : ∀ o', load (putW o')
      (([.put o, .idrRemove c h, .returned c 0] : List Stmt) : Multiset Stmt) =
        if o = o' then 1 else 0 :=
    fun o' => by simp [putW]
  have hp' : ∀ o', load (newW o')
      (([.put o, .idrRemove c h, .returned c 0] : List Stmt) : Multiset Stmt) = 0 :=
    fun o' => by simp [newW]
  have hj : ∀ v, load (jobW v)
      (([.put o, .idrRemove c h, .returned c 0] : List Stmt) : Multiset Stmt) = 0 :=
    fun v => by simp [jobW]
  have hself : ∀ o', putW o' (.handleDelete c h) = 0 := fun _ => rfl
  have hself' : ∀ o', newW o' (.handleDelete c h) = 0 := fun _ => rfl
  have hjobs : ∀ v, jobW v (.handleDelete c h) = 0 := fun _ => rfl
  have hh := handles_delete hmem
  constructor
  case fresh =>
    intro o' ho'
    have hold := hI.fresh o' ho'
    have hne : o ≠ o' := by rintro rfl; exact absurd hlt (Nat.not_lt.mpr ho')
    have := hh o'
    rw [if_neg hne] at this
    rw [load_cons, hself, Nat.zero_add] at hold
    rw [load_add, hp, if_neg hne, Nat.zero_add]
    exact ⟨hold.1, hold.2.1, by omega⟩
  case new =>
    intro o' ho'
    rw [load_add, hp', Nat.zero_add] at ho'
    have hold := hI.new o' (by rw [load_cons]; omega)
    have hne : o ≠ o' := by rintro rfl; omega
    have := hh o'
    rw [if_neg hne] at this
    rw [load_cons, hself, Nat.zero_add] at hold
    rw [load_add, hp, if_neg hne, Nat.zero_add]
    exact ⟨hold.1, by omega⟩
  case refs =>
    intro o' ho' hf'
    have hold := hI.refs o' ho' hf'
    have := hh o'
    rw [load_cons, load_cons, hself, hjobs, Nat.zero_add, Nat.zero_add] at hold
    show _ + load (jobW (s.addr o')) _ + _ ≤ s.refs o'
    rw [load_add, load_add, hp, hj, Nat.zero_add]
    omega
  case dead =>
    intro o' hf'
    have hold := hI.dead o' hf'
    have hne : o ≠ o' := by rintro rfl; omega
    have := hh o'
    rw [if_neg hne] at this
    rw [load_cons, hself, Nat.zero_add] at hold
    rw [load_add, hp, if_neg hne, Nat.zero_add]
    exact ⟨hold.1, by omega⟩
  case apart => exact hI.apart
  case users =>
    intro b hb c' v hu
    rcases Multiset.mem_add.mp hb with hb | hb
    · have hb : b ∈ [.put o, .idrRemove c h, .returned c 0] := by simpa using hb
      simp only [List.mem_cons, List.not_mem_nil, or_false] at hb
      rcases hb with rfl | rfl | rfl <;> cases hu
    · obtain ⟨o', ha, e, he, hec, heo⟩ := hI.users b (Multiset.mem_cons_of_mem hb) c' v hu
      refine ⟨o', ha, e, List.mem_cons_of_mem _ ((List.mem_erase_of_ne ?_).mpr he), hec, heo⟩
      -- the entry is not the one of the handle
      rintro rfl
      cases hec
      cases heo
      exact hG b hb (ha ▸ hu)

theorem idrRemove (hI : Counted s (.idrRemove c h ::ₘ R)) :
    Counted { s with table := s.table.erase ⟨c, h, none⟩ } R := by
  have hp : ∀ f : Stmt → Nat, f (.idrRemove c h) = 0 → load f (.idrRemove c h ::ₘ R) = load f R :=
    fun f hf => by rw [load_cons, hf, Nat.zero_add]
  have hh := handles_remove s c h
  constructor
  case fresh =>
    intro o ho
    have hold := hI.fresh o ho
    rw [hp _ rfl] at hold
    exact ⟨hold.1, hold.2.1, (hh o).trans hold.2.2⟩
  case new =>
    intro o ho
    have hold := hI.new o (by rwa [hp _ rfl])
    rw [hp _ rfl] at hold
    exact ⟨hold.1, (hh o).trans hold.2⟩
  case refs =>
    intro o ho hf
    have hold := hI.refs o ho hf
    rw [hp _ rfl, hp _ rfl] at hold
    show _ + load (jobW (s.addr o)) _ + _ ≤ s.refs o
    rw [hh]
    exact hold
  case dead =>
    intro o hf
    have hold := hI.dead o hf
    rw [hp _ rfl] at hold
    exact ⟨hold.1, (hh o).trans hold.2⟩
  case apart => exact hI.apart
  case users =>
    intro b hb c' v hu
    obtain ⟨o', ha, e, he, hec, heo⟩ := hI.users b (Multiset.mem_cons_of_mem hb) c' v hu
    refine ⟨o', ha, e, (List.mem_erase_of_ne ?_).mpr he, hec, heo⟩
    rintro rfl
    cases heo

theorem decides (hI : Counted s (a ::ₘ R)) (hput : ∀ o, load (putW o) (p : Multiset Stmt) = putW o a)
    (hnew : ∀ o, load (newW o) (p : Multiset Stmt) = newW o a)
    (hjob : ∀ v, load (jobW v) (p : Multiset Stmt) = jobW v a)
    (huser : ∀ b ∈ p, ∀ u, b.user = some u → a.user = some u) :
    Counted s ((p : Multiset Stmt) + R) :=
  hI.quiet rfl rfl rfl rfl rfl hput hnew hjob huser

theorem exec_createFind (hI : Counted s (.createFind c v ::ₘ R))
    (h : Gem.exec (.createFind c v) x s = some (s', p)) :
    Counted s' ((p : Multiset Stmt) + R) := by
  simp only [Gem.exec, Option.some.injEq] at h
  split at h <;> cases h
  · exact hI.find ‹_› (fun _ => rfl) (fun _ => rfl) (fun o' => by simp [copyResults, putW])
      (fun o' => by simp [copyResults, newW]) (fun v => by simp [copyResults, jobW])
      (by simp [copyResults, Stmt.user])
  · exact hI.decides (fun _ => rfl) (fun _ => rfl) (fun _ => rfl) (by simp [Stmt.user])

theorem exec_objectCreate (hI : Counted s (.objectCreate c ::ₘ R))
    (h : Gem.exec (.objectCreate c) x s = some (s', p)) :
    Counted s' ((p : Multiset Stmt) + R) := by
  simp only [Gem.exec] at h
  split at h
  · cases h
    exact hI.decides (fun _ => rfl) (fun _ => rfl) (fun _ => rfl) (by simp [Stmt.user])
  split at h
  · cases h
  · rename_i hno
    cases h
    exact hI.objectCreate (by simpa using (not_or.mp hno).2)

theorem exec_handleCreate (hI : Counted s (.handleCreate c o ::ₘ R))
    (h : Gem.exec (.handleCreate c o) x s = some (s', p)) :
    Counted s' ((p : Multiset Stmt) + R) := by
  simp only [Gem.exec] at h
  split at h
  · cases h
    exact hI.decides (fun _ => by simp [putW]) (fun _ => by simp [newW]) (fun _ => rfl)
      (by simp [Stmt.user])
  split at h <;> cases h
  exact hI.handleCreate x.handle

theorem exec_destroyFind (hI : Counted s (.destroyFind c v ::ₘ R))
    (h : Gem.exec (.destroyFind c v) x s = some (s', p)) :
    Counted s' ((p : Multiset Stmt) + R) := by
  simp only [Gem.exec, Option.some.injEq] at h
  split at h <;> cases h
  · exact hI.find ‹_› (fun _ => rfl) (fun _ => rfl) (fun o' => by simp [putW])
      (fun o' => by simp [newW]) (fun v => by simp [jobW]) (by simp [Stmt.user])
  · exact hI.decides (fun _ => rfl) (fun _ => rfl) (fun _ => rfl) (by simp [Stmt.user])

theorem exec_use {u : Use} (hI : Counted s (.use c v u ::ₘ R))
    (h : Gem.exec (.use c v u) x s = some (s', p)) : Counted s' ((p : Multiset Stmt) + R) := by
  have hI₁ := hI.access c v
  obtain ⟨o, ha, e, he, -, ho⟩ := hI₁.users _ (Multiset.mem_cons_self (.use c v u) R) c v rfl
  have hpos := handles_pos he ho
  obtain ⟨hlt, hfo⟩ := hI₁.live hpos
  have hl := hI₁.locate_eq hlt hfo
  rw [ha] at hl
  cases u with
  | jobGet =>
    simp only [Gem.exec, hl, Option.elim_some] at h
    cases h
    refine hI₁.get hpos (fun _ => rfl) (fun _ => rfl) (fun o' ho' hf' => ?_) (fun _ _ => rfl)
      (fun _ => rfl) (by simp [Stmt.user])
    simp only [load_coe_cons, load_coe_nil, putW, jobW, Nat.zero_add, Nat.add_zero]
    by_cases hv : v = (s.access c v).addr o'
    · rw [if_pos (hI₁.apart o o' hlt ho' hfo hf' (ha.trans hv))]
      split <;> decide
    · rw [if_neg hv]
      exact Nat.zero_le _
  | jobPut =>
    simp only [Gem.exec, hl, Option.elim_some] at h
    cases h
    rw [Multiset.coe_nil, zero_add]
    exact hI₁.put hlt hfo (by simp [putW, jobW, ha])
  | _ =>
    simp only [Gem.exec, Option.some.injEq] at h
    try split at h
    all_goals
      cases h
      exact hI₁.decides (fun _ => rfl) (fun _ => rfl) (fun _ => rfl) (by simp [Stmt.user])

theorem exec (hI : Counted s (a ::ₘ R)) (hG : addressGuard.run s (a ::ₘ R) a x)
    (h : Gem.exec a x s = some (s', p)) : Counted s' ((p : Multiset Stmt) + R) := by
  cases a with
  | createFind c h' => exact hI.exec_createFind h
  | objectCreate c => exact hI.exec_objectCreate h
  | handleCreate c o => exact hI.exec_handleCreate h
  | objectDestroy c o ret =>
    cases h
    exact hI.objectDestroy
  | read o f =>
    cases h
    exact hI.quiet rfl rfl rfl rfl rfl (fun _ => rfl) (fun _ => rfl) (fun _ => rfl) (by simp)
  | put o =>
    cases h
    obtain ⟨hlt, hfo⟩ := hI.held (o := o) (by simp [putW])
    rw [Multiset.coe_nil, zero_add]
    exact hI.put hlt hfo (by simp [putW, jobW])
  | destroyFind c h' => exact hI.exec_destroyFind h
  | destroyDomain c h' o k =>
    simp only [Gem.exec, Option.some.injEq] at h
    split at h <;> try split at h
    all_goals
      cases h
      exact hI.quiet rfl rfl rfl rfl rfl (fun _ => rfl) (fun _ => rfl) (fun _ => rfl)
        (by simp [Stmt.user])
  | handleDelete c h' =>
    simp only [Gem.exec, Option.some.injEq] at h
    split at h <;> cases h
    · rename_i o hl
      exact hI.handleDelete hl fun b hb => hG c h' o rfl hl b (Multiset.mem_cons_of_mem hb)
    · exact hI.decides (fun _ => rfl) (fun _ => rfl) (fun _ => rfl) (by simp [Stmt.user])
  | idrRemove c h' =>
    cases h
    rw [Multiset.coe_nil, zero_add]
    exact hI.idrRemove
  | syncCheck c v =>
    simp only [Gem.exec, Option.some.injEq] at h
    split at h <;> rename_i hv <;> cases h
    · exact hI.decides (fun _ => rfl) (fun _ => rfl) (fun _ => rfl) (by simp [Stmt.user])
    · exact hI.decides (fun _ => rfl) (fun _ => rfl) (fun _ => rfl) (by simp [Stmt.user, hv])
  | use c v u => exact hI.exec_use h
  | jobRun c v =>
    simp only [Gem.exec, Option.some.injEq] at h
    split at h <;> cases h
    all_goals
      exact hI.decides (fun _ => rfl) (fun _ => rfl) (fun _ => by simp [jobW]) (by simp [Stmt.user])
  | returned c ret =>
    cases h
    exact hI.decides (fun _ => rfl) (fun _ => rfl) (fun _ => rfl) (by simp)

theorem occur {e : Occurrence} (hI : Counted s R) (hG : addressGuard.env s R e)
    (h : Gem.occur e s = some (s', p)) : Counted s' ((p : Multiset Stmt) + R) := by
  have hspawn : ∀ b : Stmt, (∀ o, putW o b = 0) → (∀ o, newW o b = 0) → (∀ v, jobW v b = 0) →
      (∀ c v, b.user = some (c, v) → s.allowed c v) →
      Counted s ((([b] : List Stmt) : Multiset Stmt) + R) := by
    intro b hput hnew hjob huser
    have hload : ∀ f : Stmt → Nat, f b = 0 →
        load f ((([b] : List Stmt) : Multiset Stmt) + R) = load f R := fun f hf => by
      rw [load_add, load_coe_cons, hf, load_coe_nil, Nat.zero_add]
    constructor
    case fresh => simpa only [hload _ (hput _)] using hI.fresh
    case new => simpa only [hload _ (hput _), hload _ (hnew _)] using hI.new
    case refs => simpa only [hload _ (hput _), hload _ (hjob _)] using hI.refs
    case dead => simpa only [hload _ (hput _)] using hI.dead
    case apart => exact hI.apart
    case users =>
      intro b' hb' c v hu
      rcases Multiset.mem_add.mp hb' with hb' | hb'
      · obtain rfl : b' = b := by simpa using hb'
        obtain ⟨o, hl, hany⟩ := (Option.any_eq_true _ _).mp (huser c v hu)
        obtain ⟨e, he, hkey⟩ := List.any_eq_true.mp hany
        rw [Bool.and_eq_true, beq_iff_eq, beq_iff_eq] at hkey
        exact ⟨o, (locate_some hl).2.2, e, he, hkey⟩
      · exact hI.users b' hb' c v hu
  cases e with
  | create c h' | destroy c h' =>
    cases h
    exact hspawn _ (fun _ => rfl) (fun _ => rfl) (fun _ => rfl) fun _ _ hu => nomatch hu
  | sync c v =>
    cases h
    refine hspawn _ (fun _ => rfl) (fun _ => rfl) (fun _ => rfl) fun c' v' hu => ?_
    rw [Stmt.user] at hu
    split at hu
    · cases hu
    · cases hu
      exact hG.resolve_left ‹_›
  | submit c v =>
    cases h
    refine hspawn _ (fun _ => rfl) (fun _ => rfl) (fun _ => rfl) fun c' v' hu => ?_
    cases hu
    exact hG

theorem reach (hC : Reach machine addressGuard State.init C) : Counted C.shared C.pending := by
  refine hC.invariant Counted ?_ (fun _ _ _ _ _ _ hI hG h => hI.exec hG h)
    fun _ _ _ _ _ hI hG h => hI.occur hG h
  constructor <;> simp [State.init, State.handles]

end Counted

end Gem

end Rknpu

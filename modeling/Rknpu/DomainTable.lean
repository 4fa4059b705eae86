import Rknpu.ObjectDomain
import Rknpu.Ledger

namespace Rknpu.DomainTable

open Interleaving Ledger

/-- `allocated` are the IOMMU domains that the driver has allocated and not yet freed. -/
structure State where
  dom : Domain.State
  allocated : Multiset Nat

def State.init (P : Domain.Probe) (dom : Nat) : State := ⟨Domain.State.init P dom, 0⟩

def State.setDomain (s : State) (i : Int) (o : Option Nat) : State :=
  { s with dom := { s.dom with domains := Function.update s.dom.domains i o } }

/-- Who calls `rknpu_iommu_domain_get_and_switch`: a user of a domain, or
`rknpu_iommu_free_domains`. -/
inductive Caller where
  | user
  | freeDomains
deriving DecidableEq

inductive Stmt where
  | get (r : Caller) (a : Domain.Stmt)
  -- rknpu_iommu_free_domains, with `i` and the domain of entry `i`
  | entry (i : Int)
  | detach (i : Int) (dom : Nat)
  | free (i : Int) (dom : Nat)
  | clear (i : Int) (dom : Nat)
deriving DecidableEq

variable (P : Domain.Probe)

/-- What `rknpu_iommu_switch_domain` allocates, and frees if it cannot be attached. -/
def account (a : Domain.Stmt) (x : Domain.Reply) (l : Multiset Nat) : Multiset Nat :=
  match a with
  | .alloc _ _ _ => (x.domain.toList : Multiset Nat) + l
  | .attach _ _ _ dst true => if x.ret = 0 then l else l.erase dst
  | _ => l

/-- What the caller does when `rknpu_iommu_domain_get_and_switch` returns. -/
def Caller.after (r : Caller) (a : Domain.Stmt) : List Stmt :=
  match r, a with
  | .freeDomains, .returned _ _ ret => if ret = 0 then [.entry 1] else []
  | _, _ => []

def exec (a : Stmt) (x : Domain.Reply) (s : State) : Option (State × List Stmt) :=
  match a with
  | .get r a =>
    (Domain.exec P a x s.dom).map fun t =>
      (⟨t.1, account a x s.allocated⟩, r.after a ++ t.2.map (.get r))
  | .entry i =>
    some (s, if i < maxDomains then
        match s.dom.domains i with
        | some dom => [.detach i dom]
        | none => [.entry (i + 1)]
      else [])
  -- nothing happens where the device is not attached to the domain
  | .detach i dom =>
    some (if s.dom.attached = some dom then { s with dom := { s.dom with attached := x.domain } }
      else s, [.free i dom])
  | .free i dom => some ({ s with allocated := s.allocated.erase dom }, [.clear i dom])
  | .clear i _ => some (s.setDomain i none, [.entry (i + 1)])

inductive Occurrence where
  | get (d : Int)
  | softReset
  | freeDomains

def occur (e : Occurrence) (s : State) : Option (State × List Stmt) :=
  match e with
  | .get d =>
    (Domain.occur (.get d) s.dom).map fun t => ({ s with dom := t.1 }, t.2.map (.get .user))
  | .softReset =>
    (Domain.occur .softReset s.dom).map fun t => ({ s with dom := t.1 }, t.2.map (.get .user))
  | .freeDomains =>
    (Domain.occur (.get 0) s.dom).map fun t => ({ s with dom := t.1 }, t.2.map (.get .freeDomains))

def machine : Machine State Stmt Domain.Reply Occurrence := ⟨exec P, occur⟩

def Stmt.driver : Stmt → Option Domain.Stmt
  | .get _ a => some a
  | _ => none

/-- In a call of `rknpu_iommu_free_domains`. -/
def Stmt.frees : Stmt → Bool
  | .get .user _ => false
  | _ => true

/-- The driver frees its domains when it is removed, which nobody does twice at a time, and
only where it has an IOMMU. -/
def removeGuard : Guard State Stmt Domain.Reply Occurrence where
  run _ _ _ _ := True
  env _ B e := e = .freeDomains → P.iommuEn ∧ ∀ a ∈ B, a.frees = false

/-- The entry of the table that the call has found empty and is about to fill. -/
def fills : Domain.Stmt → Option Int
  | .alloc _ d _ | .detach _ d _ _ true | .attach _ d _ _ true | .switchId _ d _ true
  | .switchTable _ d _ => some d
  | _ => none

/-- The domain that the call has allocated and not yet put into the table. -/
def fresh : Domain.Stmt → Option Nat
  | .detach _ _ _ dst true | .attach _ _ _ dst true | .switchId _ _ dst true
  | .switchTable _ _ dst => some dst
  | _ => none

def Stmt.fills : Stmt → Option Int
  | .get _ a => DomainTable.fills a
  | _ => none

def Stmt.fresh : Stmt → Option Nat
  | .get _ a => DomainTable.fresh a
  | _ => none

def Stmt.stale : Stmt → Option Nat
  | .clear _ dom => some dom
  | _ => none

def Stmt.read : Stmt → Option (Int × Nat)
  | .detach i dom | .free i dom | .clear i dom => some (i, dom)
  | _ => none

def Stmt.sweep : Stmt → Option Int
  | .entry i | .detach i _ | .free i _ | .clear i _ => some i
  | _ => none

/-- The domain that the statement may free. -/
def Stmt.gives : Stmt → Option Nat
  | .get _ (.attach _ _ _ dst true) | .free _ dst => some dst
  | _ => none

def freeW : Stmt → Nat
  | .get .freeDomains _ => 1
  | _ => 0

def sweepW (b : Stmt) : Nat := if b.sweep.isSome then 1 else 0

/-- The entries of `iommu_domains` that the driver fills. -/
noncomputable def slots : Finset Int := Finset.Ioo 0 maxDomains

def known (f : Stmt → Option Nat) (B : Multiset Stmt) : Multiset Nat :=
  B.bind fun a => ((f a).toList : Multiset Nat)

variable {P} {s s' : State} {a : Stmt} {x : Domain.Reply} {p : List Stmt} {B R : Multiset Stmt}
  {G : Guard State Stmt Domain.Reply Occurrence} {C : Conf State Stmt} {dom : Nat} {r : Caller}

theorem known_cons (f : Stmt → Option Nat) (a : Stmt) (B : Multiset Stmt) :
    known f (a ::ₘ B) = ((f a).toList : Multiset Nat) + known f B := Multiset.cons_bind _ _ _

theorem known_add (f : Stmt → Option Nat) (A B : Multiset Stmt) :
    known f (A + B) = known f A + known f B := Multiset.add_bind _ _ _

theorem known_eq_zero {f : Stmt → Option Nat} (h : ∀ b ∈ B, f b = none) : known f B = 0 := by
  induction B using Multiset.induction with
  | empty => rfl
  | cons b B ih =>
    rw [known_cons, h b (Multiset.mem_cons_self b B),
      ih fun c hc => h c (Multiset.mem_cons_of_mem hc)]
    rfl

theorem exec_get {b : Domain.Stmt} (h : exec P (.get r b) x s = some (s', p)) :
    ∃ t q, Domain.exec P b x s.dom = some (t, q) ∧ s' = ⟨t, account b x s.allocated⟩ ∧
      p = r.after b ++ q.map (.get r) := by
  obtain ⟨⟨t, q⟩, ht, he⟩ := Option.map_eq_some_iff.mp h
  cases he
  exact ⟨t, q, ht, rfl, rfl⟩

theorem after_eq (r : Caller) (b : Domain.Stmt) :
    r.after b = [] ∨ r = .freeDomains ∧ (∃ n d, b = .returned n d 0) ∧ r.after b = [.entry 1] := by
  cases r with
  | user => exact .inl rfl
  | freeDomains =>
    cases b with
    | returned n d ret =>
      by_cases hz : ret = 0
      · subst hz
        exact .inr ⟨rfl, ⟨n, d, rfl⟩, rfl⟩
      · exact .inl (if_neg hz)
    | _ => exact .inl rfl

theorem occur_threads {e : Occurrence} (h : occur e s = some (s', p)) :
    s'.allocated = s.allocated ∧ s'.dom.domains = s.dom.domains ∧
      ((∃ d, Domain.occur (.get d) s.dom = some (s'.dom, [.lock s.dom.calls d]) ∧
          p = [.get .user (.lock s.dom.calls d)]) ∨
        (Domain.occur .softReset s.dom = some (s'.dom, [.softReset]) ∧
          p = [.get .user .softReset]) ∨
        e = .freeDomains ∧ Domain.occur (.get 0) s.dom = some (s'.dom, [.lock s.dom.calls 0]) ∧
          p = [.get .freeDomains (.lock s.dom.calls 0)]) := by
  cases e with
  | get d => cases h; exact ⟨rfl, rfl, .inl ⟨d, rfl, rfl⟩⟩
  | softReset => cases h; exact ⟨rfl, rfl, .inr (.inl ⟨rfl, rfl⟩)⟩
  | freeDomains => cases h; exact ⟨rfl, rfl, .inr (.inr ⟨rfl, rfl, rfl⟩)⟩

inductive Shape : List Stmt → Prop
  | nil : Shape []
  | user (b : Domain.Stmt) : Shape [.get .user b]
  | call (b : Domain.Stmt) (hb : ObjectDomain.wanted b = some 0) : Shape [.get .freeDomains b]
  | sweep (b : Stmt) (n : Nat) (hb : b.sweep.isSome) :
      Shape [b, .get .freeDomains (.put n 0)]

theorem shape_exec {k : List Stmt} (hT : Shape (a :: k)) (h : exec P a x s = some (s', p)) :
    Shape (p ++ k) := by
  cases hT with
  | user b =>
    obtain ⟨t, q, ht, -, rfl⟩ := exec_get h
    obtain rfl | ⟨c, rfl, -⟩ := ObjectDomain.exec_single ht
    · exact .nil
    · exact .user c
  | call b hb =>
    obtain ⟨t, q, ht, -, rfl⟩ := exec_get h
    rcases after_eq .freeDomains b with hr | ⟨-, ⟨n, d, rfl⟩, hr⟩
    · rw [hr, List.append_nil, List.nil_append]
      obtain rfl | ⟨c, rfl, hc, -⟩ := ObjectDomain.exec_single ht
      · exact .nil
      · exact .call c (hc.trans hb)
    · cases ht
      cases hb
      exact .sweep (.entry 1) n rfl
  | sweep b n hb =>
    cases a with
    | get r b => cases hb
    | entry i =>
      cases h
      split
      · split <;> exact .sweep _ n rfl
      · exact .call _ rfl
    | detach i dom => cases h; exact .sweep _ n rfl
    | free i dom => cases h; exact .sweep _ n rfl
    | clear i dom => cases h; exact .sweep _ n rfl

theorem shapes (hC : Reach (machine P) G (State.init P dom) C) : ∀ t ∈ C.threads, Shape t := by
  refine hC.threads_all Shape (fun _ _ _ _ _ _ _ hT _ h => shape_exec hT h) ?_
  intro s B e s' p _ h
  obtain ⟨-, -, ⟨d, -, rfl⟩ | ⟨-, rfl⟩ | ⟨-, -, rfl⟩⟩ := occur_threads h
  · exact .user _
  · exact .user _
  · exact .call _ rfl

theorem sweep_held (hC : Reach (machine P) G (State.init P dom) C) {b : Stmt} (hb : b ∈ C.pending)
    (hs : b.sweep.isSome) : ∃ n, .get .freeDomains (.put n 0) ∈ C.pending := by
  obtain ⟨t, ht, hbt⟩ := List.mem_flatten.mp (Multiset.mem_coe.mp hb)
  have hmem : ∀ c ∈ t, c ∈ C.pending := fun c hc =>
    Multiset.mem_coe.mpr (List.mem_flatten.mpr ⟨t, ht, hc⟩)
  cases shapes hC t ht with
  | nil => cases hbt
  | user c => obtain rfl := List.mem_singleton.mp hbt; cases hs
  | call c => obtain rfl := List.mem_singleton.mp hbt; cases hs
  | sweep c n => exact ⟨n, hmem _ (by simp)⟩

theorem sweepW_le (hC : Reach (machine P) G (State.init P dom) C) :
    load sweepW C.pending ≤ load freeW C.pending := by
  refine load_le_of_threads sweepW fun t ht => ?_
  cases shapes hC t ht with
  | sweep b n hb =>
    have hle : sweepW b ≤ 1 := by
      unfold sweepW
      split <;> omega
    have hput : sweepW (.get .freeDomains (.put n 0)) = 0 := rfl
    have hfree : freeW (.get .freeDomains (.put n 0)) = 1 := rfl
    simp only [load_coe_cons, load_coe_nil]
    omega
  | _ => simp [sweepW, Stmt.sweep]

theorem freeW_le_one (hC : Reach (machine P) (removeGuard P) (State.init P dom) C) :
    load freeW C.pending ≤ 1 := by
  refine hC.invariant (fun _ B => load freeW B ≤ 1) (by simp [load]) ?_ ?_
  · intro s R a x s' p hI _ h
    replace h : exec P a x s = some (s', p) := h
    rw [load_cons] at hI
    rw [load_add]
    suffices hp : load freeW (p : Multiset Stmt) ≤ freeW a by omega
    cases a with
    | get r b =>
      obtain ⟨t, q, ht, -, rfl⟩ := exec_get h
      have hafter : load freeW (r.after b : Multiset Stmt) = 0 := by
        rcases after_eq r b with hr | ⟨-, -, hr⟩ <;> rw [hr] <;> rfl
      rw [← Multiset.coe_add, load_add, hafter, Nat.zero_add]
      obtain rfl | ⟨c, rfl, -⟩ := ObjectDomain.exec_single ht <;> cases r <;> simp [load, freeW]
    | entry i =>
      cases h
      split
      · split <;> simp [load, freeW]
      · simp [load]
    | _ => cases h; simp [load, freeW]
  · intro s R e s' p hI hG h
    rw [load_add]
    obtain ⟨-, -, ⟨d, -, rfl⟩ | ⟨-, rfl⟩ | ⟨rfl, -, rfl⟩⟩ := occur_threads h
    · simpa [load, freeW] using hI
    · simpa [load, freeW] using hI
    · have hR : load freeW R = 0 := load_eq_zero _ fun b hb => by
        have := (hG rfl).2 b hb
        cases b with
        | get r b => cases r <;> simp_all [Stmt.frees, freeW]
        | _ => rfl
      rw [hR]
      rfl

theorem exec_account {b : Domain.Stmt} {t t' : Domain.State} {q : List Domain.Stmt}
    {l : Multiset Nat} (hb : ∀ n d dst, b ≠ .switchTable n d dst)
    (hl : ∀ dst, (Stmt.get r b).gives = some dst → dst ∈ l)
    (h : Domain.exec P b x t = some (t', q)) :
    t'.domains = t.domains ∧
      account b x l + ((fresh b).toList : Multiset Nat) =
        l + known Stmt.fresh (q.map (Stmt.get r) : Multiset Stmt) ∧
      ∀ c ∈ q, ∀ d, fills c = some d →
        fills b = some d ∨ ∃ n src, b = .dest n d src ∧ t.domains d = none := by
  cases b <;> simp only [Domain.exec, Domain.switchDomain, Option.some.injEq] at h
  case switchTable n d dst => exact absurd rfl (hb n d dst)
  case attach n d src dst new =>
    cases new with
    | false => split at h <;> cases h <;> simp [account, fresh, known, Stmt.fresh, fills]
    | true =>
      have hmem := hl dst rfl
      split at h <;> rename_i hx <;> cases h
      · simp [account, fresh, known, Stmt.fresh, fills, hx]
      · refine ⟨rfl, ?_, by simp [fills]⟩
        have herase : {dst} + l.erase dst = l := Multiset.cons_erase hmem
        simpa [account, hx, fresh, known, Stmt.fresh, add_comm] using herase
  case alloc n d src =>
    cases hx : x.domain with
    | none => rw [hx] at h; cases h; simp [account, fresh, known, Stmt.fresh, fills, hx]
    | some dst =>
      rw [hx] at h
      cases h
      simp [account, fresh, known, Stmt.fresh, fills, hx, add_comm]
  case dest n d src =>
    cases hd : t.domains d with
    | none => rw [hd] at h; cases h; simp [account, fresh, known, Stmt.fresh, fills, hd]
    | some dst => rw [hd] at h; cases h; simp [account, fresh, known, Stmt.fresh, fills]
  case detach n d src dst new => cases h; cases new <;> simp [account, fresh, known, Stmt.fresh, fills]
  case switchId n d dst new =>
    cases new <;> cases h <;> simp [account, fresh, known, Stmt.fresh, fills]
  all_goals
    repeat' split at h
    all_goals
      cases h <;> simp [account, fresh, known, Stmt.fresh, fills]

theorem mem_slots {i : Int} : i ∈ slots ↔ 0 < i ∧ i < maxDomains := Finset.mem_Ioo

structure Calls (P : Domain.Probe) (s : State) (B : Multiset Stmt) : Prop where
  kept : Domain.Kept s.dom (B.filterMap Stmt.driver)
  once : load freeW B ≤ 1
  sweeps : load sweepW B ≤ load freeW B
  held : ∀ b ∈ B, b.sweep.isSome → ∃ n, .get .freeDomains (.put n 0) ∈ B
  enabled : ∀ r b, .get r b ∈ B → b.switches.isSome → P.iommuEn

/-- Every domain that the driver has allocated is in its table, or on the way to it, and is
freed as long as it is in the table. -/
structure Sound (P : Domain.Probe) (s : State) (B : Multiset Stmt) : Prop where
  balance : s.allocated + known Stmt.stale B = entries slots s.dom.domains + known Stmt.fresh B
  fills : ∀ b ∈ B, ∀ d, b.fills = some d → s.dom.domains d = none ∧ d ∈ slots
  read : ∀ b ∈ B, ∀ i dom, b.read = some (i, dom) → s.dom.domains i = some dom ∧ i ∈ slots
  swept : ∀ b ∈ B, ∀ i, b.sweep = some i → 0 < i ∧ ∀ j ∈ slots, j < i → s.dom.domains j = none
  first : P.iommuEn → (s.dom.domains 0).isSome
  done : ∀ n, .get .freeDomains (.put n 0) ∈ B → (∀ b ∈ B, b.sweep = none) →
    ∀ j ∈ slots, s.dom.domains j = none

namespace Calls

theorem mem_driver {b : Domain.Stmt} (hb : .get r b ∈ B) : b ∈ B.filterMap Stmt.driver :=
  (Multiset.mem_filterMap _ _).mpr ⟨_, hb, rfl⟩

theorem no_fills (hJ : Calls P s B) (hI : Sound P s B) {n : Nat}
    (hput : .get .freeDomains (.put n 0) ∈ B) : ∀ b ∈ B, b.fills = none := by
  intro b hb
  by_contra hne
  obtain ⟨d, hd⟩ := Option.ne_none_iff_exists'.mp hne
  have hslot := mem_slots.mp (hI.fills b hb d hd).2
  have hsel := hJ.kept.pinned.selected _ (mem_driver hput) 0 rfl
  have hrefs : 1 ≤ s.dom.pin.refs := by
    have := le_load Domain.holdW (mem_driver hput)
    have := hJ.kept.refs
    simp only [Domain.holdW] at *
    omega
  cases b with
  | get r c =>
    have hc := mem_driver hb
    have hsw : ∀ d, c.switches = some d → False := fun d hsw => by
      have := (hJ.kept.pinned.switches c hc d hsw).1
      omega
    cases c with
    | switchTable n d dst =>
      cases hd
      have := hJ.kept.pinned.selected _ hc _ rfl
      omega
    | alloc n d src => exact hsw d rfl
    | detach n d src dst new => exact hsw d rfl
    | attach n d src dst new => exact hsw d rfl
    | switchId n d dst new => exact hsw d rfl
    | _ => cases hd
  | _ => cases hd

theorem no_sweep (hJ : Calls P s B) (hI : Sound P s B) {b : Stmt} {d : Int} (hb : b ∈ B)
    (hd : b.fills = some d) : ∀ c ∈ B, c.sweep = none := by
  intro c hc
  by_contra hne
  obtain ⟨n, hput⟩ := hJ.held c hc (Option.isSome_iff_ne_none.mpr hne)
  rw [no_fills hJ hI hput b hb] at hd
  cases hd

theorem stale_eq_zero (h : ∀ c ∈ B, c.sweep = none) : known Stmt.stale B = 0 :=
  known_eq_zero fun c hc => by
    have := h c hc
    cases c <;> first | rfl | cases this

theorem fresh_eq_zero (h : ∀ b ∈ B, b.fills = none) : known Stmt.fresh B = 0 :=
  known_eq_zero fun b hb => by
    have hf := h b hb
    cases b with
    | get r b =>
      cases b with
      | detach n d src dst new => cases new <;> first | rfl | cases hf
      | attach n d src dst new => cases new <;> first | rfl | cases hf
      | switchId n d dst new => cases new <;> first | rfl | cases hf
      | _ => first | rfl | cases hf
    | _ => rfl

theorem sweep_alone (hJ : Calls P s (a ::ₘ R)) (ha : a.sweep.isSome) :
    ∀ c ∈ R, c.sweep = none := by
  intro c hc
  have hle := hJ.sweeps.trans hJ.once
  have hw := load_all_eq_zero sweepW hle (if_pos ha) c hc
  by_contra hne
  rw [sweepW, if_pos (Option.isSome_iff_ne_none.mpr hne)] at hw
  cases hw

theorem fill_alone {d : Int} (hJ : Calls P s (a ::ₘ R)) (ha : a.fills = some d) :
    ∀ c ∈ R, c.fills = none := by
  intro c hc
  by_contra hne
  obtain ⟨d', hd'⟩ := Option.ne_none_iff_exists'.mp hne
  have hlock : ∀ r b d, DomainTable.fills b = some d → Stmt.driver (.get r b) = some b ∧
      Domain.lockW b = 1 := by
    intro r b d hb
    cases b <;> first | exact ⟨rfl, rfl⟩ | cases hb
  cases a with
  | get r b =>
    obtain ⟨hdr, hw⟩ := hlock r b d ha
    cases c with
    | get r' b' =>
      have hw' := (hlock r' b' d' hd').2
      have hkept := hJ.kept
      rw [Multiset.filterMap_cons_some _ _ _ hdr] at hkept
      have hle : load Domain.lockW (b ::ₘ R.filterMap Stmt.driver) ≤ 1 := by
        have := hkept.lock
        split at this <;> omega
      have := load_all_eq_zero Domain.lockW hle hw b' (mem_driver hc)
      omega
    | _ => cases hd'
  | _ => cases ha

end Calls

namespace Sound

theorem init : Sound P (State.init P dom) 0 where
  balance := by
    have hnone : ∀ i ∈ slots, (State.init P dom).dom.domains i = none := fun i hi => by
      have := mem_slots.mp hi
      exact if_neg (by omega)
    rw [entries_eq_zero hnone]
    rfl
  fills := by simp
  read := by simp
  swept := by simp
  first hen := by simp [State.init, Domain.State.init, hen]
  done := by simp

theorem attach_mem {b : Domain.Stmt} (hJ : Calls P s B) (hI : Sound P s B) (hb : .get r b ∈ B)
    {dst : Nat} (hg : (Stmt.get r b).gives = some dst) : dst ∈ s.allocated := by
  cases b with
  | attach n d src dst' new =>
    cases new with
    | false => cases hg
    | true =>
      cases hg
      have hbal := hI.balance
      rw [Calls.stale_eq_zero (hJ.no_sweep hI hb rfl), add_zero] at hbal
      rw [hbal]
      refine Multiset.mem_add.mpr (.inr (Multiset.mem_bind.mpr ⟨_, hb, ?_⟩))
      simp [Stmt.fresh, fresh]
  | _ => cases hg

theorem exec_call {b : Domain.Stmt} (hJ : Calls P s (.get r b ::ₘ R)) (hI : Sound P s (.get r b ::ₘ R))
    (hb : ∀ n d dst, b ≠ .switchTable n d dst) (h : exec P (.get r b) x s = some (s', p)) :
    Sound P s' (p + R) := by
  have hself := Multiset.mem_cons_self (Stmt.get r b) R
  obtain ⟨t, q, ht, rfl, rfl⟩ := exec_get h
  obtain ⟨hdom, hacc, hnew⟩ := exec_account hb (fun dst hg => attach_mem hJ hI hself hg) ht
  have hafter : ∀ c ∈ r.after b, c = .entry 1 := by
    intro c hc
    rcases after_eq r b with hr | ⟨-, -, hr⟩ <;> rw [hr] at hc
    · cases hc
    · exact List.mem_singleton.mp hc
  have hp : ∀ c ∈ (((r.after b ++ q.map (.get r) : List Stmt) : Multiset Stmt) + R),
      c = .entry 1 ∨ (∃ c' ∈ q, c = .get r c') ∨ c ∈ R := by
    intro c hc
    rcases Multiset.mem_add.mp hc with hc | hc
    · rcases List.mem_append.mp (Multiset.mem_coe.mp hc) with hc | hc
      · exact .inl (hafter c hc)
      · obtain ⟨c', hc', rfl⟩ := List.mem_map.mp hc
        exact .inr (.inl ⟨c', hc', rfl⟩)
    · exact .inr (.inr hc)
  constructor
  case balance =>
    have hbal := hI.balance
    have hstale : known Stmt.stale ((r.after b ++ q.map (.get r) : List Stmt) : Multiset Stmt) = 0 :=
      known_eq_zero fun c hc => by
        rcases List.mem_append.mp (Multiset.mem_coe.mp hc) with hc | hc
        · rw [hafter c hc]; rfl
        · obtain ⟨c', -, rfl⟩ := List.mem_map.mp hc
          rfl
    have hfresh : known Stmt.fresh ((r.after b : List Stmt) : Multiset Stmt) = 0 :=
      known_eq_zero fun c hc => by rw [hafter c (Multiset.mem_coe.mp hc)]; rfl
    rw [known_cons, known_cons] at hbal
    rw [known_add, hstale, known_add, ← Multiset.coe_add, known_add, hfresh, hdom]
    ext n
    have h1 := congrArg (Multiset.count n) hbal
    have h2 := congrArg (Multiset.count n) hacc
    simp only [Multiset.count_add, Stmt.stale, Stmt.fresh, Option.toList_none, Multiset.coe_nil,
      Multiset.count_zero] at h1 h2 ⊢
    omega
  case fills =>
    intro c hc d hd
    rw [hdom]
    rcases hp c hc with rfl | ⟨c', hc', rfl⟩ | hc
    · cases hd
    · rcases hnew c' hc' d hd with hb' | ⟨n, src, rfl, hnone⟩
      · exact hI.fills _ hself d hb'
      · refine ⟨hnone, mem_slots.mpr ?_⟩
        have hsw := hJ.kept.pinned.switches _ (Calls.mem_driver hself) d rfl
        have hfirst := hI.first (hJ.enabled _ _ hself rfl)
        have hne : d ≠ 0 := by
          rintro rfl
          rw [hnone] at hfirst
          cases hfirst
        omega
    · exact hI.fills c (Multiset.mem_cons_of_mem hc) d hd
  case read =>
    intro c hc i dom hr
    rw [hdom]
    rcases hp c hc with rfl | ⟨c', hc', rfl⟩ | hc
    · cases hr
    · cases hr
    · exact hI.read c (Multiset.mem_cons_of_mem hc) i dom hr
  case swept =>
    intro c hc i hs
    rw [hdom]
    rcases hp c hc with rfl | ⟨c', hc', rfl⟩ | hc
    · cases hs
      refine ⟨Int.one_pos, fun j hj hlt => ?_⟩
      have := mem_slots.mp hj
      omega
    · cases hs
    · exact hI.swept c (Multiset.mem_cons_of_mem hc) i hs
  case first => rw [hdom]; exact hI.first
  case done =>
    intro n hput hs
    rw [hdom]
    rcases hp _ hput with hc | ⟨c', hc', he⟩ | hc
    · cases hc
    · cases he
      obtain rfl | ⟨c, rfl, -, -, hret⟩ := ObjectDomain.exec_single ht
      · cases hc'
      · obtain rfl := List.mem_singleton.mp hc'
        obtain ⟨m, d, rfl, -⟩ := hret rfl
        have := hs (.entry 1) (by simp [Caller.after])
        cases this
    · refine hI.done n (Multiset.mem_cons_of_mem hc) fun c hc => ?_
      rcases Multiset.mem_cons.mp hc with rfl | hc
      · rfl
      · exact hs c (Multiset.mem_add.mpr (.inr hc))

theorem exec_fill {n : Nat} {d : Int} {dst : Nat} (hJ : Calls P s (.get r (.switchTable n d dst) ::ₘ R))
    (hI : Sound P s (.get r (.switchTable n d dst) ::ₘ R)) :
    Sound P (s.setDomain d (some dst)) (.get r (.inc n d) ::ₘ R) := by
  have hself := Multiset.mem_cons_self (Stmt.get r (.switchTable n d dst)) R
  obtain ⟨hnone, hslot⟩ := hI.fills _ hself d rfl
  have hsweep : ∀ c ∈ R, c.sweep = none := fun c hc =>
    hJ.no_sweep hI hself rfl c (Multiset.mem_cons_of_mem hc)
  have hfill := hJ.fill_alone rfl
  constructor
  case balance =>
    have hbal := hI.balance
    rw [known_cons, known_cons] at hbal ⊢
    have hent := entries_fill (k := dst) hslot hnone
    ext m
    have h1 := congrArg (Multiset.count m) hbal
    have h2 := congrArg (Multiset.count m) hent
    simp only [State.setDomain, Stmt.stale, Stmt.fresh, fresh, Option.toList_none,
      Option.toList_some, Multiset.coe_nil, Multiset.coe_singleton, Multiset.count_add,
      Multiset.count_zero, Multiset.count_cons, Multiset.count_singleton] at h1 h2 ⊢
    omega
  case fills =>
    intro c hc d' hd
    rcases Multiset.mem_cons.mp hc with rfl | hc
    · cases hd
    · rw [hfill c hc] at hd
      cases hd
  case read =>
    intro c hc i dom hr
    rcases Multiset.mem_cons.mp hc with rfl | hc
    · cases hr
    · have := hsweep c hc
      cases c <;> first | cases hr; done | cases this
  case swept =>
    intro c hc i hs
    rcases Multiset.mem_cons.mp hc with rfl | hc
    · cases hs
    · rw [hsweep c hc] at hs
      cases hs
  case first =>
    intro hen
    have := mem_slots.mp hslot
    have hne : (0 : Int) ≠ d := by omega
    simpa [State.setDomain, Function.update_of_ne hne] using hI.first hen
  case done =>
    intro m hput
    rcases Multiset.mem_cons.mp hput with he | hc
    · cases he
    · have := hJ.no_fills hI (Multiset.mem_cons_of_mem hc) _ hself
      cases this

theorem exec_sweep {c : Stmt} {i : Int} (hJ : Calls P s (a ::ₘ R)) (hI : Sound P s (a ::ₘ R))
    (ha : a.sweep.isSome) (hc : c.sweep = some i)
    (hswept : 0 < i ∧ ∀ j ∈ slots, j < i → s'.dom.domains j = none)
    (hread : ∀ dom, c.read = some (i, dom) → s'.dom.domains i = some dom ∧ i ∈ slots)
    (hfirst : s'.dom.domains 0 = s.dom.domains 0)
    (hbal : s'.allocated + (c.stale.toList : Multiset Nat) = entries slots s'.dom.domains) :
    Sound P s' (c ::ₘ R) := by
  obtain ⟨n, hput⟩ := hJ.held a (Multiset.mem_cons_self a R) ha
  have hfills : ∀ b ∈ R, b.fills = none := fun b hb =>
    hJ.no_fills hI hput b (Multiset.mem_cons_of_mem hb)
  have hsweep := hJ.sweep_alone ha
  have hcf : c.fills = none := by cases c <;> first | rfl | cases hc
  constructor
  case balance =>
    have hcfresh : c.fresh = none := by cases c <;> first | rfl | cases hc
    rw [known_cons, known_cons, Calls.stale_eq_zero hsweep, Calls.fresh_eq_zero hfills, hcfresh,
      add_zero, hbal]
    simp
  case fills =>
    intro b hb d hd
    rcases Multiset.mem_cons.mp hb with rfl | hb
    · rw [hcf] at hd
      cases hd
    · rw [hfills b hb] at hd
      cases hd
  case read =>
    intro b hb j dom hr
    rcases Multiset.mem_cons.mp hb with rfl | hb
    · have hij : i = j := by cases b <;> cases hr <;> cases hc <;> rfl
      subst hij
      exact hread dom hr
    · have := hsweep b hb
      cases b <;> first | cases hr; done | cases this
  case swept =>
    intro b hb j hs
    rcases Multiset.mem_cons.mp hb with rfl | hb
    · cases hc.symm.trans hs
      exact hswept
    · rw [hsweep b hb] at hs
      cases hs
  case first => rw [hfirst]; exact hI.first
  case done =>
    intro m hm hs
    rw [hs c (Multiset.mem_cons_self c R)] at hc
    cases hc

/-- Before a domain is freed it is neither on its way into the table nor freed already. -/
theorem balance_sweep {i : Int} (hJ : Calls P s (a ::ₘ R)) (hI : Sound P s (a ::ₘ R))
    (ha : a.sweep = some i) (hstale : a.stale = none) :
    s.allocated = entries slots s.dom.domains := by
  have hsome : a.sweep.isSome := by rw [ha]; rfl
  obtain ⟨n, hput⟩ := hJ.held a (Multiset.mem_cons_self a R) hsome
  have hfresh : known Stmt.fresh (a ::ₘ R) = 0 := Calls.fresh_eq_zero (hJ.no_fills hI hput)
  have hbal := hI.balance
  rw [hfresh, known_cons, hstale, Calls.stale_eq_zero (hJ.sweep_alone hsome)] at hbal
  simpa using hbal

theorem exec_entry {i : Int} (hJ : Calls P s (.entry i ::ₘ R)) (hI : Sound P s (.entry i ::ₘ R))
    (h : exec P (.entry i) x s = some (s', p)) : Sound P s' (p + R) := by
  have hself := Multiset.mem_cons_self (Stmt.entry i) R
  obtain ⟨hpos, hnone⟩ := hI.swept _ hself i rfl
  have hbal := balance_sweep hJ hI rfl rfl
  cases h
  by_cases hi : i < maxDomains
  · rw [if_pos hi]
    have hslot : i ∈ slots := mem_slots.mpr ⟨hpos, hi⟩
    cases hd : s.dom.domains i with
    | some dom =>
      refine exec_sweep hJ hI rfl rfl ⟨hpos, hnone⟩ (fun dom' hr => ?_) rfl
        (by simpa [Stmt.stale] using hbal)
      cases hr
      exact ⟨hd, hslot⟩
    | none =>
      refine exec_sweep hJ hI rfl rfl ⟨by omega, fun j hj hlt => ?_⟩ (fun _ hr => by cases hr) rfl
        (by simpa [Stmt.stale] using hbal)
      rcases Int.lt_or_eq_of_le (Int.lt_add_one_iff.mp hlt) with hlt | rfl
      · exact hnone j hj hlt
      · exact hd
  · rw [if_neg hi]
    have hR : ((([] : List Stmt) : Multiset Stmt) + R) = R := zero_add R
    rw [hR]
    have hmem : ∀ {b}, b ∈ R → b ∈ .entry i ::ₘ R := fun hb => Multiset.mem_cons_of_mem hb
    refine ⟨?_, fun b hb => hI.fills b (hmem hb), fun b hb => hI.read b (hmem hb),
      fun b hb => hI.swept b (hmem hb), hI.first, fun n _ _ j hj => hnone j hj ?_⟩
    · have hb := hI.balance
      rw [known_cons, known_cons] at hb
      simpa [Stmt.stale, Stmt.fresh] using hb
    · have := mem_slots.mp hj
      omega

theorem exec_free {i : Int} {dom : Nat} (hJ : Calls P s (.free i dom ::ₘ R))
    (hI : Sound P s (.free i dom ::ₘ R)) :
    Sound P { s with allocated := s.allocated.erase dom } (.clear i dom ::ₘ R) := by
  have hself := Multiset.mem_cons_self (Stmt.free i dom) R
  obtain ⟨hd, hslot⟩ := hI.read _ hself i dom rfl
  have hbal := balance_sweep hJ hI rfl rfl
  refine exec_sweep hJ hI rfl rfl (hI.swept _ hself i rfl) (fun dom' hr => ?_) rfl ?_
  · cases hr
    exact ⟨hd, hslot⟩
  · have hmem : dom ∈ s.allocated := hbal ▸ mem_entries hslot hd
    have herase := Multiset.cons_erase hmem
    rw [add_comm]
    exact herase.trans hbal

theorem exec_clear {i : Int} {dom : Nat} (hJ : Calls P s (.clear i dom ::ₘ R))
    (hI : Sound P s (.clear i dom ::ₘ R)) :
    Sound P (s.setDomain i none) (.entry (i + 1) ::ₘ R) := by
  have hself := Multiset.mem_cons_self (Stmt.clear i dom) R
  obtain ⟨hd, hslot⟩ := hI.read _ hself i dom rfl
  obtain ⟨hpos, hnone⟩ := hI.swept _ hself i rfl
  obtain ⟨n, hput⟩ := hJ.held _ hself rfl
  have hne : (0 : Int) ≠ i := by omega
  refine exec_sweep hJ hI rfl rfl ⟨by omega, fun j hj hlt => ?_⟩ (fun _ hr => by cases hr)
    (Function.update_of_ne hne _ _) ?_
  · by_cases hji : j = i
    · subst hji
      exact Function.update_self _ _ _
    · exact (Function.update_of_ne hji _ _).trans (hnone j hj (by omega))
  · have hfresh : known Stmt.fresh (.clear i dom ::ₘ R) = 0 := Calls.fresh_eq_zero (hJ.no_fills hI hput)
    have hbal := hI.balance
    rw [hfresh, known_cons, Calls.stale_eq_zero (hJ.sweep_alone rfl), ← entries_clear hslot hd] at hbal
    have hcons : dom ::ₘ s.allocated =
          dom ::ₘ entries slots (Function.update s.dom.domains i none) := by
      rw [← Multiset.singleton_add, add_comm]
      simpa [Stmt.stale] using hbal
    simpa [State.setDomain, Stmt.stale] using (Multiset.cons_inj_right dom).mp hcons

theorem exec (hJ : Calls P s (a ::ₘ R)) (hI : Sound P s (a ::ₘ R))
    (h : DomainTable.exec P a x s = some (s', p)) : Sound P s' (p + R) := by
  cases a with
  | get r b =>
    by_cases hb : ∃ n d dst, b = .switchTable n d dst
    · obtain ⟨n, d, dst, rfl⟩ := hb
      cases h
      have hp : r.after (.switchTable n d dst) = [] := by cases r <;> rfl
      rw [hp]
      exact exec_fill hJ hI
    · exact exec_call hJ hI (fun n d dst he => hb ⟨n, d, dst, he⟩) h
  | entry i => exact exec_entry hJ hI h
  | detach i dom =>
    have hself := Multiset.mem_cons_self (Stmt.detach i dom) R
    have hbal := balance_sweep hJ hI rfl rfl
    cases h
    refine exec_sweep (c := .free i dom) hJ hI rfl rfl ?_ (fun dom' hr => ?_) ?_ ?_ <;> split
    any_goals rfl
    any_goals exact hI.swept _ hself i rfl
    any_goals exact hI.read _ hself i dom' (by cases hr; rfl)
    all_goals simpa [Stmt.stale] using hbal
  | free i dom => cases h; exact exec_free hJ hI
  | clear i dom => cases h; exact exec_clear hJ hI

theorem occur {e : Occurrence} (hI : Sound P s R) (h : DomainTable.occur e s = some (s', p)) :
    Sound P s' (p + R) := by
  obtain ⟨hall, hdom, hthread⟩ := occur_threads h
  obtain ⟨r, c, rfl, hc⟩ : ∃ r c, p = [.get r c] ∧
      ((∃ n d, c = .lock n d) ∨ c = .softReset) := by
    obtain ⟨d, -, rfl⟩ | ⟨-, rfl⟩ | ⟨-, -, rfl⟩ := hthread
    · exact ⟨_, _, rfl, .inl ⟨_, _, rfl⟩⟩
    · exact ⟨_, _, rfl, .inr rfl⟩
    · exact ⟨_, _, rfl, .inl ⟨_, _, rfl⟩⟩
  have hnew : (Stmt.get r c).fills = none ∧ (Stmt.get r c).fresh = none ∧
      ∀ n, Stmt.get r c ≠ .get .freeDomains (.put n 0) := by
    obtain ⟨n, d, rfl⟩ | rfl := hc <;> exact ⟨rfl, rfl, fun _ he => by cases he⟩
  obtain ⟨hf, hfr, hput⟩ := hnew
  have hmem : ∀ b ∈ (([.get r c] : List Stmt) : Multiset Stmt) + R, b = .get r c ∨ b ∈ R :=
    fun b hb => Multiset.mem_cons.mp hb
  constructor
  case balance =>
    have hbal := hI.balance
    rw [hall, hdom, known_add, known_add, ← Multiset.cons_coe, known_cons, known_cons, hfr]
    simpa [Stmt.stale, known] using hbal
  case fills =>
    intro b hb d hd
    rw [hdom]
    rcases hmem b hb with rfl | hb
    · rw [hf] at hd
      cases hd
    · exact hI.fills b hb d hd
  case read =>
    intro b hb i dom hr
    rw [hdom]
    rcases hmem b hb with rfl | hb
    · cases hr
    · exact hI.read b hb i dom hr
  case swept =>
    intro b hb i hs
    rw [hdom]
    rcases hmem b hb with rfl | hb
    · cases hs
    · exact hI.swept b hb i hs
  case first => rw [hdom]; exact hI.first
  case done =>
    intro n hp hs
    rw [hdom]
    rcases hmem _ hp with he | hp
    · exact absurd he.symm (hput n)
    · exact hI.done n hp fun b hb => hs b (Multiset.mem_add.mpr (.inr hb))

end Sound

theorem filterMap_after (r : Caller) (b : Domain.Stmt) : (r.after b).filterMap Stmt.driver = [] := by
  rcases after_eq r b with hr | ⟨-, -, hr⟩ <;> rw [hr] <;> rfl

/-- The calls go on as if they were alone with the table. -/
theorem Kept.reach (hC : Reach (machine P) G (State.init P dom) C) :
    Domain.Kept C.shared.dom (C.pending.filterMap Stmt.driver) := by
  refine hC.invariant (fun s B => Domain.Kept s.dom (B.filterMap Stmt.driver)) Domain.Kept.init ?_ ?_
  · intro s R a x s' p hI _ h
    replace h : exec P a x s = some (s', p) := h
    rw [Multiset.filterMap_add, Multiset.filterMap_coe]
    cases a with
    | get r b =>
      obtain ⟨t, q, ht, rfl, rfl⟩ := exec_get h
      rw [Multiset.filterMap_cons_some Stmt.driver _ R rfl] at hI
      rw [List.filterMap_append, filterMap_after, filterMap_embed (f := Stmt.get r) fun _ => rfl]
      exact hI.exec ht
    | _ =>
      rw [Multiset.filterMap_cons_none _ R rfl] at hI
      have hp : p.filterMap Stmt.driver = [] := by
        cases h
        repeat' split
        all_goals rfl
      have hs : s'.dom.pin = s.dom.pin ∧ s'.dom.lock = s.dom.lock := by
        cases h
        repeat' split
        all_goals exact ⟨rfl, rfl⟩
      rw [hp, Multiset.coe_nil, zero_add]
      exact ⟨hI.coded, by rw [hs.2]; exact hI.lock, by rw [hs.1]; exact hI.refs,
        ⟨by rw [hs.1]; exact hI.pinned.selected, by rw [hs.1]; exact hI.pinned.checked,
          by rw [hs.1]; exact hI.pinned.switches, by rw [hs.1]; exact hI.pinned.range⟩⟩
  · intro s R e s' p hI _ h
    replace h : occur e s = some (s', p) := h
    rw [Multiset.filterMap_add, Multiset.filterMap_coe]
    obtain ⟨-, -, ⟨d, ho, rfl⟩ | ⟨ho, rfl⟩ | ⟨-, ho, rfl⟩⟩ := occur_threads h
    all_goals exact hI.occur ho

theorem call_enabled (hC : Reach (machine P) G (State.init P dom) C) :
    ∀ b ∈ C.pending, ∀ c, b.driver = some c → c.switches.isSome → P.iommuEn := by
  refine hC.pending_all (fun b => ∀ c, b.driver = some c → c.switches.isSome → P.iommuEn) ?_ ?_
  · intro s B a x s' p ha _ h b hb c hc hsw
    replace h : exec P a x s = some (s', p) := h
    cases a with
    | get r a =>
      obtain ⟨t, q, ht, rfl, rfl⟩ := exec_get h
      rcases List.mem_append.mp hb with hb | hb
      · rcases after_eq r a with hr | ⟨-, -, hr⟩ <;> rw [hr] at hb
        · cases hb
        · obtain rfl := List.mem_singleton.mp hb
          cases hc
      · obtain ⟨c', hc', rfl⟩ := List.mem_map.mp hb
        cases hc
        obtain ⟨d, hd⟩ := Option.isSome_iff_exists.mp hsw
        rcases Domain.exec_switches ht hc' hd with hd' | ⟨⟨n, rfl⟩, -⟩
        · exact ha a rfl (by rw [hd']; rfl)
        · simp only [Domain.exec, Domain.switchDomain, Option.some.injEq] at ht
          by_contra hen
          rw [if_pos (by simpa using hen)] at ht
          cases ht
          obtain rfl := List.mem_singleton.mp hc'
          cases hd
    | _ =>
      have hp : p.filterMap Stmt.driver = [] := by
        cases h
        repeat' split
        all_goals rfl
      have : c ∈ p.filterMap Stmt.driver := List.mem_filterMap.mpr ⟨b, hb, hc⟩
      rw [hp] at this
      cases this
  · intro s B e s' p _ h b hb c hc hsw
    obtain ⟨-, -, ⟨d, -, rfl⟩ | ⟨-, rfl⟩ | ⟨-, -, rfl⟩⟩ := occur_threads h
    all_goals
      obtain rfl := List.mem_singleton.mp hb
      cases hc
      cases hsw

theorem Calls.reach (hC : Reach (machine P) (removeGuard P) (State.init P dom) C) :
    Calls P C.shared C.pending where
  kept := Kept.reach hC
  once := freeW_le_one hC
  sweeps := sweepW_le hC
  held _ hb hs := sweep_held hC hb hs
  enabled _ b hb hs := call_enabled hC _ hb b rfl hs

theorem Sound.reach (hC : Reach (machine P) (removeGuard P) (State.init P dom) C) :
    Sound P C.shared C.pending :=
  hC.invariant_with (Calls P) (Sound P) (fun _ hC => Calls.reach hC) Sound.init
    (fun _ _ _ _ _ _ hJ hI _ h => hI.exec hJ h) fun _ _ _ _ _ _ hI _ h => hI.occur h

end Rknpu.DomainTable

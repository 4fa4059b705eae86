import Rknpu.Interleaving.Returns
import Rknpu.Domain

namespace Rknpu.Domain

open Interleaving

/-- The fields of `struct rknpu_device` about domains, the default domain of its group, the
domain the device is attached to, and the domains it has allocated and not freed. -/
structure Device where
  id : Int
  domains : Int → Option Nat
  num : Int
  defaultDomain : Option Nat
  attached : Option Nat
  allocated : Multiset Nat

/-- What the kernel answers to one call of `rknpu_iommu_switch_domain`. -/
structure SwitchReply where
  alloc : Option Nat
  attach : Int
  reattach : Int

namespace Device

/-- `iommu_detach_device` -/
def detach (s : Device) : Device := { s with attached := none }

/-- `iommu_attach_device`, which leaves the device without a domain if it fails. -/
def attach (s : Device) (dom : Option Nat) (ret : Int) : Device :=
  { s with attached := if ret = 0 then dom else none }

/-- `iommu_domain_alloc` -/
def alloc (s : Device) (dom : Nat) : Device := { s with allocated := dom ::ₘ s.allocated }

/-- `iommu_domain_free` -/
def free (s : Device) (dom : Nat) : Device := { s with allocated := s.allocated.erase dom }

variable (s : Device) (dom : Option Nat) (d : Nat) (ret : Int)

@[simp] theorem attach_id : (s.attach dom ret).id = s.id := rfl
@[simp] theorem attach_domains : (s.attach dom ret).domains = s.domains := rfl
@[simp] theorem free_id : (s.free d).id = s.id := rfl
@[simp] theorem free_domains : (s.free d).domains = s.domains := rfl
@[simp] theorem free_attached : (s.free d).attached = s.attached := rfl

end Device

variable (P : Probe)

/-- The branch of `rknpu_iommu_switch_domain` for a domain of the table. -/
def switchKnown (x : SwitchReply) (s : Device) (d : Int) (dst : Nat) : Device × Int :=
  let src := s.attached
  let s := s.detach.attach (some dst) x.attach
  if x.attach ≠ 0 then (s.attach src x.reattach, x.attach)
  else ({ s with id := d, defaultDomain := some dst }, x.attach)

def switchNew (x : SwitchReply) (s : Device) (d : Int) : Device × Int :=
  match x.alloc with
  | none => (s, -eio)
  | some dst =>
    let s := (s.alloc dst).detach.attach (some dst) x.attach
    if x.attach ≠ 0 then (s.free dst, x.attach)
    else ({ s with
        id := d
        domains := Function.update s.domains d (some dst)
        num := s.num + 1
        defaultDomain := some dst }, x.attach)

/-- `rknpu_iommu_switch_domain` -/
def iommuSwitchDomain (x : SwitchReply) (s : Device) (d : Int) : Device × Int :=
  if !P.iommuEn then (s, -einval)
  else if d < 0 ∨ maxDomains - 1 < d then (s, -einval)
  else if !P.bus then (s, -efault)
  else if d = s.id then (s, 0)
  else if s.attached ≠ s.domains s.id then (s, -einval)
  else match s.domains d with
    | some dst => switchKnown x s d dst
    | none => switchNew x s d

/-- The answers of the kernel in the statements of one call: a detached device has no domain. -/
def switchAnswers (x : SwitchReply) (a : Stmt) (y : Reply) : Prop :=
  match a with
  | .alloc _ _ _ => y.domain = x.alloc
  | .detach _ _ _ _ _ => y.domain = none
  | .attach _ _ _ _ _ => y.ret = x.attach
  | .reattach _ _ _ _ => y.ret = x.reattach
  | _ => True

structure Matches (s : Device) (m : State) : Prop where
  id : m.pin.id = s.id
  domains : m.domains = s.domains
  attached : m.attached = s.attached

/-- A failed call has changed nothing, and a successful one has attached the domain. -/
structure Switched (s : Device) (d : Int) (r : Device × Int) : Prop where
  id_eq : r.2 ≠ 0 → r.1.id = s.id
  domains_eq : r.2 ≠ 0 → r.1.domains = s.domains
  num_eq : r.2 ≠ 0 → r.1.num = s.num
  freed : r.2 ≠ 0 → r.1.allocated = s.allocated
  attached_eq : r.2 ≠ 0 → r.1.attached = s.attached
  id_new : r.2 = 0 → r.1.id = d
  attached_new : r.2 = 0 → r.1.attached = r.1.domains d

/-- The call comes to attach a domain it has allocated, and that fails. -/
def NewAttachFails (x : SwitchReply) (s : Device) (d : Int) : Prop :=
  P.iommuEn ∧ P.bus ∧ 0 ≤ d ∧ d < maxDomains ∧ d ≠ s.id ∧ s.domains d = none ∧
    x.alloc.isSome ∧ x.attach ≠ 0

variable {P} {x : SwitchReply} {s : Device} {d : Int} {ret : Int}

variable {m t : State} {n : Nat}

theorem inc_returns (hM : Matches s m)
    (h : Returns (machine P) (switchAnswers x) m [.inc n d] t) : Matches s t := by
  obtain ⟨_, m₁, p₁, -, h₁, h⟩ := h.head
  cases h₁
  obtain ⟨_, m₂, p₂, -, h₂, h⟩ := h.head
  cases h₂
  obtain ⟨_, m₃, p₃, -, h₃, h⟩ := h.head
  cases h₃
  obtain ⟨_, m₄, p₄, -, h₄, h⟩ := h.head
  cases h₄
  obtain rfl := Returns.nil_iff.mp h
  exact ⟨hM.id, hM.domains, hM.attached⟩

theorem fail_returns (hM : Matches s m) (hret : ret ≠ 0)
    (h : Returns (machine P) (switchAnswers x) m [.fail n d ret] t) : Matches s t := by
  obtain ⟨_, m₁, p₁, -, h₁, h⟩ := h.head
  cases h₁
  obtain ⟨_, m₂, p₂, -, h₂, h⟩ := h.head
  simp only [machine, exec, if_neg hret] at h₂
  cases h₂
  obtain rfl := Returns.nil_iff.mp h
  exact ⟨hM.id, hM.domains, hM.attached⟩

theorem detach_returns {src : Option Nat} {dst : Nat} {new : Bool} (hM : Matches s m)
    (h : Returns (machine P) (switchAnswers x) m [.detach n d src dst new] t) :
    ∃ m', Matches (s.detach.attach (some dst) x.attach) m' ∧
      Returns (machine P) (switchAnswers x) m'
        (if x.attach = 0 then [.switchId n d dst new]
          else if new then [.fail n d x.attach] else [.reattach n d src x.attach]) t := by
  obtain ⟨y, m₁, p₁, hy, h₁, h⟩ := h.head
  cases h₁
  obtain ⟨z, m₂, p₂, hz, h₂, h⟩ := h.head
  dsimp only [switchAnswers] at hy hz
  simp only [machine, exec, hz] at h₂
  split at h₂
  · cases h₂
    rename_i hx
    exact ⟨{ m with attached := some dst }, ⟨hM.id, hM.domains, by simp [Device.attach, hx]⟩,
      by simpa [hx] using h⟩
  · cases h₂
    rename_i hx
    exact ⟨{ m with attached := y.domain },
      ⟨hM.id, hM.domains, by simp [Device.attach, hx, hy]⟩, by simpa [hx] using h⟩

theorem known_returns {dst : Nat} (hM : Matches s m)
    (h : Returns (machine P) (switchAnswers x) m [.detach n d s.attached dst false] t) :
    Matches (switchKnown x s d dst).1 t := by
  obtain ⟨m', hM', h⟩ := detach_returns hM h
  by_cases hx : x.attach = 0
  · rw [if_pos hx] at h
    obtain ⟨_, m₁, p₁, -, h₁, h⟩ := h.head
    cases h₁
    refine inc_returns ?_ h
    exact ⟨by simp [switchKnown, hx], by simpa [switchKnown, hx] using hM'.domains,
      by simpa [switchKnown, hx] using hM'.attached⟩
  · rw [if_neg hx, if_neg (by simp)] at h
    obtain ⟨y, m₁, p₁, hy, h₁, h⟩ := h.head
    dsimp only [switchAnswers] at hy
    simp only [machine, exec, hy] at h₁
    cases h₁
    refine fail_returns ?_ hx h
    have hatt := hM'.attached
    simp only [Device.attach, if_neg hx] at hatt
    by_cases hre : x.reattach = 0
    · exact ⟨by simpa [switchKnown, hx, hre] using hM'.id,
        by simpa [switchKnown, hx, hre] using hM'.domains,
          by simp [switchKnown, hx, hre, Device.attach]⟩
    · exact ⟨by simpa [switchKnown, hx, hre] using hM'.id,
        by simpa [switchKnown, hx, hre] using hM'.domains,
        by simp [switchKnown, hx, hre, Device.attach, hatt]⟩

theorem new_returns {src : Option Nat} (hM : Matches s m)
    (h : Returns (machine P) (switchAnswers x) m [.alloc n d src] t) :
    Matches (switchNew x s d).1 t := by
  obtain ⟨y, m₁, p₁, hy, h₁, h⟩ := h.head
  dsimp only [switchAnswers] at hy
  simp only [machine, exec, hy] at h₁
  cases hal : x.alloc with
  | none =>
    simp only [hal] at h₁
    cases h₁
    simpa [switchNew, hal] using fail_returns hM (by simp [eio]) h
  | some dst =>
    simp only [hal] at h₁
    cases h₁
    have hM₁ : Matches (s.alloc dst) m := ⟨hM.id, hM.domains, hM.attached⟩
    obtain ⟨m', hM', h⟩ := detach_returns hM₁ h
    by_cases hx : x.attach = 0
    · rw [if_pos hx] at h
      obtain ⟨_, m₁, p₁, -, h₁, h⟩ := h.head
      cases h₁
      obtain ⟨_, m₂, p₂, -, h₂, h⟩ := h.head
      cases h₂
      refine inc_returns ?_ h
      have hdom : m'.domains = s.domains := hM'.domains
      exact ⟨by simp [switchNew, hal, hx],
        by simp [switchNew, hal, hx, hdom, Device.attach, Device.detach, Device.alloc],
        by simpa [switchNew, hal, hx] using hM'.attached⟩
    · rw [if_neg hx, if_pos rfl] at h
      refine fail_returns ?_ hx h
      exact ⟨by simpa [switchNew, hal, hx] using hM'.id,
        by simpa [switchNew, hal, hx] using hM'.domains,
        by simpa [switchNew, hal, hx] using hM'.attached⟩

/-- The statements of the machine do what `rknpu_iommu_switch_domain` does. -/
theorem switch_returns (hM : Matches s m)
    (h : Returns (machine P) (switchAnswers x) m [.switchDomain n d] t) :
    Matches (iommuSwitchDomain P x s d).1 t := by
  obtain ⟨_, m₁, p₁, -, h₁, h⟩ := h.head
  cases h₁
  rw [List.append_nil] at h
  unfold switchDomain at h
  unfold iommuSwitchDomain
  rw [hM.id] at h
  split at h <;> rename_i hen
  · exact if_pos hen ▸ fail_returns hM (by simp [einval]) h
  rw [if_neg hen]
  split at h <;> rename_i hd
  · exact if_pos hd ▸ fail_returns hM (by simp [einval]) h
  rw [if_neg hd]
  split at h <;> rename_i hbus
  · exact if_pos hbus ▸ fail_returns hM (by simp [efault]) h
  rw [if_neg hbus]
  split at h <;> rename_i hid
  · exact if_pos hid ▸ inc_returns hM h
  rw [if_neg hid]
  obtain ⟨_, m₂, p₂, -, h₂, h⟩ := h.head
  simp only [machine, exec, hM.attached, hM.domains, hM.id] at h₂
  split at h₂ <;> rename_i hatt
  · cases h₂
    exact if_pos hatt ▸ fail_returns hM (by simp [einval]) h
  rw [if_neg hatt]
  cases h₂
  obtain ⟨_, m₃, p₃, -, h₃, h⟩ := h.head
  simp only [machine, exec, hM.domains] at h₃
  cases hdst : s.domains d with
  | some dst =>
    rw [hdst] at h₃
    cases h₃
    exact known_returns hM h
  | none =>
    rw [hdst] at h₃
    cases h₃
    exact new_returns hM h

theorem Switched.of_unchanged (hret : ret ≠ 0) : Switched s d (s, ret) :=
  ⟨fun _ => rfl, fun _ => rfl, fun _ => rfl, fun _ => rfl, fun _ => rfl,
    fun h => absurd h hret, fun h => absurd h hret⟩

theorem Switched.of_current (hatt : s.attached = s.domains s.id) : Switched s s.id (s, 0) :=
  ⟨fun h => absurd rfl h, fun h => absurd rfl h, fun h => absurd rfl h, fun h => absurd rfl h,
    fun h => absurd rfl h, fun _ => rfl, fun _ => hatt⟩

theorem switchKnown_switched {dst : Nat} (hre : x.reattach = 0) (hdst : s.domains d = some dst) :
    Switched s d (switchKnown x s d dst) := by
  by_cases hx : x.attach = 0
  · constructor <;> simp [switchKnown, hx, Device.attach, Device.detach, hdst]
  · constructor <;> simp [switchKnown, hx, Device.attach, Device.detach, hre]

/-- Nobody attaches the source domain again if the new one cannot be attached. -/
theorem switchNew_switched (hsrc : s.attached ≠ none) :
    Switched s d (switchNew x s d) ↔ (x.alloc.isSome → x.attach = 0) := by
  unfold switchNew
  cases hal : x.alloc with
  | none => simpa using Switched.of_unchanged (by simp [eio])
  | some dst =>
    by_cases hx : x.attach = 0
    · refine iff_of_true ?_ fun _ => hx
      constructor <;> simp [hx, Device.attach, Device.detach, Device.alloc]
    · refine iff_of_false (fun h => ?_) fun h => hx (h rfl)
      have hatt := h.attached_eq
      simp only [ne_eq, hx, not_false_eq_true, if_true, Device.free, Device.attach, if_false,
        true_imp_iff] at hatt
      exact hsrc hatt.symm

/-- A domain switch is all or nothing exactly if it does not fail to attach a domain it has
just allocated. -/
theorem switch_all_or_nothing_iff (P : Probe) (x : SwitchReply) (s : Device) (d : Int)
    (hsrc : s.attached ≠ none) (hatt : s.attached = s.domains s.id) (hre : x.reattach = 0) :
    Switched s d (iommuSwitchDomain P x s d) ↔ ¬NewAttachFails P x s d := by
  unfold iommuSwitchDomain NewAttachFails
  by_cases hen : P.iommuEn
  swap
  · simpa [hen] using Switched.of_unchanged (by simp [einval])
  by_cases hd : d < 0 ∨ maxDomains - 1 < d
  · have hout : ¬(0 ≤ d ∧ d < maxDomains) := by omega
    rw [if_neg (by simp [hen]), if_pos hd]
    exact iff_of_true (.of_unchanged (by simp [einval])) fun h => hout ⟨h.2.2.1, h.2.2.2.1⟩
  by_cases hbus : P.bus
  swap
  · rw [if_neg (by simp [hen]), if_neg hd, if_pos (by simp [hbus])]
    exact iff_of_true (.of_unchanged (by simp [efault])) fun h => hbus h.2.1
  by_cases hid : d = s.id
  · subst hid
    rw [if_neg (by simp [hen]), if_neg hd, if_neg (by simp [hbus]), if_pos rfl]
    exact iff_of_true (.of_current hatt) fun h => h.2.2.2.2.1 rfl
  have hin : 0 ≤ d ∧ d < maxDomains := by omega
  rw [if_neg (by simp [hen]), if_neg hd, if_neg (by simp [hbus]), if_neg hid,
    if_neg (not_not.mpr hatt)]
  cases hdst : s.domains d with
  | some dst => simpa using switchKnown_switched hre hdst
  | none =>
    rw [switchNew_switched hsrc]
    simp [hen, hbus, hin.1, hin.2, hid]

def Device.init (dom : Nat) : Device where
  id := 0
  domains d := if d = 0 then some dom else none
  num := 1
  defaultDomain := some dom
  attached := some dom
  allocated := 0

theorem switch_all_or_nothing_first :
    ((Device.init 7).attached ≠ none ∧
      (Device.init 7).attached = (Device.init 7).domains (Device.init 7).id) ∧
    Switched (.init 7) 1 (iommuSwitchDomain ⟨true, true, false⟩ ⟨some 8, 0, 0⟩ (.init 7) 1) :=
  ⟨⟨by decide, by decide⟩, (switch_all_or_nothing_iff ⟨true, true, false⟩ ⟨some 8, 0, 0⟩ (.init 7) 1
    (by decide) (by decide) rfl).mpr fun h => h.2.2.2.2.2.2.2 rfl⟩

/-- The device is left without a domain. -/
theorem switch_detached : ¬∀ (P : Probe) (x : SwitchReply) (s : Device) (d : Int),
    s.attached ≠ none → s.attached = s.domains s.id → x.reattach = 0 →
      Switched s d (iommuSwitchDomain P x s d) := by
  intro h
  have hs := h ⟨true, true, false⟩ ⟨some 8, -12, 0⟩ (.init 7) 1 (by decide) (by decide) rfl
  exact absurd (hs.attached_eq (by decide)) (by decide)

end Rknpu.Domain

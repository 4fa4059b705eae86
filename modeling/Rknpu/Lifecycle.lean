import Rknpu.Probe
import Rknpu.PowerUsers

namespace Rknpu.Probe

open Ledger Interleaving
open Power (Resource Board Rails powerOn powerOff powerOff_on)

variable {build : Build} {x : Reply} {p q : Probing} {e : Failure} {c : Config}

def Probing.Holds (p : Probing) (l : List Tie) (s : Multiset Tie) : Prop :=
  p.ties = ⟨(l : Multiset Tie) + s, []⟩

namespace Probing

@[simp] theorem giveAll_dev (l : List Tie) : (p.giveAll l).dev = p.dev := rfl

theorem Holds.giveAll {l : List Tie} {s : Multiset Tie} (h : p.Holds l s) :
    (p.giveAll l).ties = ⟨s, []⟩ := by
  rw [Holds] at h
  rw [Probing.giveAll, h, Holdings.giveAll_add]

end Probing

section Ties

variable (x)

def enabled : Bool := (isIommuEnable x .empty).1

def memoryTies : List Tie :=
  if enabled x then [.iommuGroup] else if x.reserved = 0 then [.reservedMemory] else []

def tieIf (b : Bool) (k : Tie) : List Tie := if b then [k] else []

variable (d : Device)

def drmTies : List Tie := tieIf d.fakeDev .fakeDevice ++ [.drmRegistration, .drmDevice]

def domainTies : List Tie :=
  if d.board.multipleDomains then tieIf d.board.npu2 (.powerDomain .npu2) ++
    tieIf d.board.npu1 (.powerDomain .npu1) ++ tieIf d.board.npu0 (.powerDomain .npu0) else []

def pmTies : List Tie := domainTies d ++ [.runtimePm]

def governorTies : List Tie := tieIf d.board.devfreq .governor

def sgtTies : List Tie := d.cacheSgt.flatMap fun i => [.sgTable i, .sgt i]

def debugfsTies : List Tie :=
  List.replicate d.debugfs.entries .debugfsNode ++ tieIf d.debugfs.dir .debugfsDir

end Ties

section Labels

theorem detach_eq (r : Resource) (b : Bool) (p : Probing) :
    detach r b p = p.giveAll (tieIf b (.powerDomain r)) := by
  cases b <;> rfl

theorem drmRemove_eq (p : Probing) : drmRemove p = p.giveAll (drmTies p.dev) := by
  unfold drmRemove drmTies
  cases p.dev.fakeDev <;> rfl

theorem devfreqRemove_eq (p : Probing) : devfreqRemove p = p.giveAll (governorTies p.dev) := by
  unfold devfreqRemove governorTies
  cases p.dev.board.devfreq <;> rfl

theorem giveAll_append (p : Probing) (l l' : List Tie) :
    p.giveAll (l ++ l') = (p.giveAll l).giveAll l' := by
  simp only [Probing.giveAll, Holdings.giveAll_append]

theorem errReleaseIommu_ties (hen : p.dev.iommuEn = enabled x) (h : p.Holds (memoryTies x) 0) :
    (errReleaseIommu p).ties = .empty := by
  have hgive := h.giveAll
  unfold errReleaseIommu
  unfold memoryTies at h hgive
  rw [hen]
  by_cases hx : enabled x
  · rw [if_pos hx]
    rw [if_pos hx] at hgive
    exact hgive
  · rw [if_neg hx] at h hgive ⊢
    by_cases hr : x.reserved = 0
    · rw [if_pos hr] at h hgive
      have hmem : .reservedMemory ∈ p.ties.held := by
        rw [h]
        simp
      rw [if_pos hmem]
      exact hgive
    · rw [if_neg hr] at h
      have hmem : .reservedMemory ∉ p.ties.held := by
        rw [h]
        simp
      rw [if_neg hmem, h]
      rfl

theorem Probing.Holds.of_giveAll {l l' : List Tie} {s : Multiset Tie}
    (h : p.Holds l ((l' : Multiset Tie) + s)) : (p.giveAll l).Holds l' s := h.giveAll

theorem errRemoveDrv_ties (hen : p.dev.iommuEn = enabled x)
    (h : p.Holds (drmTies p.dev) ((memoryTies x : Multiset Tie) + 0)) :
    (errRemoveDrv p).ties = .empty := by
  rw [errRemoveDrv, drmRemove_eq]
  exact errReleaseIommu_ties (p := p.giveAll _) hen h.of_giveAll

theorem errDetachPm_eq (p : Probing) : errDetachPm p = errRemoveDrv (p.giveAll (pmTies p.dev)) := by
  have hdomains : (if p.dev.board.multipleDomains then detach .npu0 p.dev.board.npu0
      (detach .npu1 p.dev.board.npu1 (detach .npu2 p.dev.board.npu2 p)) else p) =
        p.giveAll (domainTies p.dev) := by
    unfold domainTies
    cases p.dev.board.multipleDomains
    · rfl
    · simp only [if_true, detach_eq, giveAll_append]
  rw [errDetachPm, hdomains, pmTies, giveAll_append]
  rfl

theorem errDetachPm_ties (hen : p.dev.iommuEn = enabled x)
    (h : p.Holds (pmTies p.dev)
      ((drmTies p.dev : Multiset Tie) + ((memoryTies x : Multiset Tie) + 0))) :
    (errDetachPm p).ties = .empty := by
  rw [errDetachPm_eq]
  exact errRemoveDrv_ties (p := p.giveAll _) hen h.of_giveAll

theorem errDevfreqRemove_ties (hen : p.dev.iommuEn = enabled x)
    (h : p.Holds (governorTies p.dev) ((pmTies p.dev : Multiset Tie) +
      ((drmTies p.dev : Multiset Tie) + ((memoryTies x : Multiset Tie) + 0)))) :
    (errDevfreqRemove x p).ties = .empty := by
  rw [errDevfreqRemove, devfreqRemove_eq]
  exact errDetachPm_ties (p := switchOff x.powerOff (p.giveAll _)) hen h.of_giveAll

end Labels

section Rails

theorem errReleaseIommu_dev (p : Probing) : (errReleaseIommu p).dev = p.dev := by
  unfold errReleaseIommu
  split
  · rfl
  · split <;> rfl

theorem errRemoveDrv_dev (p : Probing) : (errRemoveDrv p).dev = p.dev := by
  rw [errRemoveDrv, errReleaseIommu_dev, drmRemove_eq, Probing.giveAll_dev]

theorem errDetachPm_dev (p : Probing) : (errDetachPm p).dev = p.dev := by
  rw [errDetachPm_eq, errRemoveDrv_dev, Probing.giveAll_dev]

end Rails

section Stages

theorem probeMemory_spec (x : Reply) (c : Config) :
    (∃ p, probeMemory x c = .ok p ∧ p.dev = .zero c (enabled x) ∧ p.Holds (memoryTies x) 0) ∨
    ∃ p, probeMemory x c = .error (.returns (-einval) p) ∧ p.ties = .empty ∧ p.dev.rails = .off := by
  have hties : (isIommuEnable x .empty).2 = .empty := by
    unfold isIommuEnable
    cases x.iommus with
    | none => rfl
    | some b => exact Holdings.give_cons 0 [] Tie.ofNode
  have hen : isIommuEnable x .empty = (enabled x, .empty) := Prod.ext rfl hties
  unfold probeMemory memoryTies
  rw [hen]
  dsimp only [Device.zero]
  by_cases hx : enabled x
  · rw [if_pos hx, if_pos hx]
    cases x.group
    · exact .inr ⟨_, rfl, rfl, rfl⟩
    · exact .inl ⟨_, rfl, rfl, rfl⟩
  · rw [if_neg hx, if_neg hx]
    by_cases hr : x.reserved = 0
    · rw [if_pos hr, if_pos hr]
      exact .inl ⟨_, rfl, rfl, rfl⟩
    · rw [if_neg hr, if_neg hr]
      exact .inl ⟨_, rfl, rfl, rfl⟩

theorem firstError_ne_zero {n : Nat} {f : Nat → Int} {ret : Int} (h : firstError n f = some ret) :
    ret ≠ 0 := by
  obtain ⟨i, -, hi⟩ := List.exists_of_findSome?_eq_some h
  obtain ⟨hne, heq⟩ := Option.ite_none_right_eq_some.mp hi
  cases heq
  exact hne

theorem probeHardware_spec (x : Reply) (p : Probing) :
    (∃ v m, probeHardware x p = .ok (p.setBoard { p.dev.board with vdd := v, mem := m })) ∨
    ∃ ret, ret ≠ 0 ∧ probeHardware x p = .error (.returns ret (errReleaseIommu p)) := by
  unfold probeHardware
  split
  · exact .inr ⟨_, by simp [enodev], rfl⟩
  split
  · rename_i h
    exact .inr ⟨_, h.1, rfl⟩
  split
  · rename_i h
    exact .inr ⟨_, h.1, rfl⟩
  split
  · rename_i h
    exact .inr ⟨_, firstError_ne_zero h, rfl⟩
  split
  · rename_i h
    refine .inr ⟨_, ?_, rfl⟩
    split at h
    · cases h
    · exact firstError_ne_zero h
  · exact .inl ⟨_, _, rfl⟩

theorem take_give (p : Probing) (k : Tie) : (p.take k).give k = p := by
  obtain ⟨d, t, b⟩ := p
  rw [Probing.give, Probing.take, Holdings.take, Holdings.give_cons]

theorem Probing.Holds.take {l : List Tie} {s : Multiset Tie} (h : p.Holds l s) (k : Tie) :
    (p.take k).Holds (k :: l) s := by
  rw [Probing.Holds] at h ⊢
  rw [Probing.take, Holdings.take, h, ← Multiset.cons_coe, Multiset.cons_add]

/-- Probe gets as far as `platform_device_register_full`, and that fails. -/
def FakeDevFails (x : Reply) : Prop :=
  x.drmAlloc = 0 ∧ 0 ≤ x.drmRegister ∧ x.platformDevice ≠ 0

theorem drmProbe_oops (h : FakeDevFails x) (p : Probing) : drmProbe x p = .error .oops := by
  obtain ⟨ha, hr, hd⟩ := h
  simp only [drmProbe, drmFakeDevRegister, ha, hd, not_lt.mpr hr, ne_eq, not_true_eq_false,
    not_false_eq_true, if_true, if_false]

theorem drmProbe_spec (x : Reply) (p : Probing) (hf : p.dev.fakeDev = false) {s : Multiset Tie}
    (h : p.Holds [] s) :
    (∃ f q, drmProbe x p = .ok q ∧ q.dev = (p.setFakeDev f).dev ∧ q.Holds (drmTies q.dev) s) ∨
    (∃ ret, ret ≠ 0 ∧ drmProbe x p = .error (.returns ret p)) ∨
    drmProbe x p = .error .oops ∧ FakeDevFails x := by
  by_cases hfails : FakeDevFails x
  · exact .inr (.inr ⟨drmProbe_oops hfails p, hfails⟩)
  unfold drmProbe drmFakeDevRegister
  by_cases ha : x.drmAlloc ≠ 0
  · rw [if_pos ha]
    exact .inr (.inl ⟨_, ha, rfl⟩)
  rw [if_neg ha]
  dsimp only
  by_cases hr : x.drmRegister < 0
  · rw [if_pos hr, take_give]
    exact .inr (.inl ⟨_, by omega, rfl⟩)
  rw [if_neg hr, if_neg fun hd => hfails ⟨not_not.mp ha, not_lt.mp hr, hd⟩]
  have hdrm := (h.take .drmDevice).take .drmRegistration
  by_cases hd : x.dmaConfigure ≠ 0
  · rw [if_pos hd, take_give]
    refine .inl ⟨false, _, rfl, ?_, ?_⟩
    · rw [Probing.setFakeDev, ← hf]
      rfl
    · have hties : drmTies ((p.take .drmDevice).take .drmRegistration).dev =
          [.drmRegistration, .drmDevice] := by
        rw [drmTies, tieIf, Probing.take, Probing.take, hf]
        rfl
      rw [hties]
      exact hdrm
  · rw [if_neg hd]
    exact .inl ⟨true, _, rfl, rfl, hdrm.take .fakeDevice⟩

theorem attachDomain_holds {l : List Tie} {s : Multiset Tie} (h : p.Holds l s) (r : Resource) :
    (attachDomain x r p).Holds (tieIf (x.attach r) (.powerDomain r) ++ l) s ∧
      (attachDomain x r p).dev = p.dev := by
  unfold attachDomain tieIf
  split
  · exact ⟨h.take _, rfl⟩
  · exact ⟨h, rfl⟩

theorem attachDomains_spec (x : Reply) (p : Probing) (hm : p.dev.board.multipleDomains = false)
    {s : Multiset Tie} (h : p.Holds [.runtimePm] s) :
    ∃ n0 n1 n2 md, (attachDomains x p).dev = (p.setBoard { p.dev.board with
        npu0 := n0, npu1 := n1, npu2 := n2, multipleDomains := md }).dev ∧
      (attachDomains x p).Holds (pmTies (attachDomains x p).dev) s := by
  unfold attachDomains
  split
  swap
  · refine ⟨_, _, _, _, rfl, ?_⟩
    rw [pmTies, domainTies, hm]
    exact h
  obtain ⟨h0, hdev0⟩ := attachDomain_holds (x := x) h .npu0
  obtain ⟨h1, hdev1⟩ := attachDomain_holds (x := x) h0 .npu1
  obtain ⟨h2, hdev2⟩ := attachDomain_holds (x := x) h1 .npu2
  dsimp only
  by_cases hn : 2 < p.dev.config.numIrqs
  · rw [if_pos (decide_eq_true hn)]
    refine ⟨_, _, _, _, by rw [Probing.setBoard, Probing.setBoard, hdev2, hdev1, hdev0], ?_⟩
    simpa [Probing.Holds, pmTies, domainTies, Probing.setBoard, hn] using h2
  · rw [if_neg (by simpa using hn)]
    refine ⟨_, _, _, _, by rw [Probing.setBoard, Probing.setBoard, hdev1, hdev0], ?_⟩
    simpa [Probing.Holds, pmTies, domainTies, Probing.setBoard, hn, tieIf] using h1

theorem devfreqInit_spec (x : Reply) (p : Probing) (hd : p.dev.board.devfreq = false)
    {s : Multiset Tie} (h : p.Holds [] s) :
    ∃ b, (devfreqInit x p).dev = (p.setBoard { p.dev.board with devfreq := b }).dev ∧
      (devfreqInit x p).Holds (governorTies (devfreqInit x p).dev) s := by
  have hnone : p.Holds (governorTies p.dev) s := by
    rw [governorTies, hd]
    exact h
  unfold devfreqInit
  split
  · exact ⟨_, rfl, hnone⟩
  dsimp only
  split
  · rw [take_give]
    exact ⟨_, rfl, hnone⟩
  · exact ⟨true, rfl, h.take .governor⟩

theorem findSramResource_spec (x : Reply) (p : Probing) :
    ∃ s, (findSramResource x p).2 = p.setSram s ∧ s.mm = p.dev.sram.mm := by
  unfold findSramResource
  split
  · exact ⟨p.dev.sram, rfl, rfl⟩
  rw [take_give]
  split
  · exact ⟨p.dev.sram, rfl, rfl⟩
  dsimp only
  split <;> exact ⟨_, rfl, rfl⟩

theorem sgtTies_concat (d : Device) (i : Nat) :
    (sgtTies { d with cacheSgt := d.cacheSgt ++ [i] } : Multiset Tie) =
      .sgTable i ::ₘ .sgt i ::ₘ (sgtTies d : Multiset Tie) := by
  have happ : sgtTies { d with cacheSgt := d.cacheSgt ++ [i] } = sgtTies d ++ [.sgTable i, .sgt i] :=
    List.flatMap_append
  rw [happ, Multiset.coe_eq_coe.mpr List.perm_append_comm]
  rfl

theorem cacheSgtTables_spec (x : Reply) (l : List Nat) (p : Probing) {s : Multiset Tie}
    (h : p.Holds (sgtTies p.dev) s) :
    ∃ k, (cacheSgtTables x l p).2.dev = (p.setCacheSgt k).dev ∧
      (cacheSgtTables x l p).2.Holds (sgtTies (cacheSgtTables x l p).2.dev) s := by
  induction l generalizing p with
  | nil => exact ⟨p.dev.cacheSgt, rfl, h⟩
  | cons i l ih =>
    rw [cacheSgtTables]
    split
    · exact ⟨p.dev.cacheSgt, rfl, h⟩
    dsimp only
    split
    · rw [take_give]
      exact ⟨p.dev.cacheSgt, rfl, h⟩
    · refine ih _ ?_
      have hties := sgtTies_concat p.dev i
      rw [Probing.Holds] at h
      rw [Probing.Holds, Probing.take, Probing.setCacheSgt, Probing.take, Holdings.take,
        Holdings.take, h]
      dsimp only
      rw [hties, Multiset.cons_add, Multiset.cons_add]

theorem freeCacheSgt_spec (p : Probing) {s : Multiset Tie} (h : p.Holds (sgtTies p.dev) s) :
    (freeCacheSgt p).dev = (p.setCacheSgt []).dev ∧ (freeCacheSgt p).ties = ⟨s, []⟩ :=
  ⟨rfl, Probing.Holds.giveAll (p := p.setCacheSgt []) (l := sgtTies p.dev) h⟩

theorem holds_nil {s : Multiset Tie} : p.Holds [] s ↔ p.ties = ⟨s, []⟩ := by
  rw [Probing.Holds, Multiset.coe_nil, zero_add]

theorem probeNbuf_spec (build : Build) (x : Reply) (p : Probing) (hc : p.dev.cacheSgt = [])
    {s : Multiset Tie} (h : p.Holds [] s) :
    ∃ n k, (probeNbuf build x p).dev = ((p.setNbufSize n).setCacheSgt k).dev ∧
      (p.dev.config.cacheSgtInit = false → k = []) ∧
      (probeNbuf build x p).Holds (sgtTies (probeNbuf build x p).dev) s := by
  have hsgt : p.Holds (sgtTies p.dev) s := by
    rw [sgtTies, hc]
    exact h
  unfold probeNbuf
  split
  swap
  · exact ⟨p.dev.nbufSize, p.dev.cacheSgt, rfl, fun _ => hc, hsgt⟩
  dsimp only
  split
  swap
  · exact ⟨p.dev.config.nbufSize, p.dev.cacheSgt, rfl, fun _ => hc, hsgt⟩
  rename_i hi
  have hinit : p.dev.config.cacheSgtInit = false → False := fun hf =>
    Bool.false_ne_true (hf.symm.trans hi)
  unfold cacheSgtInit
  generalize hl : List.range _ = l
  obtain ⟨k, hk, hs⟩ := cacheSgtTables_spec x l (p.setNbufSize p.dev.config.nbufSize) hsgt
  dsimp only
  split
  · exact ⟨_, k, hk, fun hf => (hinit hf).elim, hs⟩
  · obtain ⟨hdev, hfree⟩ := freeCacheSgt_spec _ hs
    refine ⟨p.dev.config.nbufSize, [], ?_, fun _ => rfl, ?_⟩
    · rw [hdev, Probing.setCacheSgt, hk]
      rfl
    · rw [hdev]
      exact holds_nil.mpr hfree

theorem debugfsRemoveFiles_eq (p : Probing) :
    debugfsRemoveFiles p = (p.setDebugfs ⟨false, 0⟩).giveAll (debugfsTies p.dev) := by
  unfold debugfsRemoveFiles debugfsTies tieIf
  rw [giveAll_append]
  dsimp only
  split <;> rfl

theorem debugfsRemoveFiles_holds {s : Multiset Tie} (h : p.Holds (debugfsTies p.dev) s) :
    ∃ d, (debugfsRemoveFiles p).dev = (p.setDebugfs d).dev ∧
      (debugfsRemoveFiles p).Holds (debugfsTies (debugfsRemoveFiles p).dev) s := by
  rw [debugfsRemoveFiles_eq]
  exact ⟨_, rfl, holds_nil.mpr (Probing.Holds.giveAll (p := p.setDebugfs ⟨false, 0⟩) h)⟩

theorem debugfsCreateFiles_spec (x : Reply) (l : List Nat) (p : Probing) {s : Multiset Tie}
    (h : p.Holds (debugfsTies p.dev) s) :
    ∃ d, (debugfsCreateFiles x l p).2.dev = (p.setDebugfs d).dev ∧
      (debugfsCreateFiles x l p).2.Holds (debugfsTies (debugfsCreateFiles x l p).2.dev) s := by
  induction l generalizing p with
  | nil => exact ⟨p.dev.debugfs, rfl, h⟩
  | cons i l ih =>
    rw [debugfsCreateFiles]
    split
    · exact debugfsRemoveFiles_holds h
    dsimp only
    split
    · rw [take_give]
      exact debugfsRemoveFiles_holds h
    · refine ih _ ?_
      have htake := h.take .debugfsNode
      exact htake

theorem debuggerInit_spec (build : Build) (x : Reply) (p : Probing)
    (hd : p.dev.debugfs = ⟨false, 0⟩) {s : Multiset Tie} (h : p.Holds [] s) :
    ∃ d, (debuggerInit build x p).dev = (p.setDebugfs d).dev ∧
      (debuggerInit build x p).Holds (debugfsTies (debuggerInit build x p).dev) s := by
  unfold debuggerInit
  split
  · refine ⟨p.dev.debugfs, rfl, ?_⟩
    rw [debugfsTies, hd]
    exact h
  dsimp only
  have hdir : ((p.setDebugfs { p.dev.debugfs with dir := true }).take .debugfsDir).Holds
      (debugfsTies (p.setDebugfs { p.dev.debugfs with dir := true }).dev) s := by
    rw [debugfsTies, Probing.setDebugfs, hd]
    exact Probing.Holds.take (p := p.setDebugfs ⟨true, 0⟩) h .debugfsDir
  obtain ⟨d, hdev, hh⟩ := debugfsCreateFiles_spec x (List.range (rootListLength build)) _ hdir
  split
  · obtain ⟨d', hdev', hh'⟩ := debugfsRemoveFiles_holds hh
    exact ⟨d', by rw [hdev', Probing.setDebugfs, hdev]; rfl, hh'⟩
  · exact ⟨d, hdev, hh⟩

end Stages

section Probe

/-- A failed step has given back what the steps before it had taken. -/
structure Undone (ret : Int) (q : Probing) : Prop where
  ret : ret ≠ 0
  ties : q.ties = .empty

structure Fresh (x : Reply) (c : Config) (d : Device) : Prop where
  config : d.config = c
  iommuEn : d.iommuEn = enabled x
  sram : d.sram.mm = false
  cacheSgt : d.cacheSgt = []
  debugfs : d.debugfs = ⟨false, 0⟩

def drmHeld (x : Reply) (d : Device) : Multiset Tie :=
  (drmTies d : Multiset Tie) + ((memoryTies x : Multiset Tie) + 0)

def pmHeld (x : Reply) (d : Device) : Multiset Tie := (pmTies d : Multiset Tie) + drmHeld x d

theorem probeDrm_oops (h : FakeDevFails x) (p : Probing) : probeDrm x p = .error .oops := by
  rw [probeDrm, drmProbe_oops h]

theorem probeDrm_spec (x : Reply) (p : Probing) (hen : p.dev.iommuEn = enabled x)
    (hf : p.dev.fakeDev = false) (h : p.Holds (memoryTies x) 0) :
    (∃ f q, probeDrm x p = .ok q ∧ q.dev = (p.setFakeDev f).dev ∧ q.ties = ⟨drmHeld x q.dev, []⟩) ∨
    (∃ ret q, probeDrm x p = .error (.returns ret q) ∧ Undone ret q ∧ q.dev.rails = p.dev.rails) ∨
    probeDrm x p = .error .oops ∧ FakeDevFails x := by
  unfold probeDrm
  obtain ⟨f, q, hq, hdev, hties⟩ | ⟨ret, hret, hq⟩ | ⟨hq, hfails⟩ :=
    drmProbe_spec x p hf (holds_nil.mpr h)
  · rw [hq]
    dsimp only
    have henq : q.dev.iommuEn = enabled x := by rw [hdev]; exact hen
    cases x.fence
    · refine .inr (.inl ⟨_, _, rfl, ⟨by simp [enomem], errRemoveDrv_ties henq hties⟩, ?_⟩)
      rw [errRemoveDrv_dev, hdev]
      rfl
    · exact .inl ⟨f, q, rfl, hdev, hties⟩
  · rw [hq]
    exact .inr (.inl ⟨_, _, rfl, ⟨hret, errReleaseIommu_ties hen h⟩, by rw [errReleaseIommu_dev]⟩)
  · rw [hq]
    exact .inr (.inr ⟨rfl, hfails⟩)

theorem probePower_spec (x : Reply) (p : Probing) (hen : p.dev.iommuEn = enabled x)
    (hm : p.dev.board.multipleDomains = false) (hr : p.dev.rails = .off)
    (h : p.ties = ⟨drmHeld x p.dev, []⟩) :
    (∃ n0 n1 n2 md q, probePower x p = .ok q ∧ q.dev = ((p.setBoard { p.dev.board with
        npu0 := n0, npu1 := n1, npu2 := n2, multipleDomains := md }).setRails (.on q.dev.board)).dev ∧
      q.ties = ⟨pmHeld x q.dev, []⟩) ∨
    ∃ ret q, probePower x p = .error (.returns ret q) ∧ Undone ret q ∧ q.dev.rails = .off := by
  obtain ⟨n0, n1, n2, md, hdev, hties⟩ := attachDomains_spec x (p.take .runtimePm) hm
    ((holds_nil.mpr h).take .runtimePm)
  unfold probePower
  generalize attachDomains x (p.take .runtimePm) = a at hdev hties
  have hoff : a.dev.rails = .off := by rw [hdev]; exact hr
  have hdrm : drmHeld x a.dev = drmHeld x p.dev := by rw [hdev]; rfl
  dsimp only
  rw [hoff]
  by_cases h0 : (powerOn a.dev.board x.powerOn .off).2 = 0
  · rw [if_neg (not_not.mpr h0), Power.powerOn_succeeded h0]
    refine .inl ⟨n0, n1, n2, md, _, rfl, ?_, ?_⟩
    · rw [Probing.setRails, hdev]
      rfl
    · rw [Probing.Holds, ← hdrm] at hties
      exact hties
  · rw [if_pos h0, Power.powerOn_failed h0]
    refine .inr ⟨_, _, rfl, ⟨h0, ?_⟩, by rw [errDetachPm_dev]; rfl⟩
    refine errDetachPm_ties (p := a.setRails .off) (by rw [Probing.setRails, hdev]; exact hen) ?_
    rw [Probing.Holds, ← hdrm] at hties
    exact hties

theorem ok_bind {α β : Type} (a : α) (f : α → Except Failure β) :
    (Except.ok a >>= f) = f a := rfl

theorem error_bind {α β : Type} (e : Failure) (f : α → Except Failure β) :
    (Except.error e >>= f) = .error e := rfl

theorem probeUntilDrm_spec (x : Reply) (c : Config) :
    (∃ v m p, probeUntilDrm x c = .ok p ∧
      p.dev = { Device.zero c (enabled x) with
        board := { (Device.zero c (enabled x)).board with vdd := v, mem := m } } ∧
      p.Holds (memoryTies x) 0) ∨
    ∃ ret q, probeUntilDrm x c = .error (.returns ret q) ∧ Undone ret q ∧ q.dev.rails = .off := by
  unfold probeUntilDrm
  obtain ⟨p, hp, hdev, hties⟩ | ⟨p, hp, hties, hoff⟩ := probeMemory_spec x c
  swap
  · rw [hp, error_bind]
    exact .inr ⟨_, _, rfl, ⟨by simp [einval], hties⟩, hoff⟩
  have hen : p.dev.iommuEn = enabled x := by rw [hdev]; rfl
  rw [hp, ok_bind]
  obtain ⟨v, m, hq⟩ | ⟨ret, hret, hq⟩ := probeHardware_spec x p
  · rw [hq]
    exact .inl ⟨v, m, _, rfl, by rw [Probing.setBoard, hdev], hties⟩
  · rw [hq]
    exact .inr ⟨_, _, rfl, ⟨hret, errReleaseIommu_ties hen hties⟩,
      by rw [errReleaseIommu_dev, hdev]; rfl⟩

/-- Before the power is on nothing is left of a probe that returns an error, and no rail. -/
theorem probeUntilPower_spec (x : Reply) (c : Config) :
    (∃ p, probeUntilPower x c = .ok p ∧ Fresh x c p.dev ∧ p.dev.board.devfreq = false ∧
      p.dev.rails = .on p.dev.board ∧ p.ties = ⟨pmHeld x p.dev, []⟩) ∨
    (∃ ret q, probeUntilPower x c = .error (.returns ret q) ∧ Undone ret q ∧
      q.dev.rails = .off) ∨
    probeUntilPower x c = .error .oops ∧ FakeDevFails x ∧ ∃ p, probeUntilDrm x c = .ok p := by
  unfold probeUntilPower
  obtain ⟨v, m, p, hp, hdev, hties⟩ | ⟨ret, q, hp, hundone, hoff⟩ := probeUntilDrm_spec x c
  swap
  · rw [hp, error_bind]
    exact .inr (.inl ⟨ret, q, rfl, hundone, hoff⟩)
  have hen : p.dev.iommuEn = enabled x := by rw [hdev]; rfl
  have hrails : p.dev.rails = .off := by rw [hdev]; rfl
  rw [hp, ok_bind]
  obtain ⟨f, r, hr, hrdev, hrties⟩ | ⟨ret, q, he, hundone, hoff⟩ | ⟨he, hfails⟩ :=
    probeDrm_spec x p hen (by rw [hdev]; rfl) hties
  swap
  · rw [he, error_bind]
    exact .inr (.inl ⟨ret, q, rfl, hundone, hoff.trans hrails⟩)
  swap
  · rw [he, error_bind]
    exact .inr (.inr ⟨rfl, hfails, p, rfl⟩)
  rw [hr, ok_bind]
  obtain ⟨n0, n1, n2, md, q, hq, hqdev, hqties⟩ | ⟨ret, q, he, hundone, hoff⟩ :=
    probePower_spec x r (by rw [hrdev]; exact hen) (by rw [hrdev, Probing.setFakeDev, hdev]; rfl)
      (by rw [hrdev]; exact hrails) hrties
  swap
  · exact .inr (.inl ⟨ret, q, he, hundone, hoff⟩)
  refine .inl ⟨q, hq, ?_, ?_, congrArg Device.rails hqdev, hqties⟩
  · rw [hqdev, Probing.setRails, Probing.setBoard, hrdev, Probing.setFakeDev, hdev]
    exact ⟨rfl, rfl, rfl, rfl, rfl⟩
  · rw [hqdev, Probing.setRails, Probing.setBoard, hrdev, Probing.setFakeDev, hdev]
    rfl

def workHeld (x : Reply) (d : Device) : Multiset Tie :=
  .workqueue ::ₘ ((governorTies d : Multiset Tie) + pmHeld x d)

def sramHeld (x : Reply) (d : Device) : Multiset Tie :=
  (tieIf d.sram.mm .sramMm : Multiset Tie) + workHeld x d

theorem on_devfreq (b : Board) (v : Bool) : Rails.on { b with devfreq := v } = .on b := rfl

theorem errDevfreqRemove_dev (x : Reply) (p : Probing) :
    (errDevfreqRemove x p).dev = (switchOff x.powerOff p).dev := by
  rw [errDevfreqRemove, errDetachPm_dev, devfreqRemove_eq]
  rfl

theorem errDevfreqRemove_spec (hen : p.dev.iommuEn = enabled x)
    (hr : p.dev.rails = .on p.dev.board)
    (h : p.ties = ⟨(governorTies p.dev : Multiset Tie) + pmHeld x p.dev, []⟩) {ret : Int}
    (hret : ret ≠ 0) : Undone ret (errDevfreqRemove x p) ∧
      (errDevfreqRemove x p).dev.rails = (powerOff p.dev.board x.powerOff (.on p.dev.board)).1 ∧
      (errDevfreqRemove x p).dev.board = p.dev.board := by
  refine ⟨⟨hret, errDevfreqRemove_ties hen h⟩, ?_, ?_⟩
  · rw [errDevfreqRemove_dev, switchOff, Probing.setRails, hr]
  · rw [errDevfreqRemove_dev]
    rfl

theorem probeWorkqueue_spec (x : Reply) (p : Probing) (hen : p.dev.iommuEn = enabled x)
    (hd : p.dev.board.devfreq = false) (hr : p.dev.rails = .on p.dev.board)
    (h : p.ties = ⟨pmHeld x p.dev, []⟩) :
    (∃ v q, probeWorkqueue x p = .ok q ∧
      q.dev = ((p.setBoard { p.dev.board with devfreq := v }).setPower
        { p.dev.power with putDelay := 3000 }).dev ∧ q.ties = ⟨workHeld x q.dev, []⟩) ∨
    ∃ ret e, probeWorkqueue x p = .error (.returns ret e) ∧ Undone ret e ∧
      e.dev.rails = (powerOff e.dev.board x.powerOff (.on e.dev.board)).1 := by
  obtain ⟨v, hdev, hties⟩ := devfreqInit_spec x p hd (holds_nil.mpr h)
  unfold probeWorkqueue
  generalize devfreqInit x p = a at hdev hties
  have hpm : pmHeld x a.dev = pmHeld x p.dev := by rw [hdev]; rfl
  rw [Probing.Holds, ← hpm] at hties
  dsimp only
  cases x.workqueue
  · have hrails : a.dev.rails = .on a.dev.board := by
      rw [hdev]
      exact hr.trans (on_devfreq _ v).symm
    obtain ⟨hundone, hoff, hboard⟩ := errDevfreqRemove_spec
      (by rw [hdev]; exact hen) hrails hties (show -enomem ≠ 0 by simp [enomem])
    exact .inr ⟨_, _, rfl, hundone, by rw [hboard]; exact hoff⟩
  · refine .inl ⟨v, _, rfl, ?_, ?_⟩
    · rw [Probing.take, Probing.setPower, hdev]
      rfl
    · rw [Probing.take, Holdings.take, Probing.setPower, hties]
      rfl

theorem probeSram_spec (build : Build) (x : Reply) (p : Probing) (hen : p.dev.iommuEn = enabled x)
    (hm : p.dev.sram.mm = false) (hr : p.dev.rails = .on p.dev.board)
    (h : p.ties = ⟨workHeld x p.dev, []⟩) :
    (∃ s q, probeSram build x p = .ok q ∧ q.dev = (p.setSram s).dev ∧ (s.mm → build.sram) ∧
      q.ties = ⟨sramHeld x q.dev, []⟩) ∨
    ∃ ret e, probeSram build x p = .error (.returns ret e) ∧ Undone ret e ∧
      e.dev.rails = (powerOff e.dev.board x.powerOff (.on e.dev.board)).1 := by
  have hnone (s : Sram) (hs : s.mm = false) :
      (p.setSram s).ties = ⟨sramHeld x (p.setSram s).dev, []⟩ := by
    rw [sramHeld, Probing.setSram, hs]
    exact holds_nil.mpr h
  unfold probeSram
  split
  swap
  · exact .inl ⟨p.dev.sram, p, rfl, rfl, fun ht => absurd (hm.symm.trans ht) (by decide),
      hnone p.dev.sram hm⟩
  rename_i hbuild
  obtain ⟨s, hs, hmm⟩ := findSramResource_spec x p
  dsimp only
  rw [hs]
  split
  swap
  · exact .inl ⟨s, _, rfl, rfl, fun ht => absurd ((hmm.trans hm).symm.trans ht) (by decide),
      hnone s (hmm.trans hm)⟩
  split
  · rename_i hret
    have hgive : (((p.setSram s).give .workqueue)).ties =
        ⟨(governorTies p.dev : Multiset Tie) + pmHeld x p.dev, []⟩ := by
      rw [Probing.give, Probing.setSram, h, workHeld, Holdings.give_cons]
    obtain ⟨hundone, hoff, hboard⟩ := errDevfreqRemove_spec (p := (p.setSram s).give .workqueue)
      hen hr hgive hret
    exact .inr ⟨_, _, rfl, hundone, by rw [errRemoveWq, hboard]; exact hoff⟩
  · refine .inl ⟨_, _, rfl, rfl, fun _ => ?_, ?_⟩
    · simp only [Bool.and_eq_true] at hbuild
      exact hbuild.1.2
    · rw [Probing.take, Probing.setSram, Probing.setSram, h]
      rfl

def probeHeld (x : Reply) (d : Device) : Multiset Tie :=
  .timer ::ₘ ((debugfsTies d : Multiset Tie) + ((sgtTies d : Multiset Tie) + sramHeld x d))

structure Probed (build : Build) (x : Reply) (p : Probing) : Prop where
  iommuEn : p.dev.iommuEn = enabled x
  sram : p.dev.sram.mm → build.sram
  cacheSgt : p.dev.config.cacheSgtInit = false → p.dev.cacheSgt = []
  power : p.dev.power = ⟨3000, 0, 0⟩
  rails : p.dev.rails = (powerOff p.dev.board x.powerOff (.on p.dev.board)).1
  ties : p.ties = ⟨probeHeld x p.dev, []⟩

theorem probeEnd_spec (build : Build) (x : Reply) (p : Probing) (hen : p.dev.iommuEn = enabled x)
    (hm : p.dev.sram.mm → build.sram) (hc : p.dev.cacheSgt = [])
    (hd : p.dev.debugfs = ⟨false, 0⟩) (hpower : p.dev.power.putDelay = 3000)
    (hr : p.dev.rails = .on p.dev.board) (h : p.ties = ⟨sramHeld x p.dev, []⟩) :
    Probed build x (probeEnd build x p) := by
  obtain ⟨n, k, hdev, hinit, hties⟩ := probeNbuf_spec build x p hc (holds_nil.mpr h)
  unfold probeEnd
  generalize probeNbuf build x p = a at hdev hties
  obtain ⟨d, hdev', hties'⟩ := debuggerInit_spec build x
    ((switchOff x.powerOff a).setPower
      { (switchOff x.powerOff a).dev.power with refcount := 0, cmdlineRefcount := 0 })
    (by simp only [Probing.setPower, switchOff, Probing.setRails]; rw [hdev]; exact hd)
    (holds_nil.mpr hties)
  dsimp only
  generalize debuggerInit build x _ = q at hdev' hties'
  simp only [Probing.setPower, switchOff, Probing.setRails, Probing.setDebugfs] at hdev'
  rw [hdev] at hdev'
  constructor
  · rw [Probing.take, hdev']
    exact hen
  · rw [Probing.take, hdev']
    exact hm
  · rw [Probing.take, hdev']
    exact hinit
  · rw [Probing.take, hdev']
    exact congrArg (PowerFields.mk · 0 0) hpower
  · rw [Probing.take, hdev']
    exact congrArg (fun t => (powerOff p.dev.board x.powerOff t).1) hr
  · have hsgt : sgtTies a.dev = sgtTies q.dev := by rw [hdev', hdev]; rfl
    have hsram : sramHeld x p.dev = sramHeld x q.dev := by rw [hdev']; rfl
    rw [Probing.Holds, hsgt, hsram] at hties'
    rw [Probing.take, Holdings.take, hties']
    rfl

/-- What probe leaves, when it succeeds, when it fails, and where it does not return. -/
theorem probe_spec (build : Build) (x : Reply) :
    (∃ p, probe build x = .ok p ∧ Probed build x p) ∨
    (∃ ret q, probe build x = .error (.returns ret q) ∧ Undone ret q ∧
      ((∀ c p, findConfig x = .ok c → probeUntilPower x c ≠ .ok p) ∧ q.dev.rails = .off ∨
        (∃ c p, findConfig x = .ok c ∧ probeUntilPower x c = .ok p) ∧
          q.dev.rails = (powerOff q.dev.board x.powerOff (.on q.dev.board)).1)) ∨
    probe build x = .error .oops ∧ FakeDevFails x ∧
      ∃ c p, findConfig x = .ok c ∧ probeUntilDrm x c = .ok p := by
  unfold probe
  cases hfind : findConfig x with
  | error ret =>
    refine .inr (.inl ⟨_, _, rfl, ⟨?_, rfl⟩, .inl ⟨fun c p h => (by cases h), rfl⟩⟩)
    unfold findConfig at hfind
    repeat' split at hfind
    all_goals cases hfind <;> simp [enodev, enomem]
  | ok c =>
    dsimp only
    obtain ⟨p, hp, hfresh, hd, hr, hties⟩ | ⟨ret, q, he, hundone, hoff⟩ | ⟨he, hfails, p, hp⟩ :=
      probeUntilPower_spec x c
    swap
    · rw [he, error_bind]
      refine .inr (.inl ⟨ret, q, rfl, hundone, .inl ⟨fun c' p h hp => ?_, hoff⟩⟩)
      cases h
      rw [he] at hp
      cases hp
    swap
    · rw [he, error_bind]
      exact .inr (.inr ⟨rfl, hfails, c, p, rfl, hp⟩)
    rw [hp, ok_bind]
    obtain ⟨v, q, hq, hqdev, hqties⟩ | ⟨ret, q, he, hundone, hoff⟩ :=
      probeWorkqueue_spec x p hfresh.iommuEn hd hr hties
    swap
    · rw [he, error_bind]
      exact .inr (.inl ⟨ret, q, rfl, hundone, .inr ⟨⟨c, p, rfl, hp⟩, hoff⟩⟩)
    rw [hq, ok_bind]
    have hqon : q.dev.rails = .on q.dev.board := by
      rw [hqdev]
      exact hr.trans (on_devfreq _ v).symm
    obtain ⟨s, r, hs, hrdev, hmm, hrties⟩ | ⟨ret, q, he, hundone, hoff⟩ :=
      probeSram_spec build x q (by rw [hqdev]; exact hfresh.iommuEn)
        (by rw [hqdev]; exact hfresh.sram) hqon hqties
    swap
    · rw [he, error_bind]
      exact .inr (.inl ⟨ret, q, rfl, hundone, .inr ⟨⟨c, p, rfl, hp⟩, hoff⟩⟩)
    rw [hs, ok_bind]
    refine .inl ⟨_, rfl, probeEnd_spec build x r ?_ ?_ ?_ ?_ ?_ ?_ hrties⟩
    · rw [hrdev, Probing.setSram, hqdev]
      exact hfresh.iommuEn
    · rw [hrdev]
      exact hmm
    · rw [hrdev, Probing.setSram, hqdev]
      exact hfresh.cacheSgt
    · rw [hrdev, Probing.setSram, hqdev]
      exact hfresh.debugfs
    · rw [hrdev, Probing.setSram, hqdev]
      rfl
    · rw [hrdev]
      exact hqon

theorem probe_oops (h : FakeDevFails x) (hc : findConfig x = .ok c) (hp : probeUntilDrm x c = .ok p) :
    probe build x = .error .oops := by
  have hpower : probeUntilPower x c = .error .oops := by
    rw [probeUntilPower, hp, ok_bind, probeDrm_oops h, error_bind]
  simp only [probe, hc, hpower, error_bind]

/-- A probe that fails has given back whatever it had taken, and it leaves the NPU switched on
only where it had been switched on and `rknpu_power_off` does not succeed. It fails to return
exactly where the fake device cannot be registered. -/
theorem probe_undone (h : probe build x = .error e) :
    (e = .oops ↔ FakeDevFails x ∧ ∃ c p, findConfig x = .ok c ∧ probeUntilDrm x c = .ok p) ∧
    ∀ ret q, e = .returns ret q → ret ≠ 0 ∧ q.ties = .empty ∧
      (q.dev.rails = .off ↔ ¬((∃ c p, findConfig x = .ok c ∧ probeUntilPower x c = .ok p) ∧
        q.dev.board.staysOn x.powerOff)) := by
  refine ⟨⟨?_, fun ⟨hfails, c, p, hc, hp⟩ => ?_⟩, ?_⟩
  · rintro rfl
    obtain ⟨p, hp, -⟩ | ⟨ret, q, hq, -⟩ | ⟨-, hfails, hreached⟩ := probe_spec build x
    · cases h.symm.trans hp
    · cases h.symm.trans hq
    · exact ⟨hfails, hreached⟩
  · exact (Except.error.inj ((probe_oops hfails hc hp).symm.trans h)).symm
  · rintro ret q rfl
    obtain ⟨p, hp, -⟩ | ⟨ret', q', hq, hundone, hrails⟩ | ⟨hq, -⟩ := probe_spec build x
    · cases h.symm.trans hp
    swap
    · cases h.symm.trans hq
    cases h.symm.trans hq
    refine ⟨hundone.ret, hundone.ties, ?_⟩
    obtain ⟨hnone, hoff⟩ | ⟨hon, hoff⟩ := hrails
    · exact iff_of_true hoff fun ⟨⟨c, p, hc, hp⟩, _⟩ => hnone c p hc hp
    · rw [hoff, powerOff_on]
      exact not_congr ⟨fun hs => ⟨hon, hs⟩, fun hs => hs.2⟩

def Reply.found : Reply where
  ofNode := true
  compatible := some .rk3588
  zalloc := true
  nvmemCores := none
  iommus := some true
  group := true
  reserved := 0
  numClks := 4
  vdd := 0
  mem := 0
  resource := fun _ => true
  ioremapResource := fun _ => 0
  bypassIrqHandler := false
  irqByName := fun i => 40 + i
  irq := fun i => 40 + i
  requestIrq := fun _ => 0
  drmAlloc := 0
  drmRegister := 0
  platformDevice := 0
  dmaConfigure := 0
  fence := true
  powerDomains := 3
  attach := fun _ => true
  powerOn := .ok
  opp := 0
  addGovernor := 0
  addDevfreq := 0
  workqueue := true
  sramNode := true
  sramResource := 0
  sramRange := (0xff001000, 0xef000)
  mmCreate := 0
  sgtAlloc := fun _ => true
  sgAllocTable := fun _ => 0
  powerOff := .ok
  debugfsDir := true
  nodeAlloc := fun _ => true
  createFile := fun _ => true

/-- The SRAM cannot be managed, and then the IOMMU stays enabled. -/
def Reply.noSram : Reply := { Reply.found with
  mmCreate := -enomem
  powerOff := .grouped 0 }

/-- The error code of a failed probe, and whether the board has several power domains. -/
def Failure.code : Failure → Option (Int × Bool)
  | .returns ret p => some (ret, p.dev.board.multipleDomains)
  | .oops => none

theorem probe_undone_noSram : ∃ q, probe ⟨true, true⟩ .noSram = .error (.returns (-enomem) q) ∧
    q.ties = .empty ∧ q.dev.rails ≠ .off := by
  have hret : Except.mapError Failure.code ((probe ⟨true, true⟩ .noSram).map fun _ => ()) =
      .error (some (-enomem, true)) := by decide +kernel
  have hon : (probeUntilPower .noSram ⟨3, 0, false⟩).isOk := by decide +kernel
  cases hp : probeUntilPower .noSram ⟨3, 0, false⟩ with
  | error e =>
    rw [hp] at hon
    cases hon
  | ok p =>
    cases he : probe ⟨true, true⟩ .noSram with
    | ok q =>
      rw [he] at hret
      cases hret
    | error e =>
      rw [he] at hret
      have hcode : e.code = some (-enomem, true) := Except.error.inj hret
      cases e with
      | oops => cases hcode
      | returns ret q =>
        obtain ⟨h1, hm⟩ := Prod.ext_iff.mp (Option.some.inj hcode)
        obtain ⟨-, hties, hoff⟩ := (probe_undone he).2 ret q rfl
        exact ⟨q, congrArg (fun r => Except.error (Failure.returns r q)) h1, hties,
          fun h => hoff.mp h ⟨⟨_, p, rfl, hp⟩, hm, by decide⟩⟩

end Probe

section Remove

variable (build)

variable {build}

def Probing.used (p : Probing) (s : Power.State) : Probing :=
  (p.setRails s.rails).setPower ⟨s.delay, s.refcount, s.cmdline⟩

end Remove

end Rknpu.Probe

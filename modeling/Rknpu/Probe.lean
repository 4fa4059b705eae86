import Rknpu.Create
import Rknpu.Ledger
import Rknpu.PowerRelease

namespace Rknpu.Probe

open Ledger
open Power (Resource Board Rails powerOn powerOff)

def enodev : Int := 19
def ebusy : Int := 16

deriving instance DecidableEq for Power.Board

/-- Of `struct rknpu_config` what probe and remove use. -/
structure Config where
  numIrqs : Nat
  nbufSize : Nat
  cacheSgtInit : Bool

/-- The entries of `rknpu_of_match`; two of them are for the RK356x. -/
inductive Compatible where
  | rk356x
  | rk3588
  | rv1106
  | rk3562
  | rk3576
  | rv1126b
deriving DecidableEq

def Compatible.data : Compatible → Config
  | .rk356x => ⟨1, 0, false⟩
  | .rk3588 => ⟨3, 0, false⟩
  | .rv1106 => ⟨1, 0, false⟩
  | .rk3562 => ⟨1, 256 * 1024, false⟩
  | .rk3576 => ⟨2, 1024 * 1024, true⟩
  | .rv1126b => ⟨1, 512 * 1024, false⟩

/-- `rk3583_rknpu_config` -/
def rk3583Config : Config := ⟨2, 0, false⟩

/-- What the driver has of the kernel, where the kernel does not take it back by itself. -/
inductive Tie where
  | ofNode
  | iommuGroup
  | reservedMemory
  | drmDevice
  | drmRegistration
  | fakeDevice
  | runtimePm
  | powerDomain (r : Resource)
  | governor
  | workqueue
  | sramMm
  | sgt (i : Nat)
  | sgTable (i : Nat)
  | debugfsDir
  | debugfsNode
  | timer
deriving DecidableEq

/-- Where the SRAM is, and whether `sram_mm` manages it. -/
structure Sram where
  start : Nat
  stop : Nat
  size : Nat
  mm : Bool

/-- Whether the directory is there, and the length of the entry list. -/
structure Debugfs where
  dir : Bool
  entries : Nat

/-- `power_put_delay`, `power_refcount` and `cmdline_power_refcount` -/
structure PowerFields where
  putDelay : Nat
  refcount : Int
  cmdlineRefcount : Int

/-- The fields of `struct rknpu_device` that probe sets, with what is switched on; `cacheSgt`
lists the tables that are there. -/
structure Device where
  config : Config
  iommuEn : Bool
  fakeDev : Bool
  board : Board
  sram : Sram
  nbufSize : Nat
  cacheSgt : List Nat
  debugfs : Debugfs
  power : PowerFields
  rails : Rails

def Device.zero (c : Config) (en : Bool) : Device where
  config := c
  iommuEn := en
  fakeDev := false
  board := ⟨false, false, false, false, false, false, false⟩
  sram := ⟨0, 0, 0, false⟩
  nbufSize := 0
  cacheSgt := []
  debugfs := ⟨false, 0⟩
  power := ⟨0, 0, 0⟩
  rails := .off

/-- What probe is told: whether something is found or allocated, error codes, and of the
SRAM the range of its resource. The result of a lookup that may be missing is 0 where it is
there. -/
structure Reply where
  ofNode : Bool
  compatible : Option Compatible
  zalloc : Bool
  nvmemCores : Option Nat
  iommus : Option Bool
  group : Bool
  reserved : Int
  numClks : Int
  vdd : Int
  mem : Int
  resource : Nat → Bool
  ioremapResource : Nat → Int
  bypassIrqHandler : Bool
  irqByName : Nat → Int
  irq : Nat → Int
  requestIrq : Nat → Int
  drmAlloc : Int
  drmRegister : Int
  platformDevice : Int
  dmaConfigure : Int
  fence : Bool
  powerDomains : Int
  attach : Resource → Bool
  powerOn : Power.Reply
  opp : Int
  addGovernor : Int
  addDevfreq : Int
  workqueue : Bool
  sramNode : Bool
  sramResource : Int
  sramRange : Nat × Nat
  mmCreate : Int
  sgtAlloc : Nat → Bool
  sgAllocTable : Nat → Int
  powerOff : Power.Reply
  debugfsDir : Bool
  nodeAlloc : Nat → Bool
  createFile : Nat → Bool

structure Probing where
  dev : Device
  ties : Holdings Tie

namespace Probing

variable (p : Probing)

def take (k : Tie) : Probing := { p with ties := p.ties.take k }

def give (k : Tie) : Probing := { p with ties := p.ties.give k }

def giveAll (l : List Tie) : Probing := { p with ties := p.ties.giveAll l }

def setFakeDev (b : Bool) : Probing := { p with dev := { p.dev with fakeDev := b } }

def setBoard (b : Board) : Probing := { p with dev := { p.dev with board := b } }

def setSram (s : Sram) : Probing := { p with dev := { p.dev with sram := s } }

def setNbufSize (n : Nat) : Probing := { p with dev := { p.dev with nbufSize := n } }

def setCacheSgt (l : List Nat) : Probing := { p with dev := { p.dev with cacheSgt := l } }

def setDebugfs (d : Debugfs) : Probing := { p with dev := { p.dev with debugfs := d } }

def setPower (f : PowerFields) : Probing := { p with dev := { p.dev with power := f } }

def setRails (t : Rails) : Probing := { p with dev := { p.dev with rails := t } }

end Probing

/-- How probe ends without a device: it returns an error code and what the driver still has, or
the kernel stops it at an address that is none. -/
inductive Failure where
  | returns (ret : Int) (p : Probing)
  | oops

variable (build : Build) (x : Reply)

section Unwind

/-- `rknpu_drm_remove` -/
def drmRemove (p : Probing) : Probing :=
  let p := if p.dev.fakeDev then p.give .fakeDevice else p
  (p.give .drmRegistration).give .drmDevice

/-- `rknpu_devfreq_remove` -/
def devfreqRemove (p : Probing) : Probing := if p.dev.board.devfreq then p.give .governor else p

/-- `rknpu_power_off`, whatever it returns. -/
def switchOff (y : Power.Reply) (p : Probing) : Probing :=
  p.setRails (powerOff p.dev.board y p.dev.rails).1

def errReleaseIommu (p : Probing) : Probing :=
  if p.dev.iommuEn then p.give .iommuGroup
  else if .reservedMemory ∈ p.ties.held then p.give .reservedMemory else p

def errRemoveDrv (p : Probing) : Probing := errReleaseIommu (drmRemove p)

def detach (r : Resource) (attached : Bool) (p : Probing) : Probing :=
  if attached then p.give (.powerDomain r) else p

def errDetachPm (p : Probing) : Probing :=
  let b := p.dev.board
  let p := if b.multipleDomains then detach .npu0 b.npu0 (detach .npu1 b.npu1 (detach .npu2 b.npu2 p))
    else p
  errRemoveDrv (p.give .runtimePm)

def errDevfreqRemove (p : Probing) : Probing := errDetachPm (switchOff x.powerOff (devfreqRemove p))

def errRemoveWq (p : Probing) : Probing := errDevfreqRemove x (p.give .workqueue)

end Unwind

/-- `rknpu_get_invalid_core_mask` -/
def getInvalidCoreMask : Nat :=
  match x.nvmemCores with
  | some mask => mask ||| 0x4
  | none => 0

/-- How probe begins; an RK3588 without its third core is an RK3583. -/
def findConfig : Except Int Config :=
  if !x.ofNode then .error (-enodev)
  else match x.compatible with
    | none => .error (-enodev)
    | some c =>
      if !x.zalloc then .error (-enomem)
      else if c = .rk3588 ∧ (getInvalidCoreMask x).testBit 2 then
        if (getInvalidCoreMask x).testBit 0 || (getInvalidCoreMask x).testBit 1 then .error (-enodev)
        else .ok rk3583Config
      else .ok c.data

/-- `rknpu_is_iommu_enable` -/
def isIommuEnable (t : Holdings Tie) : Bool × Holdings Tie :=
  match x.iommus with
  | none => (false, t)
  | some available => (available, (t.take .ofNode).give .ofNode)

/-- The IOMMU group, or the reserved memory that a device without an IOMMU may have. -/
def probeMemory (c : Config) : Except Failure Probing :=
  let en := isIommuEnable x .empty
  let p : Probing := ⟨.zero c en.1, en.2⟩
  if p.dev.iommuEn then
    if x.group then .ok (p.take .iommuGroup) else .error (.returns (-einval) p)
  else .ok (if x.reserved = 0 then p.take .reservedMemory else p)

/-- The registers of one core; `devm_ioremap` of a resource that is busy reports no error. -/
def remapCore (i : Nat) : Int :=
  if !x.resource i then -Buffer.enxio
  else if x.ioremapResource i = -ebusy then 0 else x.ioremapResource i

/-- One round of `rknpu_register_irq` -/
def registerIrq (i : Nat) : Int :=
  let irq := if x.irqByName i < 0 then x.irq i else x.irqByName i
  if irq < 0 then irq else if x.requestIrq i < 0 then x.requestIrq i else 0

def firstError (n : Nat) (f : Nat → Int) : Option Int :=
  (List.range n).findSome? fun i => if f i ≠ 0 then some (f i) else none

def probeHardware (p : Probing) : Except Failure Probing :=
  if x.numClks < 1 then .error (.returns (-enodev) (errReleaseIommu p))
  else if x.vdd ≠ 0 ∧ x.vdd ≠ -enodev then .error (.returns x.vdd (errReleaseIommu p))
  else if x.mem ≠ 0 ∧ x.mem ≠ -enodev then .error (.returns x.mem (errReleaseIommu p))
  else match firstError p.dev.config.numIrqs (remapCore x) with
    | some e => .error (.returns e (errReleaseIommu p))
    | none =>
      match if x.bypassIrqHandler then none else firstError p.dev.config.numIrqs (registerIrq x) with
      | some e => .error (.returns e (errReleaseIommu p))
      | none => .ok (p.setBoard { p.dev.board with vdd := x.vdd = 0, mem := x.mem = 0 })

/-- `drm_fake_dev_register`; the error pointer of a registration that fails is not null, and
`of_dma_configure_id` reads what is there. -/
def drmFakeDevRegister (p : Probing) : Except Failure Probing :=
  if x.platformDevice ≠ 0 then .error .oops
  else
    let p := p.take .fakeDevice
    .ok (if x.dmaConfigure ≠ 0 then p.give .fakeDevice else p.setFakeDev true)

/-- `rknpu_drm_probe` -/
def drmProbe (p : Probing) : Except Failure Probing :=
  if x.drmAlloc ≠ 0 then .error (.returns x.drmAlloc p)
  else
    let p := p.take .drmDevice
    if x.drmRegister < 0 then .error (.returns x.drmRegister (p.give .drmDevice))
    else drmFakeDevRegister x (p.take .drmRegistration)

def probeDrm (p : Probing) : Except Failure Probing :=
  match drmProbe x p with
  | .error (.returns ret p) => .error (.returns ret (errReleaseIommu p))
  | .error .oops => .error .oops
  | .ok p => if x.fence then .ok p else .error (.returns (-enomem) (errRemoveDrv p))

/-- `dev_pm_domain_attach_by_name` -/
def attachDomain (r : Resource) (p : Probing) : Probing :=
  if x.attach r then p.take (.powerDomain r) else p

def attachDomains (p : Probing) : Probing :=
  if 1 < x.powerDomains then
    let third := decide (2 < p.dev.config.numIrqs)
    let p := attachDomain x .npu1 (attachDomain x .npu0 p)
    let p := if third then attachDomain x .npu2 p else p
    p.setBoard { p.dev.board with
      npu0 := x.attach .npu0
      npu1 := x.attach .npu1
      npu2 := third && x.attach .npu2
      multipleDomains := true }
  else p

/-- The power domains, and `rknpu_power_on`. -/
def probePower (p : Probing) : Except Failure Probing :=
  let p := attachDomains x (p.take .runtimePm)
  let r := powerOn p.dev.board x.powerOn p.dev.rails
  if r.2 ≠ 0 then .error (.returns r.2 (errDetachPm (p.setRails r.1))) else .ok (p.setRails r.1)

/-- `rknpu_devfreq_init`, the result of which is ignored. -/
def devfreqInit (p : Probing) : Probing :=
  if x.opp ≠ 0 ∨ x.addGovernor ≠ 0 then p
  else
    let p := p.take .governor
    if x.addDevfreq ≠ 0 then p.give .governor
    else p.setBoard { p.dev.board with devfreq := true }

def probeWorkqueue (p : Probing) : Except Failure Probing :=
  let p := devfreqInit x p
  if x.workqueue then .ok ((p.setPower { p.dev.power with putDelay := 3000 }).take .workqueue)
  else .error (.returns (-enomem) (errDevfreqRemove x p))

section Sram

variable (r : Nat × Nat)

/-- Where the first whole page of a resource starts. -/
def sramStart : Nat := Buffer.roundUp r.1

/-- Where its last whole page ends. -/
def sramEnd : Nat := ulongAdd r.1 r.2 / pageSize * pageSize

/-- The size is kept as a `uint32_t`. -/
def sramSize : Nat := (sramEnd r - sramStart r) % 2 ^ 32

end Sram

/-- `rknpu_find_sram_resource` -/
def findSramResource (p : Probing) : Int × Probing :=
  if !x.sramNode then (-einval, p)
  else
    let p := (p.take .ofNode).give .ofNode
    if x.sramResource ≠ 0 then (x.sramResource, p)
    else
      let s : Sram := { p.dev.sram with start := sramStart x.sramRange, stop := sramEnd x.sramRange }
      if s.stop ≤ s.start then (-einval, p.setSram s)
      else (0, p.setSram { s with size := sramSize x.sramRange })

/-- The SRAM, which some builds manage. -/
def probeSram (p : Probing) : Except Failure Probing :=
  if build.noGki && build.sram && p.dev.iommuEn then
    let r := findSramResource x p
    if r.1 = 0 then
      if x.mmCreate ≠ 0 then .error (.returns x.mmCreate (errRemoveWq x r.2))
      else .ok ((r.2.setSram { r.2.dev.sram with mm := true }).take .sramMm)
    else .ok r.2
  else .ok p

/-- The tables of the cores from `i` on in `rk3576_cache_sgt_init`. -/
def cacheSgtTables : List Nat → Probing → Bool × Probing
  | [], p => (true, p)
  | i :: l, p =>
    if !x.sgtAlloc i then (false, p)
    else
      let p := p.take (.sgt i)
      if x.sgAllocTable i ≠ 0 then (false, p.give (.sgt i))
      else cacheSgtTables l ((p.setCacheSgt (p.dev.cacheSgt ++ [i])).take (.sgTable i))

def freeCacheSgt (p : Probing) : Probing :=
  (p.setCacheSgt []).giveAll (p.dev.cacheSgt.flatMap fun i => [.sgTable i, .sgt i])

/-- `rk3576_cache_sgt_init` -/
def cacheSgtInit (p : Probing) : Probing :=
  let r := cacheSgtTables x (List.range p.dev.config.numIrqs) p
  if r.1 then r.2 else freeCacheSgt r.2

/-- `rknpu_find_nbuf_resource`, and the tables of the cache. -/
def probeNbuf (p : Probing) : Probing :=
  if build.noGki && p.dev.iommuEn && decide (0 < p.dev.config.nbufSize) then
    let p := p.setNbufSize p.dev.config.nbufSize
    if p.dev.config.cacheSgtInit then cacheSgtInit x p else p
  else p

/-- `rknpu_debugfs_remove_files` -/
def debugfsRemoveFiles (p : Probing) : Probing :=
  let d := p.dev.debugfs
  let p := (p.setDebugfs ⟨false, 0⟩).giveAll (List.replicate d.entries .debugfsNode)
  if d.dir then p.give .debugfsDir else p

/-- The files from `i` on in `rknpu_debugfs_create_files` -/
def debugfsCreateFiles : List Nat → Probing → Int × Probing
  | [], p => (0, p)
  | i :: l, p =>
    if !x.nodeAlloc i then (-1, debugfsRemoveFiles p)
    else
      let p := p.take .debugfsNode
      if !x.createFile i then (-1, debugfsRemoveFiles (p.give .debugfsNode))
      else debugfsCreateFiles l
        (p.setDebugfs { p.dev.debugfs with entries := p.dev.debugfs.entries + 1 })

/-- The length of `rknpu_debugger_root_list` -/
def rootListLength : Nat := if build.sram then 8 else 7

/-- `rknpu_debugger_init`, the result of which is ignored. -/
def debuggerInit (p : Probing) : Probing :=
  if !x.debugfsDir then p
  else
    let p := (p.setDebugfs { p.dev.debugfs with dir := true }).take .debugfsDir
    let r := debugfsCreateFiles x (List.range (rootListLength build)) p
    if r.1 ≠ 0 then debugfsRemoveFiles r.2 else r.2

/-- What can no longer fail. -/
def probeEnd (p : Probing) : Probing :=
  let p := switchOff x.powerOff (probeNbuf build x p)
  let p := p.setPower { p.dev.power with refcount := 0, cmdlineRefcount := 0 }
  (debuggerInit build x p).take .timer

def probeUntilDrm (c : Config) : Except Failure Probing := do
  let p ← probeMemory x c
  probeHardware x p

def probeUntilPower (c : Config) : Except Failure Probing := do
  let p ← probeUntilDrm x c
  let p ← probeDrm x p
  probePower x p

/-- `rknpu_probe` -/
def probe : Except Failure Probing :=
  match findConfig x with
  | .error ret => .error (.returns ret ⟨.zero rk3583Config false, .empty⟩)
  | .ok c => do
    let p ← probeUntilPower x c
    let p ← probeWorkqueue x p
    let p ← probeSram build x p
    .ok (probeEnd build x p)

end Rknpu.Probe

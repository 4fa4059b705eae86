import Rknpu.Job

namespace Rknpu

/-- One entry of a `struct scatterlist`: pages that follow one another in memory. -/
structure Segment where
  phys : Nat
  length : Nat

def Segment.bytes (s : Segment) : List Nat := (List.range s.length).map (s.phys + ·)

def bytesOf (sgl : List Segment) : List Nat := sgl.flatMap Segment.bytes

/-- The CPU segments that `drm_prime_pages_to_sg` makes of the pages of an object: they
have every page once. -/
structure Pages (size : Nat) where
  sgl : List Segment
  total : (sgl.map Segment.length).sum = size
  nodup : (bytesOf sgl).Nodup

/-- `struct rknpu_gem_object` as `rknpu_gem_get_pages` builds it, so with no part in SRAM
or NBUF. `nents` is the number of segments that `dma_map_sg` made of the `orig_nents`. -/
structure GemObject where
  flags : Nat
  size : Nat
  iommuDomainId : Int
  dmaAddr : Nat
  pages : Pages size
  nents : Nat
  nents_pos : 1 ≤ nents
  nents_le : nents ≤ pages.sgl.length

namespace GemObject

variable (o : GemObject)

/-- `RKNPU_MEM_NON_CONTIGUOUS` -/
def nonContiguous : Bool := o.flags.testBit 0
/-- `RKNPU_MEM_CACHEABLE` -/
def cacheable : Bool := o.flags.testBit 1

def bytes : List Nat := bytesOf o.pages.sgl

/-- How many bytes the first `nents` segments of the table have. -/
def reach : Nat := ((o.pages.sgl.take o.nents).map Segment.length).sum

end GemObject

/-- `rknpu_gem_get_pages`; the arguments after `domain` are what the kernel answers: the
pages or an error, their segments or an error, the count and the first address of the
mapping unless it failed, and whether `vmap` succeeded. -/
def gemGetPages (flags size : Nat) (domain : Int) (getPages : Except Int Unit)
    (toSg : Except Int (Pages size))
    (mapSg : (p : Pages size) → Option ({ n : Nat // 1 ≤ n ∧ n ≤ p.sgl.length } × Nat))
    (vmap : Bool) : Except Int GemObject := do
  getPages
  let p ← toSg
  match mapSg p with
  | none => .error (-efault)
  | some (n, dmaAddr) =>
    -- RKNPU_MEM_KERNEL_MAPPING
    if flags.testBit 3 && !vmap then .error (-enomem)
    else .ok ⟨flags, size, domain, dmaAddr, p, n, n.2.1, n.2.2⟩

theorem gemGetPages_builds (o : GemObject) : ∃ mapSg,
    gemGetPages o.flags o.size o.iommuDomainId (.ok ()) (.ok o.pages) mapSg true = .ok o := by
  classical
  refine ⟨fun p => if h : p = o.pages then
    some (⟨o.nents, o.nents_pos, h ▸ o.nents_le⟩, o.dmaAddr) else none, ?_⟩
  simp [gemGetPages, bind, Except.bind]

inductive SyncDir where
  | toDevice
  | fromDevice
deriving DecidableEq

/-- A call of `dma_sync_single_range_for_device` or `dma_sync_single_range_for_cpu`. -/
structure SyncRange where
  dir : SyncDir
  phys : Nat
  offset : Nat
  size : Nat

/-- `struct rknpu_mem_sync`, without the address of its object. -/
structure MemSync where
  flags : Nat
  offset : Nat
  size : Nat

/-- The bits `RKNPU_MEM_SYNC_TO_DEVICE` and `RKNPU_MEM_SYNC_FROM_DEVICE`. -/
def MemSync.requests (a : MemSync) : SyncDir → Bool
  | .toDevice => a.flags.testBit 0
  | .fromDevice => a.flags.testBit 1

def syncRange (a : MemSync) (phys offset size : Nat) : List SyncRange :=
  (if a.requests .toDevice then [⟨.toDevice, phys, offset, size⟩] else []) ++
    if a.requests .fromDevice then [⟨.fromDevice, phys, offset, size⟩] else []

/-- The `for_each_sg` loop of `rknpu_gem_sync_ioctl`. -/
def syncSegments (a : MemSync) : List Segment → Nat → Nat → Nat → List SyncRange
  | [], _, _, _ => []
  | sg :: sgl, length, offset, len =>
    if length = 0 then []
    else
      let len := len + sg.length
      if len ≤ offset then syncSegments a sgl length offset len
      else
        let left := len - offset
        let size := if length < left then length else left
        syncRange a sg.phys (sg.length - left) size ++
          syncSegments a sgl (length - size) (offset + size) len

/-- `rknpu_gem_sync_ioctl`, where `rknpu_iommu_domain_get_and_switch` returned `domain`;
its result and the cache maintenance it has issued. -/
def gemSyncIoctl (obj : Option GemObject) (domain : Int) (a : MemSync) : Int × List SyncRange :=
  match obj with
  | none => (-einval, [])
  | some o =>
    if !o.cacheable then (-einval, [])
    else if domain ≠ 0 then (-einval, [])
    else if !o.nonContiguous then (0, syncRange a o.dmaAddr a.offset a.size)
    else (0, syncSegments a (o.pages.sgl.take o.nents) a.size a.offset 0)

/-- The bytes that are maintained in one direction. -/
def maintained (d : SyncDir) (l : List SyncRange) : List Nat :=
  (l.filter (·.dir = d)).flatMap fun r => (List.range r.size).map (r.phys + r.offset + ·)

/-- The maintenance is that of the bytes of `[offset, offset + size)` and of no other. -/
def Covers (o : GemObject) (offset size : Nat) (l : List Nat) : Prop :=
  ∀ x, x ∈ l ↔ ∃ b, offset ≤ b ∧ b < offset + size ∧ o.bytes[b]? = some x

variable {a : MemSync} {d : SyncDir} {o : GemObject}

@[simp] theorem length_bytes (s : Segment) : s.bytes.length = s.length := by simp [Segment.bytes]

theorem length_bytesOf (sgl : List Segment) :
    (bytesOf sgl).length = (sgl.map Segment.length).sum := by
  simp [bytesOf, List.length_flatMap]

theorem maintained_append (l l' : List SyncRange) :
    maintained d (l ++ l') = maintained d l ++ maintained d l' := by
  simp [maintained]

theorem maintained_syncRange (hd : a.requests d) (s : Segment) {n m : Nat} (h : n + m ≤ s.length) :
    maintained d (syncRange a s.phys n m) = (s.bytes.drop n).take m := by
  have hr : maintained d (syncRange a s.phys n m) = (List.range m).map (s.phys + n + ·) := by
    cases d <;> simp only [syncRange, hd, if_true] <;> split <;> simp [maintained]
  rw [hr]
  refine List.ext_getElem (by simp; omega) fun i h₁ h₂ => ?_
  simp [Segment.bytes]
  omega

theorem syncSegments_zero (sgl : List Segment) (offset len : Nat) :
    syncSegments a sgl 0 offset len = [] := by
  cases sgl <;> simp [syncSegments]

/-- The loop maintains the bytes of its segments from the offset on, where `len` bytes have
been passed already. -/
theorem maintained_syncSegments (hd : a.requests d) (sgl : List Segment) {length offset len : Nat}
    (h : len ≤ offset) : maintained d (syncSegments a sgl length offset len) =
      ((bytesOf sgl).drop (offset - len)).take length := by
  induction sgl generalizing length offset len with
  | nil => simp [syncSegments, bytesOf, maintained]
  | cons sg sgl ih =>
    have hb : bytesOf (sg :: sgl) = sg.bytes ++ bytesOf sgl := rfl
    rw [hb, List.drop_append, length_bytes]
    by_cases hlength : length = 0
    · simp [hlength, syncSegments, maintained]
    simp only [syncSegments, if_neg hlength]
    by_cases hlen : len + sg.length ≤ offset
    · have hpast : offset - len - sg.length = offset - (len + sg.length) := by omega
      rw [if_pos hlen, ih hlen,
        List.drop_eq_nil_of_le (by simp; omega : sg.bytes.length ≤ offset - len),
        List.nil_append, hpast]
    rw [if_neg hlen, maintained_append]
    have hoff : sg.length - (len + sg.length - offset) = offset - len := by omega
    have hrest : offset - len - sg.length = 0 := by omega
    rw [hoff, hrest, List.drop_zero]
    by_cases hlast : length < len + sg.length - offset
    · rw [if_pos hlast, Nat.sub_self, syncSegments_zero,
        maintained_syncRange hd sg (by omega), List.take_append_of_le_length (by simp; omega)]
      simp [maintained]
    · rw [if_neg hlast, maintained_syncRange hd sg (by omega), ih (by omega), List.take_append]
      have hlen' : (sg.bytes.drop (offset - len)).length = len + sg.length - offset := by
        simp
        omega
      have hz : offset + (len + sg.length - offset) - (len + sg.length) = 0 := by omega
      rw [hlen', hz, List.drop_zero, List.take_of_length_le (by rw [hlen']),
        List.take_of_length_le (l := sg.bytes.drop (offset - len)) (by rw [hlen']; omega)]

/-- The maintenance of one ioctl is a stretch of the bytes of the first `nents` segments. -/
theorem maintained_gemSyncIoctl (hn : o.nonContiguous) (hc : o.cacheable) (hd : a.requests d) :
    maintained d (gemSyncIoctl (some o) 0 a).2 =
      ((o.bytes.take o.reach).drop a.offset).take a.size := by
  have htake : bytesOf (o.pages.sgl.take o.nents) = o.bytes.take o.reach := by
    have happ : o.bytes = bytesOf (o.pages.sgl.take o.nents) ++ bytesOf (o.pages.sgl.drop o.nents) := by
      rw [bytesOf, bytesOf, ← List.flatMap_append, List.take_append_drop]
      rfl
    rw [happ, GemObject.reach, ← length_bytesOf, List.take_left]
  simp only [gemSyncIoctl, hc, hn, Bool.not_true, Bool.false_eq_true, if_false, ne_eq,
    not_true_eq_false]
  rw [maintained_syncSegments hd _ (Nat.zero_le _), htake, Nat.sub_zero]

theorem maintained_failed {domain : Int} (h : domain ≠ 0) :
    maintained d (gemSyncIoctl (some o) domain a).2 = [] := by
  simp only [gemSyncIoctl, if_pos h]
  split <;> simp [maintained]

/-- A requested direction is maintained for exactly the range if and only if the device's
domain could be selected and the range ends within the first `nents` CPU segments. -/
theorem gemSync_covers_iff (o : GemObject) (a : MemSync) (d : SyncDir) (domain : Int)
    (hn : o.nonContiguous) (hc : o.cacheable) (hd : a.requests d) (hsize : a.offset + a.size ≤ o.size) :
    Covers o a.offset a.size (maintained d (gemSyncIoctl (some o) domain a).2) ↔
      a.size = 0 ∨ domain = 0 ∧ a.offset + a.size ≤ o.reach := by
  have hlen : o.bytes.length = o.size := (length_bytesOf _).trans o.pages.total
  constructor
  · intro h
    by_contra hno
    push Not at hno
    obtain ⟨hpos, hno⟩ := hno
    -- a byte of the range that the loop cannot come to
    obtain ⟨b, hb, hb', hb''⟩ :
        ∃ b, a.offset ≤ b ∧ b < a.offset + a.size ∧ (domain = 0 → o.reach ≤ b) := by
      refine ⟨a.offset + a.size - 1, by omega, by omega, fun h => ?_⟩
      have := hno h
      omega
    have hbl : b < o.bytes.length := by omega
    have hx := (h o.bytes[b]).mpr ⟨b, hb, hb', List.getElem?_eq_getElem hbl⟩
    by_cases hz : domain = 0
    · subst hz
      rw [maintained_gemSyncIoctl hn hc hd] at hx
      obtain ⟨i, hi, he⟩ := List.mem_iff_getElem.mp (List.mem_of_mem_drop (List.mem_of_mem_take hx))
      rw [List.getElem_take] at he
      rw [List.length_take] at hi
      have hil : i < o.bytes.length := by omega
      have hib := (o.pages.nodup.getElem_inj_iff (i := i) (j := b)).mp he
      have := hb'' rfl
      omega
    · rw [maintained_failed hz] at hx
      cases hx
  · rintro (hz | ⟨rfl, hreach⟩) x
    · have hnil : maintained d (gemSyncIoctl (some o) domain a).2 = [] := by
        by_cases hz' : domain = 0
        · rw [hz', maintained_gemSyncIoctl hn hc hd, hz, List.take_zero]
        · exact maintained_failed hz'
      rw [hnil]
      constructor
      · intro hx
        cases hx
      · rintro ⟨b, hb, hb', -⟩
        omega
    · rw [maintained_gemSyncIoctl hn hc hd, List.mem_iff_getElem?]
      constructor
      · rintro ⟨i, hi⟩
        rw [List.getElem?_take] at hi
        split at hi
        · rw [List.getElem?_drop, List.getElem?_take] at hi
          split at hi
          · exact ⟨a.offset + i, by omega, by omega, hi⟩
          · cases hi
        · cases hi
      · rintro ⟨b, hb, hb', hx⟩
        refine ⟨b - a.offset, ?_⟩
        rw [List.getElem?_take, if_pos (by omega), List.getElem?_drop, List.getElem?_take,
          if_pos (by omega), Nat.add_sub_cancel' hb]
        exact hx

/-- Two pages apart that the IOMMU has merged into one segment. -/
def mergedObject : GemObject where
  flags := 0x3
  size := 8192
  iommuDomainId := 0
  dmaAddr := 0
  pages := ⟨[⟨0, 4096⟩, ⟨8192, 4096⟩], rfl, by
    rw [bytesOf, List.nodup_flatMap]
    constructor
    · intro s hs
      exact List.nodup_range.map fun x y h => Nat.add_left_cancel h
    · simp [Function.onFun, List.disjoint_left, Segment.bytes]
      omega⟩
  nents := 1
  nents_pos := le_rfl
  nents_le := by decide

theorem gemSync_covers_first : Covers mergedObject 0 4096
    (maintained .toDevice (gemSyncIoctl (some mergedObject) 0 ⟨0x1, 0, 4096⟩).2) :=
  (gemSync_covers_iff mergedObject ⟨0x1, 0, 4096⟩ .toDevice 0 rfl rfl rfl (by decide)).mpr
    (.inr ⟨rfl, by decide⟩)

/-- The second page of the object is left out. -/
theorem gemSync_misses : ¬∀ (o : GemObject) (a : MemSync) (d : SyncDir), o.nonContiguous →
    o.cacheable → a.requests d → a.offset + a.size ≤ o.size →
    Covers o a.offset a.size (maintained d (gemSyncIoctl (some o) 0 a).2) := by
  intro h
  have hc := h mergedObject ⟨0x1, 4096, 1⟩ .toDevice rfl rfl rfl (by decide)
  have hlen : mergedObject.bytes.length = 8192 := length_bytesOf _
  have hnone : maintained .toDevice (gemSyncIoctl (some mergedObject) 0 ⟨0x1, 4096, 1⟩).2 = [] := by
    rw [maintained_gemSyncIoctl rfl rfl rfl]
    refine List.take_eq_nil_of_eq_nil (List.drop_eq_nil_of_le ?_)
    rw [List.length_take]
    exact Nat.min_le_left _ _
  rw [hnone] at hc
  have hx := (hc (mergedObject.bytes[4096])).mpr ⟨4096, le_rfl, by decide,
    List.getElem?_eq_getElem (by omega)⟩
  cases hx

end Rknpu

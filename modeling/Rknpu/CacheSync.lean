import Rknpu.CacheMap

namespace Rknpu

open AddressMap

/-- The sum of two values of type `unsigned long`. -/
def ulongAdd (a b : Nat) : Nat := (a + b) % 2 ^ 64

def ulongSub (a b : Nat) : Nat := (a + 2 ^ 64 - b) % 2 ^ 64

structure Build where
  noGki : Bool
  sram : Bool

structure IoDevice extends CacheDevice where
  sramBaseIo : Nat
  nbufBaseIo : Nat

def IoDevice.io (dev : IoDevice) : CacheDevice :=
  { dev.toCacheDevice with sramStart := dev.sramBaseIo, nbufStart := dev.nbufBaseIo }

def Segment.Apart (s s' : Segment) : Prop :=
  s.phys + s.length < s'.phys ∨ s'.phys + s'.length < s.phys

/-- An object that the driver has built, with its pages in `sgl`. It has a part in one of the
two cache memories at most, and none of its memory is behind the last address. -/
structure SyncObject (B : Build) (dev : IoDevice) extends CachedObject where
  iommuDomainId : Int
  sgl : List Segment
  nents : Nat
  one_cache : sramSize = 0 ∨ nbufSize = 0
  sram_built : 0 < sramSize → B.sram
  nbuf_built : 0 < nbufSize → B.noGki
  dma_le : dmaAddr + (sramSize + nbufSize + size) ≤ 2 ^ 64
  cache_le : ∀ t, 2 * toCachedObject.cacheSize t ≤ 2 ^ 64
  sgl_le : ∀ s ∈ sgl, s.phys + s.length ≤ 2 ^ 64
  total_lt : (sgl.map Segment.length).sum < 2 ^ 64
  io_lt : ∀ t, ∀ s ∈ dev.io.cacheBlocks toCachedObject t, s.phys < 2 ^ 64 ∧ s.length < 2 ^ 64
  apart : (dev.io.cacheSegments toCachedObject).Pairwise Segment.Apart

/-- The table of a device with two cores has no block next to another. -/
example (o : CachedObject) : (twoCoreCache.cacheSegments o).Pairwise Segment.Apart := by
  rw [CacheDevice.cacheSegments]
  split_ifs <;> simp [twoCoreCache, Segment.Apart]

/-- What a range of addresses is a range of. -/
inductive Space where
  | dma
  | phys
  | cacheIo
deriving DecidableEq

/-- The loop of `rknpu_cache_sync_with_sg`; its maintenance, and what is left of the length and
the offset. -/
def cacheSyncWithSg (a : MemSync) : List Segment → Nat → Nat → List SyncRange × Nat × Nat
  | [], length, offset => ([], length, offset)
  | s :: sgl, length, offset =>
    let cacheLength := if ulongAdd offset length ≤ s.length then length else ulongSub s.length offset
    let left := if ulongAdd offset length ≤ s.length then 0 else ulongSub length cacheLength
    let r := syncRange a s.phys 0 cacheLength
    if left = 0 then (r, left, 0)
    else
      let n := cacheSyncWithSg a sgl left 0
      (r ++ n.1, n.2)

/-- `rknpu_cache_sync` for any object and any table, where `dev` has the addresses that the CPU
has for the cache memory. -/
def CacheDevice.cacheSync (dev : CacheDevice) (o : CachedObject) (a : MemSync) (t : CacheType)
    (length offset : Nat) : List SyncRange × Nat × Nat :=
  let cacheSize := o.cacheSize t
  if cacheSize ≤ offset then ([], length, ulongSub offset cacheSize)
  else if !o.cacheWithSgt then
    let cacheLength :=
      if ulongAdd offset length ≤ cacheSize then length else ulongSub cacheSize offset
    (syncRange a (dev.cacheStart t + dev.cacheOffset o t) 0 cacheLength,
      if ulongAdd offset length ≤ cacheSize then 0 else ulongSub length cacheLength, 0)
  else cacheSyncWithSg a (dev.cacheSegments o) length offset

section CacheSync

variable {dev : CacheDevice} {o : CachedObject} {a : MemSync} {t : CacheType} {length offset : Nat}

theorem CacheDevice.cacheSync_outside (h : o.cacheSize t ≤ offset) :
    dev.cacheSync o a t length offset = ([], length, ulongSub offset (o.cacheSize t)) := if_pos h

theorem CacheDevice.cacheSync_walk (h : offset < o.cacheSize t) :
    dev.cacheSync o a t length offset = cacheSyncWithSg a (dev.cacheBlocks o t) length offset := by
  rw [cacheSync, if_neg (by omega), cacheBlocks]
  split
  · simp only [cacheSyncWithSg, List.append_nil, ite_self]
  · rfl

end CacheSync

/-- The `for_each_sg` loop of `rknpu_gem_sync_ioctl`. -/
def syncPages (a : MemSync) : List Segment → Nat → Nat → Nat → List SyncRange
  | [], _, _, _ => []
  | sg :: sgl, length, offset, len =>
    if length = 0 then []
    else
      let len := ulongAdd len sg.length
      if len ≤ offset then syncPages a sgl length offset len
      else
        let left := ulongSub len offset
        let size := if length < left then length else left
        syncRange a sg.phys (ulongSub sg.length left) size ++
          syncPages a sgl (ulongSub length size) (ulongAdd offset size) len

namespace SyncObject

variable {B : Build} {dev : IoDevice} (o : SyncObject B dev)

def nonContiguous : Bool := o.flags.testBit 0

def cacheable : Bool := o.flags.testBit 1

def Memory : Space → Nat → Prop
  | .dma, x => o.dmaAddr ≤ x ∧ x < o.dmaAddr + (o.sramSize + o.nbufSize + o.size)
  | .phys, x => x ∈ bytesOf o.sgl
  | .cacheIo, x => ∃ t, x ∈ (dev.io.cacheBytes o.toCachedObject t).take (o.cacheSize t)

/-- A range that is maintained has no other memory in it. -/
def Inside (r : Space × SyncRange) : Prop :=
  ∀ i < r.2.size, o.Memory r.1 (ulongAdd r.2.phys r.2.offset + i)

/-- `rknpu_cache_sync` at the addresses that the CPU has. -/
def cacheSync (a : MemSync) (t : CacheType) (length offset : Nat) : List SyncRange × Nat × Nat :=
  dev.io.cacheSync o.toCachedObject a t length offset

/-- The cache that `rknpu_gem_sync_ioctl` calls it with. -/
def syncCacheType : Option CacheType :=
  if B.noGki && B.sram && decide (0 < o.sramSize) then some .sram
  else if B.noGki && decide (0 < o.nbufSize) then some .nbuf
  else none

/-- `rknpu_gem_sync_ioctl`, where `rknpu_iommu_domain_get_and_switch` returned `domain`. -/
def gemSyncIoctl (obj : Option (SyncObject B dev)) (domain : Int) (a : MemSync) :
    Int × List (Space × SyncRange) :=
  match obj with
  | none => (-einval, [])
  | some o =>
    if !o.cacheable then (-einval, [])
    else if domain ≠ 0 then (-einval, [])
    else if !o.nonContiguous then (0, (syncRange a o.dmaAddr a.offset a.size).map (.dma, ·))
    else
      let c := match o.syncCacheType with
        | some t => o.cacheSync a t a.size a.offset
        | none => ([], a.size, a.offset)
      (0, c.1.map (.cacheIo, ·) ++
        (syncPages a (o.sgl.take o.nents) c.2.1 c.2.2 0).map (.phys, ·))

/-- A range of `size` bytes at `offset` where the first block has `first` bytes, the others
have `rest`, and only the first `n` bytes of them all are memory of the object. -/
def CacheFits (first rest n offset size : Nat) : Prop :=
  offset ≤ first ∧
    if ulongAdd offset size ≤ first then size ≤ min first n
    else first - offset ≤ n ∧ min (size - (first - offset)) rest ≤ n - first

def SyncFits (a : MemSync) : Prop :=
  if o.nonContiguous then
    ∀ t s sgl, o.syncCacheType = some t → a.offset < o.cacheSize t →
      dev.io.cacheBlocks o.toCachedObject t = s :: sgl →
      CacheFits s.length (sgl.map Segment.length).sum (o.cacheSize t) a.offset a.size
  else a.size = 0 ∨ a.offset + a.size ≤ o.sramSize + o.nbufSize + o.size

end SyncObject

section Blocks

variable {a : MemSync} {d : SyncDir} {s : Segment} {sgl pre post : List Segment}
  {n length offset len : Nat}

theorem ulongSub_lt (x y : Nat) : ulongSub x y < 2 ^ 64 := Nat.mod_lt _ (by decide)

theorem ulongAdd_eq {x y : Nat} (h : x + y < 2 ^ 64) : ulongAdd x y = x + y := Nat.mod_eq_of_lt h

theorem ulongSub_eq {x y : Nat} (h : y ≤ x) (hx : x < 2 ^ 64) : ulongSub x y = x - y := by
  rw [ulongSub, show x + 2 ^ 64 - y = x - y + 2 ^ 64 by omega, Nat.add_mod_right]
  exact Nat.mod_eq_of_lt (by omega)

theorem mem_bytesOf {x : Nat} :
    x ∈ bytesOf sgl ↔ ∃ s ∈ sgl, s.phys ≤ x ∧ x < s.phys + s.length := by
  rw [bytesOf, List.mem_flatMap]
  exact exists_congr fun s => and_congr_right fun _ => mem_run

theorem forall_mem_syncRange (hd : a.requests d) (Q : Nat → Nat → Nat → Prop) (p o n : Nat) :
    (∀ r ∈ syncRange a p o n, Q r.phys r.offset r.size) ↔ Q p o n := by
  constructor
  · intro h
    refine h ⟨d, p, o, n⟩ ?_
    cases d <;> simp [syncRange, hd]
  · intro h r hr
    have hr' : r.phys = p ∧ r.offset = o ∧ r.size = n := by
      rw [syncRange, List.mem_append] at hr
      rcases hr with hr | hr <;> split at hr <;> simp_all
    rwa [hr'.1, hr'.2.1, hr'.2.2]

theorem syncRange_silent (hd : ∀ d, a.requests d = false) (p o n : Nat) : syncRange a p o n = [] := by
  simp [syncRange, hd]

theorem cacheSyncWithSg_silent (hd : ∀ d, a.requests d = false) (sgl : List Segment)
    (length offset : Nat) : (cacheSyncWithSg a sgl length offset).1 = [] := by
  induction sgl generalizing length offset with
  | nil => rfl
  | cons s sgl ih =>
    simp only [cacheSyncWithSg, syncRange_silent hd, List.nil_append, apply_ite Prod.fst, ih, ite_self]

def Within (sgl : List Segment) (n : Nat) (phys offset size : Nat) : Prop :=
  ∀ i < size, ulongAdd phys offset + i ∈ (bytesOf sgl).take n

theorem within_block (hapart : (pre ++ s :: post).Pairwise Segment.Apart) (hs : s.phys < 2 ^ 64)
    (n size : Nat) : Within (pre ++ s :: post) n s.phys 0 size ↔
      size ≤ min s.length (n - (pre.map Segment.length).sum) := by
  have hstart : ulongAdd s.phys 0 = s.phys := ulongAdd_eq hs
  have happ : bytesOf (pre ++ s :: post) = bytesOf pre ++ (s.bytes ++ bytesOf post) := by
    simp [bytesOf]
  have hrun : s.bytes.take (n - (pre.map Segment.length).sum) =
      run s.phys (min (n - (pre.map Segment.length).sum) s.length) := take_run ..
  rw [Within, hstart, happ]
  simp only [List.take_append, List.mem_append, length_bytesOf, hrun]
  obtain ⟨-, hpost, hpre⟩ := List.pairwise_append.mp hapart
  constructor
  · intro h
    by_contra hlt
    -- the byte after the part of the block that may be used
    rcases h _ (Nat.not_le.mp hlt) with hx | hx | hx
    · obtain ⟨s', hs', hle, hlt'⟩ := mem_bytesOf.mp (List.mem_of_mem_take hx)
      have hap := hpre s' hs' s List.mem_cons_self
      rcases hap with hap | hap <;> omega
    · have := mem_run.mp hx
      omega
    · obtain ⟨s', hs', hle, hlt'⟩ := mem_bytesOf.mp (List.mem_of_mem_take hx)
      have hap := (List.pairwise_cons.mp hpost).1 s' hs'
      rcases hap with hap | hap <;> omega
  · intro h i hi
    exact .inr (.inl (mem_run.mpr ⟨by omega, by omega⟩))

theorem within_rest (hd : a.requests d) (hapart : (pre ++ sgl).Pairwise Segment.Apart)
    (hs : ∀ s ∈ sgl, s.phys < 2 ^ 64) (hlength : length < 2 ^ 64) :
    (∀ r ∈ (cacheSyncWithSg a sgl length 0).1, Within (pre ++ sgl) n r.phys r.offset r.size) ↔
      min length (sgl.map Segment.length).sum ≤ n - (pre.map Segment.length).sum := by
  induction sgl generalizing pre length with
  | nil => simp [cacheSyncWithSg]
  | cons s sgl ih =>
    have hadd : ulongAdd 0 length = length := by
      rw [ulongAdd_eq (by omega), Nat.zero_add]
    have hone := fun size => within_block hapart (hs s List.mem_cons_self) n size
    simp only [cacheSyncWithSg, hadd, List.map_cons, List.sum_cons]
    by_cases hfits : length ≤ s.length
    · rw [if_pos hfits, if_pos hfits, if_pos rfl, forall_mem_syncRange hd, hone]
      omega
    · have hblock : ulongSub s.length 0 = s.length := ulongSub_eq (by omega) (by omega)
      have hleft : ulongSub length s.length = length - s.length := ulongSub_eq (by omega) hlength
      have hshift : pre ++ s :: sgl = (pre ++ [s]) ++ sgl := by simp
      have hrest := @ih (pre ++ [s]) (length - s.length) (hshift ▸ hapart)
        (fun s' hs' => hs s' (List.mem_cons_of_mem _ hs')) (by omega)
      rw [← hshift] at hrest
      rw [if_neg hfits, if_neg hfits, hblock, hleft, if_neg (by omega)]
      simp only [List.forall_mem_append, forall_mem_syncRange hd, hone, hrest, List.map_append,
        List.sum_append, List.map_cons, List.map_nil, List.sum_cons, List.sum_nil]
      omega

theorem within_cacheSyncWithSg (hd : a.requests d) (hapart : (s :: sgl).Pairwise Segment.Apart)
    (hs : ∀ s' ∈ s :: sgl, s'.phys < 2 ^ 64 ∧ s'.length < 2 ^ 64) (hn : 2 * n ≤ 2 ^ 64)
    (hoffset : offset < n) (hlength : length < 2 ^ 64) :
    (∀ r ∈ (cacheSyncWithSg a (s :: sgl) length offset).1,
        Within (s :: sgl) n r.phys r.offset r.size) ↔
      SyncObject.CacheFits s.length (sgl.map Segment.length).sum n offset length := by
  obtain ⟨hphys, hl⟩ := hs s List.mem_cons_self
  have hnil : ([] ++ s :: sgl).Pairwise Segment.Apart := hapart
  have hone := fun size => within_block hnil hphys n size
  simp only [List.nil_append, List.map_nil, List.sum_nil, Nat.sub_zero] at hone
  simp only [cacheSyncWithSg, SyncObject.CacheFits]
  by_cases hfits : ulongAdd offset length ≤ s.length
  · rw [if_pos hfits, if_pos hfits, if_pos rfl, if_pos hfits, forall_mem_syncRange hd, hone]
    refine ⟨fun h => ⟨?_, h⟩, And.right⟩
    have : ulongAdd offset length = offset + length := ulongAdd_eq (by omega)
    omega
  rw [if_neg hfits, if_neg hfits, if_neg hfits]
  by_cases hfirst : offset ≤ s.length
  · have hblock : ulongSub s.length offset = s.length - offset := ulongSub_eq hfirst hl
    have hmore : s.length - offset < length := by
      rw [ulongAdd] at hfits
      omega
    have hleft : ulongSub length (s.length - offset) = length - (s.length - offset) :=
      ulongSub_eq hmore.le hlength
    have hrest : (∀ r ∈ (cacheSyncWithSg a sgl (length - (s.length - offset)) 0).1,
        Within (s :: sgl) n r.phys r.offset r.size) ↔
          min (length - (s.length - offset)) (sgl.map Segment.length).sum ≤ n - s.length :=
      @within_rest a d sgl [s] n _ hd hapart
        (fun s' hs' => (hs s' (List.mem_cons_of_mem _ hs')).1) (by omega)
    rw [hblock, hleft, if_neg (by omega)]
    simp only [List.forall_mem_append, forall_mem_syncRange hd, hone, hrest]
    omega
  · -- the difference is negative, so the block is taken to be almost all of the memory
    have hblock : n < ulongSub s.length offset := by
      rw [ulongSub]
      omega
    refine ⟨fun h => ?_, fun h => absurd h.1 hfirst⟩
    have hr : ∀ r ∈ syncRange a s.phys 0 (ulongSub s.length offset),
        Within (s :: sgl) n r.phys r.offset r.size := by
      intro r hr
      refine h r ?_
      split
      · exact hr
      · exact List.mem_append_left _ hr
    rw [forall_mem_syncRange hd, hone] at hr
    omega

theorem cacheSyncWithSg_lt (hlength : length < 2 ^ 64) (hoffset : offset < 2 ^ 64) :
    (cacheSyncWithSg a sgl length offset).2.1 < 2 ^ 64 ∧
      (cacheSyncWithSg a sgl length offset).2.2 < 2 ^ 64 := by
  induction sgl generalizing length offset with
  | nil => exact ⟨hlength, hoffset⟩
  | cons s sgl ih =>
    simp only [cacheSyncWithSg]
    by_cases hfits : ulongAdd offset length ≤ s.length
    · simp only [if_pos hfits, if_true]
      decide
    · simp only [if_neg hfits]
      split
      · exact ⟨ulongSub_lt .., Nat.two_pow_pos 64⟩
      · exact ih (ulongSub_lt ..) (by decide)

theorem syncPages_eq (hpassed : len ≤ offset) (hoffset : offset < 2 ^ 64)
    (hlength : length < 2 ^ 64) (htotal : len + (sgl.map Segment.length).sum < 2 ^ 64) :
    syncPages a sgl length offset len = syncSegments a sgl length offset len := by
  induction sgl generalizing length offset len with
  | nil => rfl
  | cons sg sgl ih =>
    rw [List.map_cons, List.sum_cons] at htotal
    have hlen : ulongAdd len sg.length = len + sg.length := ulongAdd_eq (by omega)
    simp only [syncPages, syncSegments, hlen]
    by_cases hz : length = 0
    · rw [if_pos hz, if_pos hz]
    rw [if_neg hz, if_neg hz]
    by_cases hnext : len + sg.length ≤ offset
    · rw [if_pos hnext, if_pos hnext, ih hnext hoffset hlength (by omega)]
    have hleft : ulongSub (len + sg.length) offset = len + sg.length - offset :=
      ulongSub_eq (by omega) (by omega)
    have hoff : ulongSub sg.length (len + sg.length - offset) =
        sg.length - (len + sg.length - offset) :=
      ulongSub_eq (by omega) (by omega)
    rw [if_neg hnext, if_neg hnext, hleft, hoff]
    by_cases hlast : length < len + sg.length - offset
    · have hsub : ulongSub length length = 0 := by
        rw [ulongSub_eq le_rfl hlength, Nat.sub_self]
      have hzero : ∀ o, syncPages a sgl 0 o (len + sg.length) = [] := by
        intro o
        cases sgl <;> simp [syncPages]
      rw [if_pos hlast, hsub, hzero, Nat.sub_self, syncSegments_zero]
    · rw [if_neg hlast, ulongSub_eq (by omega) hlength, ulongAdd_eq (by omega),
        ih (by omega) (by omega) (by omega) (by omega)]

theorem syncSegments_inside (hpassed : len ≤ offset) {r : SyncRange}
    (hr : r ∈ syncSegments a sgl length offset len) :
    ∃ s ∈ sgl, r.phys = s.phys ∧ r.offset + r.size ≤ s.length := by
  induction sgl generalizing length offset len with
  | nil => cases hr
  | cons sg sgl ih =>
    have hlater : ∀ {length offset len}, len ≤ offset → r ∈ syncSegments a sgl length offset len →
        ∃ s ∈ sg :: sgl, r.phys = s.phys ∧ r.offset + r.size ≤ s.length := by
      intro length offset len hle hr
      obtain ⟨s, hs, h⟩ := ih hle hr
      exact ⟨s, List.mem_cons_of_mem _ hs, h⟩
    simp only [syncSegments] at hr
    split at hr
    · cases hr
    split at hr
    · exact hlater ‹_› hr
    rename_i hnext
    rcases List.mem_append.mp hr with hr | hr
    · refine ⟨sg, List.mem_cons_self, ?_⟩
      have hin : r.phys = sg.phys ∧ r.offset = sg.length - (len + sg.length - offset) ∧
          r.size = if length < len + sg.length - offset then length else len + sg.length - offset := by
        rw [syncRange, List.mem_append] at hr
        rcases hr with hr | hr <;> split at hr <;> simp_all
      obtain ⟨hphys, hoff, hsize⟩ := hin
      refine ⟨hphys, ?_⟩
      split at hsize <;> omega
    · by_cases hlast : length < len + sg.length - offset
      · rw [if_pos hlast, Nat.sub_self, syncSegments_zero] at hr
        cases hr
      · rw [if_neg hlast] at hr
        exact hlater (by omega) hr

end Blocks

namespace SyncObject

variable {B : Build} {dev : IoDevice} {o : SyncObject B dev} {a : MemSync} {d : SyncDir}
  {t : CacheType} {length offset : Nat}

theorem memory_cacheIo (h : 0 < o.cacheSize t) {x : Nat} : o.Memory .cacheIo x ↔
    x ∈ (dev.io.cacheBytes o.toCachedObject t).take (o.cacheSize t) := by
  refine ⟨fun ⟨t', hx⟩ => ?_, fun hx => ⟨t, hx⟩⟩
  have hpos : 0 < o.cacheSize t' := by
    by_contra hz
    rw [Nat.eq_zero_of_not_pos hz, List.take_zero] at hx
    cases hx
  have hone := o.one_cache
  cases t <;> cases t' <;> simp only [CachedObject.cacheSize] at h hpos <;> first | exact hx | omega

theorem cacheSync_eq (h : offset < o.cacheSize t) : (o.cacheSync a t length offset).1 =
    (cacheSyncWithSg a (dev.io.cacheBlocks o.toCachedObject t) length offset).1 := by
  rw [cacheSync, CacheDevice.cacheSync_walk h]

theorem cacheSync_lt (hlength : length < 2 ^ 64) (hoffset : offset < 2 ^ 64) :
    (o.cacheSync a t length offset).2.1 < 2 ^ 64 ∧ (o.cacheSync a t length offset).2.2 < 2 ^ 64 := by
  rw [cacheSync, CacheDevice.cacheSync]
  split
  · exact ⟨hlength, ulongSub_lt ..⟩
  split
  · dsimp only
    refine ⟨?_, by decide⟩
    split
    · decide
    · exact ulongSub_lt ..
  · exact cacheSyncWithSg_lt hlength hoffset

/-- The part in the cache that a synchronization uses is the one that the object has. -/
theorem cacheSize_pos (h : o.syncCacheType = some t) : 0 < o.cacheSize t := by
  rw [syncCacheType] at h
  split at h
  · cases h
    simp_all [CachedObject.cacheSize]
  split at h
  · cases h
    simp_all [CachedObject.cacheSize]
  · cases h

theorem apart_cacheBlocks : (dev.io.cacheBlocks o.toCachedObject t).Pairwise Segment.Apart := by
  rw [CacheDevice.cacheBlocks]
  split
  · exact List.pairwise_singleton ..
  · exact o.apart

/-- Maintenance of the pages is always inside. -/
theorem inside_pages (hlength : length < 2 ^ 64) (hoffset : offset < 2 ^ 64) {r : SyncRange}
    (hr : r ∈ syncPages a (o.sgl.take o.nents) length offset 0) : o.Inside (.phys, r) := by
  have htotal : ((o.sgl.take o.nents).map Segment.length).sum < 2 ^ 64 := by
    refine lt_of_le_of_lt ?_ o.total_lt
    exact ((List.take_sublist ..).map _).sum_le_sum (fun _ _ => Nat.zero_le _)
  rw [syncPages_eq (Nat.zero_le _) hoffset hlength (by omega)] at hr
  obtain ⟨s, hs, hphys, hle⟩ := syncSegments_inside (Nat.zero_le _) hr
  have hmem := List.mem_of_mem_take hs
  intro i (hi : i < r.size)
  have hend := o.sgl_le s hmem
  have hstart : ulongAdd r.phys r.offset = s.phys + r.offset := by
    rw [hphys]
    exact ulongAdd_eq (by omega)
  show ulongAdd r.phys r.offset + i ∈ bytesOf o.sgl
  rw [hstart]
  exact mem_bytesOf.mpr ⟨s, hmem, by omega, by omega⟩

theorem inside_cache (hd : a.requests d) (hlength : length < 2 ^ 64) (h : o.syncCacheType = some t) :
    (∀ r ∈ (o.cacheSync a t length offset).1, o.Inside (.cacheIo, r)) ↔
      ∀ s sgl, offset < o.cacheSize t → dev.io.cacheBlocks o.toCachedObject t = s :: sgl →
        CacheFits s.length (sgl.map Segment.length).sum (o.cacheSize t) offset length := by
  by_cases hin : offset < o.cacheSize t
  · have hwithin : ∀ r : SyncRange, o.Inside (.cacheIo, r) ↔
        Within (dev.io.cacheBlocks o.toCachedObject t) (o.cacheSize t) r.phys r.offset r.size :=
      fun r => forall_congr' fun i => forall_congr' fun _ => memory_cacheIo (cacheSize_pos h)
    have hapart := o.apart_cacheBlocks (t := t)
    have hlt := o.io_lt t
    rw [cacheSync_eq hin]
    simp only [hwithin, hin, true_imp_iff]
    cases hb : dev.io.cacheBlocks o.toCachedObject t with
    | nil => simp [cacheSyncWithSg]
    | cons s sgl =>
      rw [hb] at hapart hlt
      rw [within_cacheSyncWithSg hd hapart hlt (o.cache_le t) hin hlength]
      constructor
      · intro hfits s' sgl' he
        cases he
        exact hfits
      · intro hfits
        exact hfits s sgl rfl
  · have hnone : (o.cacheSync a t length offset).1 = [] := by
      rw [cacheSync, CacheDevice.cacheSync_outside (by omega)]
    simp [hnone, hin]

theorem inside_contiguous (hd : a.requests d) (hoffset : a.offset < 2 ^ 64) (hsize : a.size < 2 ^ 64) :
    (∀ r ∈ syncRange a o.dmaAddr a.offset a.size, o.Inside (.dma, r)) ↔
      a.size = 0 ∨ a.offset + a.size ≤ o.sramSize + o.nbufSize + o.size := by
  have hend := o.dma_le
  refine (forall_mem_syncRange hd (fun p q n => ∀ i < n, o.Memory .dma (ulongAdd p q + i))
    _ _ _).trans ?_
  simp only [Memory]
  constructor
  · intro h
    by_contra hno
    have hfirst := h 0 (by omega)
    have hlast := h (a.size - 1) (by omega)
    rw [ulongAdd] at hfirst hlast
    omega
  · rintro (hz | hle) i hi
    · omega
    · rw [ulongAdd_eq (by omega)]
      omega

theorem cacheSync_silent (hd : ∀ d, a.requests d = false) : (o.cacheSync a t length offset).1 = [] := by
  by_cases h : offset < o.cacheSize t
  · rw [cacheSync_eq h, cacheSyncWithSg_silent hd]
  · rw [cacheSync, CacheDevice.cacheSync_outside (by omega)]

/-- Everything that is maintained is memory of the object if and only if nothing is maintained
or the arguments fit. -/
theorem sync_inside_iff (o : SyncObject B dev) (domain : Int) (a : MemSync)
    (hoffset : a.offset < 2 ^ 64) (hsize : a.size < 2 ^ 64) :
    (∀ r ∈ (gemSyncIoctl (some o) domain a).2, o.Inside r) ↔
      (o.cacheable → domain = 0 → (∃ d, a.requests d) → o.SyncFits a) := by
  by_cases hc : o.cacheable
  swap
  · simp [gemSyncIoctl, hc]
  by_cases hz : domain = 0
  swap
  · simp [gemSyncIoctl, hc, hz]
  simp only [hc, hz, true_imp_iff]
  simp only [gemSyncIoctl, hc, Bool.not_true, Bool.false_eq_true, if_false, ne_eq,
    not_true_eq_false]
  by_cases hn : o.nonContiguous
  · have hpages : ∀ {length offset : Nat}, length < 2 ^ 64 → offset < 2 ^ 64 →
        ∀ r ∈ (syncPages a (o.sgl.take o.nents) length offset 0).map (Space.phys, ·), o.Inside r := by
      intro length offset hlength hoffset
      exact List.forall_mem_map.mpr fun r hr => inside_pages hlength hoffset hr
    simp only [SyncFits, hn, Bool.not_true, Bool.false_eq_true, if_false, if_true]
    cases ht : o.syncCacheType with
    | none =>
      simp only [List.map_nil, List.nil_append]
      exact iff_of_true (hpages hsize hoffset) fun _ _ _ _ h => nomatch h
    | some t =>
      have hlt := o.cacheSync_lt (a := a) (t := t) hsize hoffset
      rw [List.forall_mem_append, and_iff_left (hpages hlt.1 hlt.2), List.forall_mem_map]
      by_cases hd : ∃ d, a.requests d
      · obtain ⟨d, hd⟩ := hd
        rw [inside_cache hd hsize ht]
        constructor
        · intro h _ t' s sgl he
          cases he
          exact h s sgl
        · intro h s sgl
          exact h ⟨d, hd⟩ t s sgl rfl
      · have hnone : (o.cacheSync a t a.size a.offset).1 = [] := cacheSync_silent (by simpa using hd)
        simp [hnone, hd]
  · simp only [SyncFits, hn, Bool.not_false, if_true, Bool.false_eq_true, if_false,
      List.forall_mem_map]
    by_cases hd : ∃ d, a.requests d
    · obtain ⟨d, hd⟩ := hd
      rw [inside_contiguous hd hoffset hsize]
      exact ⟨fun h _ => h, fun h => h ⟨d, hd⟩⟩
    · have hnone := syncRange_silent (a := a) (by simpa using hd) o.dmaAddr a.offset a.size
      simp [hnone, hd]

def onePage : SyncObject ⟨true, true⟩ ⟨⟨0, 0, 0, fun _ => []⟩, 0, 0⟩ where
  flags := 0x2
  size := 4096
  sramSize := 0
  nbufSize := 0
  rangeStart := 0
  cacheWithSgt := false
  coreMask := 0
  iovaStart := 0
  iovaSize := 0
  dmaAddr := 0x100000
  pages := []
  iommuDomainId := 0
  sgl := []
  nents := 0
  one_cache := .inl rfl
  sram_built h := absurd h (lt_irrefl 0)
  nbuf_built h := absurd h (lt_irrefl 0)
  dma_le := by decide
  cache_le t := by cases t <;> decide
  sgl_le := by simp
  total_lt := by decide
  io_lt t := by cases t <;> decide
  apart := .nil

theorem sync_inside_first : (gemSyncIoctl (some onePage) 0 ⟨0x1, 0, 4096⟩).2.length = 1 ∧
    ∀ r ∈ (gemSyncIoctl (some onePage) 0 ⟨0x1, 0, 4096⟩).2, onePage.Inside r :=
  ⟨by decide, (sync_inside_iff onePage 0 ⟨0x1, 0, 4096⟩ (by decide) (by decide)).mpr fun _ _ _ =>
    .inr (by decide)⟩

/-- Nothing limits the length to that of the buffer. -/
theorem sync_leaves_buffer : ¬∀ (B : Build) (dev : IoDevice) (o : SyncObject B dev) (domain : Int)
    (a : MemSync), a.offset < 2 ^ 64 → a.size < 2 ^ 64 →
    ∀ r ∈ (gemSyncIoctl (some o) domain a).2, o.Inside r := by
  intro h
  have hr := h _ _ onePage 0 ⟨0x1, 0, 8192⟩ (by decide) (by decide)
    (.dma, ⟨.toDevice, 0x100000, 0, 8192⟩) List.mem_cons_self 4096 (by decide)
  exact absurd hr.2 (by decide)

end SyncObject

end Rknpu

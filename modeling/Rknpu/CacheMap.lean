import Rknpu.AddressMap
import Rknpu.Sync

namespace Rknpu

open AddressMap

/-- `PAGE_SIZE` -/
def pageSize : Nat := 4096

/-- One entry of a table `cache_sgt`, a part of the NBUF. -/
structure CacheEntry where
  offset : Nat
  length : Nat

inductive CacheType where
  | sram
  | nbuf
deriving DecidableEq

/-- The fields of `struct rknpu_device` about its cache memory. -/
structure CacheDevice where
  sramStart : Nat
  chunkSize : Nat
  nbufStart : Nat
  cacheSgt : Fin 2 → List CacheEntry

/-- A `struct rknpu_gem_object` with a part in cache memory; `rangeStart` is that of its
`sram_obj`, and `pages` has the frame numbers. -/
structure CachedObject where
  flags : Nat
  size : Nat
  sramSize : Nat
  nbufSize : Nat
  rangeStart : Nat
  cacheWithSgt : Bool
  coreMask : Nat
  iovaStart : Nat
  iovaSize : Nat
  dmaAddr : Nat
  pages : List Nat

/-- The segments of a list of pages in their order. -/
structure SgTable (pages : List Nat) where
  sgl : List Segment
  bytes_eq : bytesOf sgl = pages.flatMap fun p => run (p * pageSize) pageSize

abbrev Errno := { ret : Int // ret < 0 }

/-- What the kernel answers: whether there is a domain, an address space (0 if there is no
room for it), the results of the mapping functions, the pages and their segments. -/
structure Kernel where
  domain : Bool
  iovaAlign : Nat → Nat
  allocIova : Nat → Bool → Nat
  allocIova_dvd : ∀ n b, pageSize ∣ allocIova n b
  iommuMap : Nat → Nat → Nat → Int
  iommuMap_dvd : ∀ {a p n}, iommuMap a p n = 0 → pageSize ∣ a ∧ pageSize ∣ p ∧ pageSize ∣ n
  getPages : (n : Nat) → Except Errno { l : List Nat // l.length = n }
  toSg : (l : List Nat) → Except Errno (SgTable l)
  remapPfn : Nat → Nat → Nat → Int
  remapPfn_le : ∀ a p n, remapPfn a p n ≤ 0

/-- A loop that maps blocks of memory one after the other until `length` bytes are mapped;
its result and the mappings that it has made. -/
def mapBlocks (call : Nat → Nat → Nat → Int) (made : Nat → Nat → Nat → Mapping) :
    List Segment → Nat → Nat → Int × List Mapping
  | [], _, _ => (0, [])
  | s :: sgl, addr, length =>
    let size := if length < s.length then length else s.length
    let ret := call addr s.phys size
    if ret ≠ 0 then (ret, [])
    else if length - size = 0 then (0, [made addr s.phys size])
    else
      let r := mapBlocks call made sgl (addr + size) (length - size)
      (r.1, made addr s.phys size :: r.2)

/-- One call; what it returns and what it maps. -/
def mapOnce (call : Nat → Nat → Nat → Int) (made : Nat → Nat → Nat → Mapping)
    (addr phys size : Nat) : Int × List Mapping :=
  let ret := call addr phys size
  (ret, if ret ≠ 0 then [] else [made addr phys size])

namespace CacheDevice

variable (dev : CacheDevice) (o : CachedObject)

def cacheStart : CacheType → Nat
  | .sram => dev.sramStart
  | .nbuf => dev.nbufStart

def cacheOffset : CacheType → Nat
  | .sram => o.rangeStart * dev.chunkSize
  | .nbuf => 0

/-- The table that the core mask of the object selects, with the address of its entries. -/
def cacheSegments : List Segment :=
  let index := if o.coreMask = 0x1 then 0 else if o.coreMask = 0x2 then 1 else 0
  (dev.cacheSgt index).map fun s => ⟨dev.nbufStart + s.offset, s.length⟩

end CacheDevice

namespace CachedObject

variable (o : CachedObject)

def cacheSize : CacheType → Nat
  | .sram => o.sramSize
  | .nbuf => o.nbufSize

/-- `RKNPU_MEM_IOMMU_LIMIT_IOVA_ALIGNMENT` -/
def limitIovaAlignment : Bool := o.flags.testBit 10

def pageBytes : List Nat := o.pages.flatMap fun p => run (p * pageSize) pageSize

end CachedObject

variable (dev : CacheDevice) (K : Kernel) (o : CachedObject) (t : CacheType)

def iommuMapWithCacheSgt (cacheSize : Nat) : Int × List Mapping :=
  mapBlocks K.iommuMap Mapping.mk (dev.cacheSegments o) o.iovaStart cacheSize

/-- The part of `rknpu_gem_alloc_buf_with_cache` that maps the cache. -/
def iommuMapCache : Int × List Mapping :=
  if !o.cacheWithSgt then
    mapOnce K.iommuMap Mapping.mk o.iovaStart (dev.cacheStart t + dev.cacheOffset o t)
      (o.cacheSize t)
  else iommuMapWithCacheSgt dev K o (o.cacheSize t)

/-- The part that gets the pages and maps them from `offset` on. -/
def iommuMapPages (offset : Nat) : Except Int (List Nat × List Mapping) :=
  match K.getPages (o.size / pageSize) with
  | .error ret => .error ret
  | .ok pages =>
    match K.toSg pages with
    | .error ret => .error ret
    | .ok sgt =>
      let ddr := mapBlocks K.iommuMap Mapping.mk sgt.sgl offset o.size
      if ddr.1 ≠ 0 then .error ddr.1 else .ok (pages, ddr.2)

/-- `rknpu_gem_alloc_buf_with_cache`: its result, the object, and what is left mapped. -/
def gemAllocBufWithCache : Int × CachedObject × List Mapping :=
  if !K.domain then (-einval, o, [])
  else
    let iovaSize := K.iovaAlign (o.cacheSize t + o.size)
    let iova := K.allocIova iovaSize (!o.limitIovaAlignment)
    let o := { o with iovaSize := iovaSize, iovaStart := iova }
    if iova = 0 then (-enomem, o, [])
    else
      let cache := iommuMapCache dev K o t
      -- only the address space is given back here
      if cache.1 ≠ 0 then (cache.1, o, cache.2)
      else
        let o := { o with dmaAddr := iova }
        if o.size = 0 then (0, o, cache.2)
        else
          match iommuMapPages K o (iova + o.cacheSize t) with
          | .error ret => (ret, o, [])
          | .ok (pages, ddr) => (0, { o with pages := pages }, cache.2 ++ ddr)

/-- `struct vm_area_struct` -/
structure Vma where
  vmStart : Nat
  vmEnd : Nat

def Vma.size (v : Vma) : Nat := v.vmEnd - v.vmStart

/-- `remap_pfn_range` with the page frame of a physical address. -/
def Kernel.remapPhys (addr phys size : Nat) : Int := K.remapPfn addr (phys / pageSize) size

/-- What `remap_pfn_range` maps there: whole pages. -/
def remapped (addr phys size : Nat) : Mapping :=
  ⟨addr, phys / pageSize * pageSize, (size + pageSize - 1) / pageSize * pageSize⟩

def remapPfnWithCacheSgt (vmStart cacheSize : Nat) : Int × List Mapping :=
  mapBlocks K.remapPhys remapped (dev.cacheSegments o) vmStart cacheSize

/-- The loop over the pages in `rknpu_gem_mmap_cache`. -/
def mapPages : List Nat → Nat → Int × List Mapping
  | [], _ => (0, [])
  | pfn :: pages, addr =>
    let ret := K.remapPfn addr pfn pageSize
    if ret < 0 then (ret, [])
    else
      let r := mapPages pages (addr + pageSize)
      (r.1, ⟨addr, pfn * pageSize, pageSize⟩ :: r.2)

/-- The part of `rknpu_gem_mmap_cache` that maps the cache. -/
def remapCache (vmStart : Nat) : Int × List Mapping :=
  if !o.cacheWithSgt then
    mapOnce K.remapPhys remapped vmStart (dev.cacheStart t + dev.cacheOffset o t) (o.cacheSize t)
  else remapPfnWithCacheSgt dev K o vmStart (o.cacheSize t)

/-- `rknpu_gem_mmap_cache`: its result and what it has mapped. -/
def gemMmapCache (v : Vma) : Int × List Mapping :=
  let cacheSize := o.cacheSize t
  let cache := remapCache dev K o t v.vmStart
  if cache.1 ≠ 0 then (-11, cache.2)
  else if o.size = 0 then (0, cache.2)
  else
    -- `vm_size` is at most the size of the object here
    let numPages := (v.size - cacheSize) / pageSize
    let ddr := mapPages K (o.pages.take numPages) (v.vmStart + cacheSize)
    (ddr.1, cache.2 ++ ddr.2)

def cut : List Segment → Nat → List Segment
  | [], _ => []
  | s :: sgl, n => if n ≤ s.length then [⟨s.phys, n⟩] else s :: cut sgl (n - s.length)

theorem bytesOf_cut (sgl : List Segment) (n : Nat) : bytesOf (cut sgl n) = (bytesOf sgl).take n := by
  induction sgl generalizing n with
  | nil => simp [cut, bytesOf]
  | cons s sgl ih =>
    have hb : bytesOf (s :: sgl) = s.bytes ++ bytesOf sgl := rfl
    by_cases hn : n ≤ s.length
    · have hone : bytesOf [⟨s.phys, n⟩] = run s.phys n := List.append_nil _
      have htake := take_run s.phys s.length n
      rw [Nat.min_eq_left hn] at htake
      rw [cut, if_pos hn, hb, List.take_append_of_le_length (by simpa using hn), hone]
      exact htake.symm
    · have hrest : bytesOf (s :: cut sgl (n - s.length)) =
          s.bytes ++ bytesOf (cut sgl (n - s.length)) :=
        rfl
      rw [cut, if_neg hn, hrest, ih, hb, List.take_append, length_bytes,
        List.take_of_length_le (l := s.bytes) (by rw [length_bytes]; omega)]

section Loop

variable {call : Nat → Nat → Nat → Int} {made : Nat → Nat → Nat → Mapping} {sgl : List Segment}
  {a n : Nat}

theorem clipped (n k : Nat) : (if n < k then n else k) = min n k := by split <;> omega

theorem mapBlocks_cons {s : Segment} (h : (mapBlocks call made (s :: sgl) a n).1 = 0) :
    call a s.phys (min n s.length) = 0 ∧
      if n ≤ s.length then
        mapBlocks call made (s :: sgl) a n = (0, [made a s.phys n])
      else
        (mapBlocks call made sgl (a + s.length) (n - s.length)).1 = 0 ∧
          (mapBlocks call made (s :: sgl) a n).2 = made a s.phys s.length ::
            (mapBlocks call made sgl (a + s.length) (n - s.length)).2 := by
  simp only [mapBlocks, clipped] at h ⊢
  by_cases hcall : call a s.phys (min n s.length) = 0
  · refine ⟨hcall, ?_⟩
    simp only [hcall, ne_eq, not_true_eq_false, if_false] at h ⊢
    by_cases hn : n ≤ s.length
    · have hlast : n - min n s.length = 0 := by omega
      rw [if_pos hn, if_pos hlast, Nat.min_eq_left hn]
    · have hmore : n - min n s.length ≠ 0 := by omega
      rw [if_neg hmore, Nat.min_eq_right (by omega : s.length ≤ n)] at h
      rw [if_neg hn, if_neg hmore, Nat.min_eq_right (by omega : s.length ≤ n)]
      exact ⟨h, rfl⟩
  · rw [if_pos hcall] at h
    exact absurd h hcall

theorem mapBlocks_called (h : (mapBlocks call made sgl a n).1 = 0) {b : Segment}
    (hb : b ∈ cut sgl n) : ∃ a, call a b.phys b.length = 0 := by
  induction sgl generalizing a n with
  | nil => cases hb
  | cons s sgl ih =>
    obtain ⟨hcall, hnext⟩ := mapBlocks_cons h
    by_cases hn : n ≤ s.length
    · rw [cut, if_pos hn, List.mem_singleton] at hb
      rw [Nat.min_eq_left hn] at hcall
      exact ⟨a, hb ▸ hcall⟩
    · rw [if_neg hn] at hnext
      rw [cut, if_neg hn] at hb
      rcases List.mem_cons.mp hb with rfl | hb
      · rw [Nat.min_eq_right (by omega)] at hcall
        exact ⟨a, hcall⟩
      · exact ih hnext.1 hb

theorem mapBlocks_places (h : (mapBlocks call made sgl a n).1 = 0)
    (hmade : ∀ b ∈ cut sgl n, ∀ a, made a b.phys b.length = ⟨a, b.phys, b.length⟩) :
    Places (mapBlocks call made sgl a n).2 a ((bytesOf sgl).take n) := by
  rw [← bytesOf_cut]
  induction sgl generalizing a n with
  | nil => exact Places.nil a
  | cons s sgl ih =>
    obtain ⟨-, hnext⟩ := mapBlocks_cons h
    by_cases hn : n ≤ s.length
    · rw [if_pos hn] at hnext
      have hcut : cut (s :: sgl) n = [⟨s.phys, n⟩] := if_pos hn
      have hm := hmade ⟨s.phys, n⟩ (by rw [hcut]; exact List.mem_singleton.mpr rfl) a
      have hone : bytesOf [⟨s.phys, n⟩] = run s.phys n := List.append_nil _
      rw [hnext, hcut, hm, hone]
      exact Places.single ⟨a, s.phys, n⟩
    · rw [if_neg hn] at hnext
      have hcut : cut (s :: sgl) n = s :: cut sgl (n - s.length) := if_neg hn
      rw [hcut] at hmade
      rw [hcut, hnext.2, hmade s List.mem_cons_self a]
      exact (ih hnext.1 fun b hb => hmade b (List.mem_cons_of_mem _ hb)).cons
        (m := ⟨a, s.phys, s.length⟩)

theorem mapOnce_eq (call : Nat → Nat → Nat → Int) (made : Nat → Nat → Nat → Mapping)
    (a p n : Nat) : mapOnce call made a p n = mapBlocks call made [⟨p, n⟩] a n := by
  simp only [mapOnce, mapBlocks, lt_irrefl, if_false, Nat.sub_self, if_true]
  split
  · rfl
  · simp_all

end Loop

/-- The blocks that the cache part is mapped to, before they are cut to its size. -/
def CacheDevice.cacheBlocks : List Segment :=
  if !o.cacheWithSgt then [⟨dev.cacheStart t + dev.cacheOffset o t, o.cacheSize t⟩]
  else dev.cacheSegments o

def CacheDevice.cacheBytes : List Nat := bytesOf (dev.cacheBlocks o t)

/-- The memory of the object: which byte is at place `k` of it, if there is one. -/
def CacheDevice.byteAt (k : Nat) : Option Nat :=
  if k < o.cacheSize t then ((dev.cacheBytes o t).take (o.cacheSize t))[k]?
  else o.pageBytes[k - o.cacheSize t]?

variable {dev K o t} {dma cpu : List Mapping} {v : Vma} {b : CachedObject} {k : Nat}

theorem iommuMapCache_eq : iommuMapCache dev K o t =
    mapBlocks K.iommuMap Mapping.mk (dev.cacheBlocks o t) o.iovaStart (o.cacheSize t) := by
  rw [iommuMapCache, CacheDevice.cacheBlocks]
  split
  · exact mapOnce_eq ..
  · rfl

theorem remapCache_eq (a : Nat) : remapCache dev K o t a =
    mapBlocks K.remapPhys remapped (dev.cacheBlocks o t) a (o.cacheSize t) := by
  rw [remapCache, CacheDevice.cacheBlocks]
  split
  · exact mapOnce_eq ..
  · rfl

theorem iommuMapPages_ok {a : Nat} {pages : List Nat} {ddr : List Mapping}
    (h : iommuMapPages K o a = .ok (pages, ddr)) : pages.length = o.size / pageSize ∧
      ∃ sgt : SgTable pages, mapBlocks K.iommuMap Mapping.mk sgt.sgl a o.size = (0, ddr) := by
  rw [iommuMapPages] at h
  split at h
  · cases h
  rename_i p hp
  split at h
  · cases h
  rename_i sgt hsgt
  dsimp only at h
  split at h
  · cases h
  rename_i hret
  cases h
  exact ⟨p.2, sgt, Prod.ext (not_not.mp hret) rfl⟩

theorem iommuMapPages_error {a : Nat} {ret : Int} (h : iommuMapPages K o a = .error ret) :
    ret ≠ 0 := by
  rw [iommuMapPages] at h
  split at h
  · rename_i r hr
    cases h
    exact r.2.ne
  split at h
  · rename_i r hr
    cases h
    exact r.2.ne
  dsimp only at h
  split at h
  · rename_i hret
    cases h
    exact hret
  · cases h

variable (dev K o t) in
/-- What a successful `rknpu_gem_alloc_buf_with_cache` has done. -/
structure Built (dma : List Mapping) : Prop where
  iova_dvd : pageSize ∣ o.iovaStart
  cache_ok : (iommuMapCache dev K o t).1 = 0
  ddr : o.size = 0 ∧ dma = (iommuMapCache dev K o t).2 ∨
    o.pages.length = o.size / pageSize ∧ ∃ (sgt : SgTable o.pages) (ddr : List Mapping),
      mapBlocks K.iommuMap Mapping.mk sgt.sgl (o.iovaStart + o.cacheSize t) o.size = (0, ddr) ∧
      dma = (iommuMapCache dev K o t).2 ++ ddr

theorem gemAllocBufWithCache_built (h : gemAllocBufWithCache dev K o t = (0, b, dma)) :
    Built dev K b t dma := by
  simp only [gemAllocBufWithCache] at h
  split at h
  · cases h
  split at h
  · cases h
  split at h
  · rename_i hcache
    exact absurd (congrArg Prod.fst h) hcache
  rename_i hcache
  split at h
  · rename_i hsize
    cases h
    exact ⟨K.allocIova_dvd .., not_not.mp hcache, .inl ⟨hsize, rfl⟩⟩
  split at h
  · rename_i ret hret
    exact absurd (congrArg Prod.fst h) (iommuMapPages_error hret)
  · rename_i pages ddr hpages
    obtain ⟨hlen, sgt, hddr⟩ := iommuMapPages_ok hpages
    cases h
    exact ⟨K.allocIova_dvd .., not_not.mp hcache, .inr ⟨hlen, sgt, ddr, hddr, rfl⟩⟩

theorem Built.cacheSize_dvd (h : Built dev K b t dma) (hs : pageSize ≤ b.size) :
    pageSize ∣ b.cacheSize t := by
  rcases h.ddr with ⟨hz, -⟩ | ⟨hlen, sgt, ddr, hddr, -⟩
  · rw [hz] at hs
    exact absurd hs (by decide)
  -- there is a page, so the address behind the cache was given to `iommu_map`
  have hpages : b.pages ≠ [] := by
    intro hnil
    rw [hnil] at hlen
    exact absurd (Nat.div_pos hs (by decide)) (by simp [← hlen])
  obtain ⟨sgl, hsgl⟩ := sgt
  cases sgl with
  | nil =>
    obtain ⟨p, pages, hp⟩ := List.exists_cons_of_ne_nil hpages
    have hl := congrArg List.length hsgl
    simp only [hp, bytesOf, List.flatMap_nil, List.length_nil, List.flatMap_cons, List.length_append,
      length_run, pageSize] at hl
    omega
  | cons s sgl =>
    have hcall := (mapBlocks_cons (congrArg Prod.fst hddr)).1
    exact (Nat.dvd_add_right h.iova_dvd).mp (K.iommuMap_dvd hcall).1

theorem length_pageBytes (o : CachedObject) : o.pageBytes.length = o.pages.length * pageSize := by
  simp [CachedObject.pageBytes, List.length_flatMap]

theorem mapPages_places {pages : List Nat} {a : Nat} (h : (mapPages K pages a).1 = 0) :
    Places (mapPages K pages a).2 a (pages.flatMap fun p => run (p * pageSize) pageSize) := by
  induction pages generalizing a with
  | nil => exact Places.nil a
  | cons pfn pages ih =>
    simp only [mapPages] at h ⊢
    by_cases hret : K.remapPfn a pfn pageSize < 0
    · rw [if_pos hret] at h
      exact absurd h hret.ne
    · rw [if_neg hret] at h ⊢
      exact (ih h).cons (m := ⟨a, pfn * pageSize, pageSize⟩)

theorem pageBytes_take (pages : List Nat) (n : Nat) :
    (pages.take n).flatMap (fun p => run (p * pageSize) pageSize) =
      (pages.flatMap fun p => run (p * pageSize) pageSize).take (n * pageSize) := by
  induction pages generalizing n with
  | nil => simp
  | cons p pages ih =>
    cases n with
    | zero => simp
    | succ n =>
      have hlen : (n + 1) * pageSize = (run (p * pageSize) pageSize).length + n * pageSize := by
        rw [length_run, Nat.succ_mul, Nat.add_comm]
      rw [List.take_succ_cons, List.flatMap_cons, List.flatMap_cons, ih, hlen,
        List.take_length_add_append]

theorem remapped_eq {a p n : Nat} (hp : pageSize ∣ p) (hn : pageSize ∣ n) :
    remapped a p n = ⟨a, p, n⟩ := by
  have hup : (n + pageSize - 1) / pageSize * pageSize = n := by
    obtain ⟨m, rfl⟩ := hn
    simp only [pageSize]
    omega
  rw [remapped, Nat.div_mul_cancel hp, hup]

theorem length_cacheBytes_take : ((dev.cacheBytes o t).take (o.cacheSize t)).length ≤ o.cacheSize t :=
  List.length_take_le ..

/-- The device sees the memory of the object. -/
theorem Built.translate_dma (h : Built dev K b t dma) (hs : b.size ≠ 0) (k : Nat) :
    translate dma (b.iovaStart + k) = dev.byteAt b t k := by
  obtain ⟨hz, -⟩ | ⟨hlen, sgt, ddr, hddr, rfl⟩ := h.ddr
  · exact absurd hz hs
  have hcache : Places (iommuMapCache dev K b t).2 b.iovaStart
      ((dev.cacheBytes b t).take (b.cacheSize t)) := by
    have hok := h.cache_ok
    rw [iommuMapCache_eq] at hok ⊢
    exact mapBlocks_places hok fun _ _ _ => rfl
  have hpages : Places ddr (b.iovaStart + b.cacheSize t) b.pageBytes := by
    have hplaces := mapBlocks_places (congrArg Prod.fst hddr) fun _ _ _ => rfl
    have hall : bytesOf sgt.sgl = b.pageBytes := sgt.bytes_eq
    have hle : b.pageBytes.length ≤ b.size := by
      rw [length_pageBytes, hlen]
      exact Nat.div_mul_le_self ..
    rwa [hddr, hall, List.take_of_length_le hle] at hplaces
  exact hcache.apart hpages length_cacheBytes_take k

/-- The process sees the memory of the object. -/
theorem Built.translate_cpu (h : Built dev K b t dma) (hmmap : gemMmapCache dev K b t v = (0, cpu))
    (hpage : pageSize ∣ v.size) (hcache : b.cacheSize t ≤ v.size) (hsize : v.size ≤ b.size)
    (hk : k < v.size) : translate cpu (v.vmStart + k) = dev.byteAt b t k := by
  have hs : pageSize ≤ b.size := (Nat.le_of_dvd (by omega) hpage).trans hsize
  have hpos : 0 < pageSize := by decide
  have hcs := h.cacheSize_dvd hs
  simp only [gemMmapCache] at hmmap
  split at hmmap
  · cases hmmap
  rename_i hret
  rw [if_neg (by omega)] at hmmap
  have hok : (remapCache dev K b t v.vmStart).1 = 0 := not_not.mp hret
  have hplaces : Places (remapCache dev K b t v.vmStart).2 v.vmStart
      ((dev.cacheBytes b t).take (b.cacheSize t)) := by
    have hdma := h.cache_ok
    rw [iommuMapCache_eq] at hdma
    rw [remapCache_eq] at hok ⊢
    refine mapBlocks_places hok fun s hs a => ?_
    -- the same block was given to `iommu_map`, which takes whole pages only
    obtain ⟨a', ha'⟩ := mapBlocks_called hdma hs
    obtain ⟨-, hp, hn⟩ := K.iommuMap_dvd ha'
    exact remapped_eq hp hn
  have hddr : Places (mapPages K (b.pages.take ((v.size - b.cacheSize t) / pageSize))
      (v.vmStart + b.cacheSize t)).2 (v.vmStart + b.cacheSize t)
      (b.pageBytes.take (v.size - b.cacheSize t)) := by
    have hmul : (v.size - b.cacheSize t) / pageSize * pageSize = v.size - b.cacheSize t :=
      Nat.div_mul_cancel (Nat.dvd_sub hpage hcs)
    rw [CachedObject.pageBytes, ← hmul, ← pageBytes_take, hmul]
    exact mapPages_places (congrArg Prod.fst hmmap)
  have hcpu := congrArg Prod.snd hmmap
  dsimp only at hcpu
  rw [← hcpu, hplaces.apart hddr length_cacheBytes_take, CacheDevice.byteAt]
  split
  · rfl
  · rw [List.getElem?_take, if_pos (by omega)]

/-- A process and the device see the same memory: in the cache part the memory of the cache,
and behind it the pages. -/
theorem mmap_agrees_with_iommu (dev : CacheDevice) (K : Kernel) (o b : CachedObject)
    (t : CacheType) (v : Vma) (dma cpu : List Mapping) (k : Nat)
    (hbuilt : gemAllocBufWithCache dev K o t = (0, b, dma))
    (hmmap : gemMmapCache dev K b t v = (0, cpu)) (hpage : pageSize ∣ v.size)
    (hcache : b.cacheSize t ≤ v.size) (hsize : v.size ≤ b.size) (hk : k < v.size) :
    translate cpu (v.vmStart + k) = translate dma (b.iovaStart + k) ∧
      (k < b.cacheSize t → ∀ x, translate cpu (v.vmStart + k) = some x → x ∈ dev.cacheBytes b t) ∧
      (b.cacheSize t ≤ k → ∃ x, b.pageBytes[k - b.cacheSize t]? = some x ∧
        translate cpu (v.vmStart + k) = some x) := by
  have h := gemAllocBufWithCache_built hbuilt
  have hs : pageSize ≤ b.size := (Nat.le_of_dvd (by omega) hpage).trans hsize
  have hcpu := h.translate_cpu hmmap hpage hcache hsize hk
  have hpos : 0 < pageSize := by decide
  refine ⟨hcpu.trans (h.translate_dma (by omega) k).symm, ?_, ?_⟩
  · intro hin x hx
    rw [hcpu, CacheDevice.byteAt, if_pos hin] at hx
    exact List.mem_of_mem_take (List.mem_of_getElem? hx)
  · intro hout
    have hlt : k - b.cacheSize t < b.pageBytes.length := by
      obtain ⟨m, hm⟩ := Nat.dvd_sub hpage (h.cacheSize_dvd hs)
      rcases h.ddr with ⟨hz, -⟩ | ⟨hlen, -⟩
      · omega
      · have hm' : m ≤ b.size / pageSize := by
          rw [Nat.le_div_iff_mul_le hpos, Nat.mul_comm]
          omega
        rw [length_pageBytes, hlen, Nat.mul_comm]
        exact lt_of_lt_of_le (by omega) (Nat.mul_le_mul_left pageSize hm')
    rw [hcpu, CacheDevice.byteAt, if_neg (by omega)]
    exact ⟨_, List.getElem?_eq_getElem hlt, List.getElem?_eq_getElem hlt⟩

def plainKernel : Kernel where
  domain := true
  iovaAlign n := n
  allocIova _ _ := 0x10000000
  allocIova_dvd _ _ := by decide
  iommuMap a p n := if pageSize ∣ a ∧ pageSize ∣ p ∧ pageSize ∣ n then 0 else -einval
  iommuMap_dvd h := by
    split at h
    · assumption
    · cases h
  getPages n := .ok ⟨List.range n, List.length_range⟩
  toSg l := .ok ⟨l.map fun p => ⟨p * pageSize, pageSize⟩, by
    simp only [bytesOf, List.flatMap_map]
    rfl⟩
  remapPfn _ _ _ := 0
  remapPfn_le _ _ _ := le_rfl

def twoCoreCache : CacheDevice where
  sramStart := 0
  chunkSize := pageSize
  nbufStart := 0x3fe80000
  cacheSgt i := if i = 0 then [⟨0, 448 * 1024⟩, ⟨896 * 1024, 64 * 1024⟩]
    else [⟨448 * 1024, 448 * 1024⟩, ⟨960 * 1024, 64 * 1024⟩]

def nbufObject : CachedObject where
  flags := 0x213
  size := 1024 * 1024
  sramSize := 0
  nbufSize := 512 * 1024
  rangeStart := 0
  cacheWithSgt := true
  coreMask := 0x1
  iovaStart := 0
  iovaSize := 0
  dmaAddr := 0
  pages := []

def nbufBuilt : Int × CachedObject × List Mapping :=
  gemAllocBufWithCache twoCoreCache plainKernel nbufObject .nbuf

def nbufVma : Vma := ⟨0x70000000, 0x70000000 + 768 * 1024⟩

theorem mmap_agrees_with_iommu_nbuf :
    let cpu := (gemMmapCache twoCoreCache plainKernel nbufBuilt.2.1 .nbuf nbufVma).2
    let dma := nbufBuilt.2.2
    translate cpu (0x70000000 + 460000) = translate dma (0x10000000 + 460000) := by
  exact (mmap_agrees_with_iommu twoCoreCache plainKernel nbufObject nbufBuilt.2.1 .nbuf nbufVma
    nbufBuilt.2.2 _ 460000 rfl rfl (by decide) (by decide) (by decide) (by decide)).1

end Rknpu

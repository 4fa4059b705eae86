import Rknpu.CacheSync
import Rknpu.PageCount

namespace Rknpu.Buffer

/-- `round_up(x, PAGE_SIZE)` for a value of type `unsigned long`. -/
def roundUp (x : Nat) : Nat := ulongAdd (ulongSub x 1 ||| (pageSize - 1)) 1

/-- What `rknpu_mm_alloc` reserves. -/
structure Reservation where
  start : Nat
  size : Nat

def configs : List (Nat × Nat) :=
  [(1, 0), (3, 0), (2, 0), (1, 0), (1, 256 * 1024), (2, 1024 * 1024), (1, 512 * 1024)]

/-- The fields of `struct rknpu_device` that a new object depends on. A table `cache_sgt` that
is not there is empty, and the NBUF has no size until it is mapped. -/
structure GemDevice extends CacheDevice where
  build : Build
  iommuEn : Bool
  sramSize : Nat
  freeChunks : Nat
  free_dvd : pageSize ∣ freeChunks * chunkSize
  free_lt : freeChunks * chunkSize < 2 ^ 32
  numIrqs : Nat
  nbufSize : Nat
  nbuf_mem : nbufSize = 0 ∨ (numIrqs, nbufSize) ∈ configs

/-- What the kernel answers: whether `rknpu_gem_init` fails, the results of the selection of
the domain and of `rknpu_mm_alloc`, and what the allocation of a buffer is told; the pointers
are those of the pages and their segments behind a cache, with the table of the domain. -/
structure CreateReply where
  init : Option Errno
  domainGet : Int
  mmAlloc : (n : Nat) → Except Errno { r : Reservation // r.size = n }
  buf : Reply
  pages : Nat
  sgt : Nat
  table : PageTable.Table

/-- `struct rknpu_mem_create`, without its handle. -/
structure MemCreate where
  flags : Nat
  size : Nat
  sramSize : Nat
  iommuDomainId : Int
  coreMask : Nat

/-- The variables of `rknpu_gem_object_create`: the object, `remain_ddr_size`, what is reserved
of the SRAM, and what the allocation routine has left, if one has been called. -/
structure Creation where
  obj : Object
  remain : Nat
  sram : Option Reservation
  alloc : Option Outcome

structure CreateFailure where
  ret : Int
  mmFreed : Option Reservation

variable (dev : GemDevice) (K : Kernel) (x : CreateReply) (a : MemCreate)

/-- `sram_free_size` -/
def GemDevice.sramFreeSize : Nat := dev.freeChunks * dev.chunkSize % 2 ^ 32

def realSramSize (remain : Nat) : Nat :=
  let sramSize := if a.sramSize ≠ 0 then roundUp a.sramSize else a.sramSize
  let real := if sramSize ≠ 0 ∧ remain > sramSize then sramSize else remain
  if real > dev.sramFreeSize then dev.sramFreeSize else real

/-- The branch of `RKNPU_MEM_TRY_ALLOC_SRAM` -/
def createSram (c : Creation) : Except CreateFailure Creation :=
  let o := { c.obj with cacheWithSgt := false }
  if dev.sramFreeSize > 0 then
    let real := realSramSize dev a c.remain
    match x.mmAlloc real with
    | .error _ => .ok { c with obj := o }
    | .ok r =>
      let o := { o with rangeStart := r.1.start }
      if real > 0 then
        let r' := gemAllocBufWithCache dev.toCacheDevice K x.pages x.sgt { o with sramSize := real }
          .sram x.table
        if r'.ret < 0 then .error ⟨r'.ret, some r.1⟩
        else .ok ⟨r'.obj, 0, some r.1, some r'.toOutcome⟩
      else .ok { c with obj := o, sram := some r.1 }
  else .ok { c with obj := o }

/-- The branch of `RKNPU_MEM_TRY_ALLOC_NBUF` -/
def createNbuf (c : Creation) : Except CreateFailure Creation :=
  let oneCore : Bool := a.coreMask = 0 || a.coreMask = 0x1 || a.coreMask = 0x2
  let o := { c.obj with
    cacheWithSgt := oneCore && !(dev.cacheSgt ⟨0, Nat.zero_lt_two⟩).isEmpty
    coreMask := a.coreMask }
  let nbufSize := if oneCore then dev.nbufSize / dev.numIrqs else dev.nbufSize
  let nbufSize := if c.remain ≤ nbufSize then c.remain else nbufSize
  if nbufSize > 0 then
    let r := gemAllocBufWithCache dev.toCacheDevice K x.pages x.sgt { o with nbufSize := nbufSize }
      .nbuf x.table
    if r.ret < 0 then .error ⟨r.ret, none⟩
    else .ok ⟨r.obj, 0, c.sram, some r.toOutcome⟩
  else .ok { c with obj := o }

def createCache (c : Creation) : Except CreateFailure Creation :=
  if dev.build.sram && c.obj.flags.testBit 8 && decide (dev.sramSize > 0) then createSram dev K x a c
  else if dev.build.noGki && c.obj.flags.testBit 9 && decide (dev.nbufSize > 0) then
    createNbuf dev K x a c
  else .ok c

/-- What is not in a cache is allocated by `rknpu_gem_alloc_buf`. -/
def createDdr (c : Creation) : Except CreateFailure Creation :=
  if c.remain > 0 then
    let r := gemAllocBuf dev.iommuEn x.buf c.obj
    if r.ret < 0 then .error ⟨r.ret, none⟩ else .ok { c with obj := r.obj, alloc := some r }
  else .ok c

/-- `rknpu_gem_object_create` -/
def gemObjectCreate : Except CreateFailure Creation :=
  if a.size = 0 then .error ⟨-einval, none⟩
  else
    let remain := roundUp a.size
    match x.init with
    | some e => .error ⟨e, none⟩
    | none =>
      if x.domainGet ≠ 0 then .error ⟨-einval, none⟩
      else
        let flags := if !dev.iommuEn && a.flags.testBit 0 then a.flags &&& 0xfffffffe else a.flags
        (createCache dev K x a ⟨{ Object.init remain with flags := flags }, remain, none, none⟩).bind
          (createDdr dev x)

/-- `rknpu_gem_create_ioctl` for a handle that is not found, where `handle` is what
`rknpu_gem_handle_create` returns: the sizes and the address that it reports. -/
def gemCreateIoctl (handle : Int) : Except Int (Nat × Nat × Nat) :=
  match gemObjectCreate dev K x a with
  | .error e => .error e.ret
  | .ok c => if handle ≠ 0 then .error handle else .ok (c.obj.size, c.obj.sramSize, c.obj.dmaAddr)

/-- The routine has provided memory of `size` bytes, in one piece or as whole pages. -/
structure Provided (r : Outcome) (size : Nat) : Prop where
  ret : 0 ≤ r.ret
  kept : r.freed = []
  memory : (∃ cookie addr attrs, Resource.dma cookie addr size attrs ∈ r.got) ∨
    Resource.shmem r.obj.pages ∈ r.got ∧ r.obj.numPages * pageSize = size

/-- There is memory for the object, and its part in a cache is made of whole pages of it; what
is in the SRAM is reserved. -/
structure Backed (c : Creation) : Prop where
  provided : ∃ r, c.alloc = some r ∧ r.obj = c.obj ∧ Provided r c.obj.size
  sram : pageSize ∣ c.obj.sramSize ∧ c.obj.sramSize ≤ c.obj.size
  nbuf : pageSize ∣ c.obj.nbufSize ∧ c.obj.nbufSize ≤ c.obj.size
  reserved : 0 < c.obj.sramSize → ∃ r, c.sram = some r ∧ r.size = c.obj.sramSize

/-- The object is what was asked for, rounded up to whole pages. -/
structure Sized (size : Nat) (c : Creation) : Prop extends Backed c where
  dvd : pageSize ∣ c.obj.size
  le : size ≤ c.obj.size
  lt : c.obj.size < size + pageSize

section RoundUp

variable {n : Nat}

theorem or_pageMask : n ||| (pageSize - 1) = n / pageSize * pageSize + (pageSize - 1) := by
  have hdiv : (n ||| (pageSize - 1)) / pageSize = n / pageSize := by
    rw [pageSize, show (4096 : Nat) = 2 ^ 12 from rfl, Nat.or_div_two_pow]
    exact Nat.or_zero _
  have hmod : (n ||| (pageSize - 1)) % pageSize = pageSize - 1 := by
    have hle : pageSize - 1 ≤ n % pageSize ||| (pageSize - 1) := Nat.right_le_or
    have hlt : n % pageSize ||| (pageSize - 1) < 2 ^ 12 :=
      Nat.or_lt_two_pow (Nat.mod_lt _ (by decide)) (by decide)
    have hor : (n ||| (pageSize - 1)) % pageSize = n % pageSize ||| (pageSize - 1) :=
      Nat.or_mod_two_pow (n := 12)
    rw [hor]
    simp only [pageSize] at hle hlt ⊢
    omega
  have h := Nat.div_add_mod' (n ||| (pageSize - 1)) pageSize
  rw [hdiv, hmod] at h
  exact h.symm

/-- The value is rounded up, and starts again at 0 behind the last page. -/
theorem roundUp_eq (hpos : 0 < n) (hn : n < 2 ^ 64) :
    roundUp n = (n + pageSize - 1) / pageSize * pageSize % 2 ^ 64 := by
  have hup : (n - 1) / pageSize * pageSize + (pageSize - 1) + 1 =
      (n + pageSize - 1) / pageSize * pageSize := by
    simp only [pageSize]
    omega
  rw [roundUp, ulongSub_eq hpos hn, or_pageMask, ulongAdd, hup]

theorem dvd_roundUp (hpos : 0 < n) (hn : n < 2 ^ 64) : pageSize ∣ roundUp n := by
  rw [roundUp_eq hpos hn]
  exact (Nat.dvd_mod_iff (by decide)).mpr (Nat.dvd_mul_left _ _)

theorem le_roundUp_iff (hpos : 0 < n) (hn : n < 2 ^ 64) : n ≤ roundUp n ↔ n + pageSize ≤ 2 ^ 64 := by
  rw [roundUp_eq hpos hn]
  simp only [pageSize]
  omega

theorem roundUp_lt (hpos : 0 < n) (hn : n < 2 ^ 64) : roundUp n < n + pageSize := by
  rw [roundUp_eq hpos hn]
  simp only [pageSize]
  omega

end RoundUp

structure Allocated (o : Object) (r : Outcome) : Prop where
  provided : Provided r o.size
  same : SameSizes o r.obj

section Routines

variable {en : Bool} {y : Reply} {o : Object} {t : CacheType} {T : PageTable.Table} {K : Kernel}

theorem SameSizes.trans {o₁ o₂ o₃ : Object} (h : SameSizes o₁ o₂) (h' : SameSizes o₂ o₃) :
    SameSizes o₁ o₃ :=
  ⟨h'.size.trans h.size, h'.sramSize.trans h.sramSize, h'.nbufSize.trans h.nbufSize⟩

theorem Allocated.of_same {o₁ o₂ : Object} {r : Outcome} (h : SameSizes o₁ o₂) (h' : Allocated o₂ r) :
    Allocated o₁ r := by
  have hprov := h'.provided
  rw [h.size] at hprov
  exact ⟨hprov, h.trans h'.same⟩

theorem gemSgTable_allocated (h : 0 ≤ (gemSgTable y o).ret) : Allocated o (gemSgTable y o) := by
  by_cases ht : TableSucceeds y
  · have hgot := gemSgTable_got (o := o) ht
    have hsame : SameSizes o (gemSgTable y o).obj := gemSgTable_same.toSameSizes
    have hmem : (gemSgTable y o).obj.dmaMemory ∈ (gemSgTable y o).got := by
      rw [hgot.got]
      exact List.mem_cons_of_mem _ List.mem_cons_self
    rw [Object.dmaMemory, hsame.size] at hmem
    exact ⟨⟨h, hgot.freed, .inl ⟨_, _, _, hmem⟩⟩, hsame⟩
  · exact absurd (gemSgTable_failed ht).1 (Int.not_lt.mpr h)

theorem gemGetPages_allocated (hdvd : pageSize ∣ o.size) (h : 0 ≤ (gemGetPages y o).ret) :
    Allocated o (gemGetPages y o) := by
  by_cases hs : PagesSucceed y o
  · have hfreed := (gemGetPages_got hs).1.freed
    obtain ⟨⟨p, hp⟩, ⟨t, ht⟩, hm, hv⟩ := hs
    have hmem : Resource.shmem (gemGetPages y o).obj.pages ∈ (gemGetPages y o).got ∧
        (gemGetPages y o).obj.numPages = o.size / pageSize ∧ SameSizes o (gemGetPages y o).obj := by
      simp only [gemGetPages, hp, ht, hm, if_false, gemVmapPages]
      split
      · split <;> exact ⟨by simp, rfl, rfl, rfl, rfl⟩
      · exact ⟨by simp, rfl, rfl, rfl, rfl⟩
    obtain ⟨hmem, hnum, hsame⟩ := hmem
    refine ⟨⟨h, hfreed, .inr ⟨hmem, ?_⟩⟩, hsame⟩
    rw [hnum, Nat.div_mul_cancel hdvd]
  · exact absurd (gemGetPages_failed hs).1 (Int.not_lt.mpr h)

theorem gemAllocBuf_allocated (ho : o.dmaAddr = 0) (hdvd : pageSize ∣ o.size)
    (h : 0 ≤ (gemAllocBuf en y o).ret) : Allocated o (gemAllocBuf en y o) := by
  cases hn : o.nonContiguous && en
  · rw [gemAllocBuf_memory ho hn] at h ⊢
    cases hp : y.pageArray with
    | none =>
      rw [hp] at h
      exact absurd h (by simp [enomem])
    | some p =>
      rw [hp] at h
      dsimp only at h ⊢
      split at h
      · rename_i hdma
        rw [if_pos hdma]
        have hsame : SameSizes { o with dmaAttrs := o.attrs, pages := .at p }
            (gemDmaAlloc en y { o with dmaAttrs := o.attrs, pages := .at p }).2 :=
          gemDmaAlloc_same.toSameSizes
        exact .of_same ⟨hsame.size, hsame.sramSize, hsame.nbufSize⟩ (gemSgTable_allocated h)
      · exact absurd h (by simp [einval])
  · rw [gemAllocBuf_pages ho hn] at h ⊢
    refine .of_same ?_ (gemGetPages_allocated (by exact hdvd) h)
    exact ⟨rfl, rfl, rfl⟩

theorem mapBlocks_nonpos {call : Nat → Nat → Nat → Int} (hcall : ∀ a p n, call a p n ≤ 0)
    (made : Nat → Nat → Nat → AddressMap.Mapping) (sgl : List Segment) (a n : Nat) :
    (mapBlocks call made sgl a n).1 ≤ 0 := by
  induction sgl generalizing a n with
  | nil => exact Int.le_refl 0
  | cons s sgl ih =>
    simp only [mapBlocks, clipped]
    by_cases hret : call a s.phys (min n s.length) = 0
    · rw [if_neg (not_not.mpr hret)]
      split
      · exact Int.le_refl 0
      · exact ih _ _
    · rw [if_pos hret]
      exact hcall _ _ _

theorem gemMapDdr_allocated (hmap : ∀ a p n, K.iommuMap a p n ≤ 0) {sgt : Nat} {sgl : List Segment}
    (hcount : o.numPages * pageSize = o.size) (h : 0 ≤ (gemMapDdr K sgt o t sgl T).ret) :
    Allocated o (gemMapDdr K sgt o t sgl T).toOutcome := by
  have hret : (ddrLoop K sgl (o.iovaStart + o.cacheSize t) o.size).1 = 0 := by
    rw [gemMapDdr_ret] at h
    rw [ddrLoop_eq]
    exact Int.le_antisymm (mapBlocks_nonpos hmap _ _ _ _) h
  simp only [gemMapDdr, hret, ne_eq, not_true_eq_false, if_false]
  exact ⟨⟨Int.le_refl 0, rfl, .inr ⟨by simp, hcount⟩⟩, rfl, rfl, rfl⟩

theorem gemAddPages_allocated (hmap : ∀ a p n, K.iommuMap a p n ≤ 0) {pages sgt : Nat}
    (hdvd : pageSize ∣ o.size) (h : 0 ≤ (gemAddPages K pages sgt o t T).ret) :
    Allocated o (gemAddPages K pages sgt o t T).toOutcome := by
  unfold gemAddPages at h ⊢
  split at h
  · rename_i e _
    exact absurd e.2 (Int.not_lt.mpr h)
  · dsimp only at h ⊢
    split at h
    · rename_i e _
      exact absurd e.2 (Int.not_lt.mpr h)
    · have hcount : o.size / pageSize * pageSize = o.size := Nat.div_mul_cancel hdvd
      refine .of_same ?_ (gemMapDdr_allocated hmap (by exact hcount) h)
      exact ⟨rfl, rfl, rfl⟩

theorem iommuMapCache_nonpos {dev : CacheDevice} (hmap : ∀ a p n, K.iommuMap a p n ≤ 0)
    (o : CachedObject) (t : CacheType) : (iommuMapCache dev K o t).1 ≤ 0 := by
  unfold iommuMapCache
  split
  · exact hmap _ _ _
  · exact mapBlocks_nonpos hmap _ _ _ _

theorem gemAllocBufWithCache_allocated {dev : CacheDevice} (hmap : ∀ a p n, K.iommuMap a p n ≤ 0)
    {pages sgt : Nat} (hdvd : pageSize ∣ o.size) (hsize : 0 < o.size)
    (h : 0 ≤ (gemAllocBufWithCache dev K pages sgt o t T).ret) :
    Allocated o (gemAllocBufWithCache dev K pages sgt o t T).toOutcome := by
  unfold gemAllocBufWithCache at h ⊢
  split at h
  · exact absurd h (by simp [einval])
  rename_i hdom
  rw [if_neg hdom]
  dsimp only at h ⊢
  split at h
  · exact absurd h (by simp [enomem])
  rename_i hiova
  rw [if_neg hiova]
  split at h
  · rename_i hret
    exact absurd (Int.le_antisymm (iommuMapCache_nonpos hmap _ _) h) hret
  rename_i hret
  rw [if_neg hret]
  split at h
  · rename_i hzero
    exact absurd hzero (by omega)
  rename_i hzero
  rw [if_neg hzero]
  refine .of_same ?_ (gemAddPages_allocated hmap (by exact hdvd) h)
  exact ⟨rfl, rfl, rfl⟩

end Routines

structure Fresh (n : Nat) (c : Creation) : Prop where
  size : c.obj.size = n
  remain : c.remain = n
  alloc : c.alloc = none
  dmaAddr : c.obj.dmaAddr = 0
  sramSize : c.obj.sramSize = 0
  nbufSize : c.obj.nbufSize = 0

structure Filled (n : Nat) (c : Creation) : Prop where
  size : c.obj.size = n
  remain : c.remain = 0
  backed : Backed c

section Create

variable {dev : GemDevice} {K : Kernel} {x : CreateReply} {a : MemCreate} {c c' : Creation} {n m : Nat}

theorem GemDevice.nbuf_dvd (dev : GemDevice) :
    pageSize ∣ dev.nbufSize ∧ pageSize ∣ dev.nbufSize / dev.numIrqs := by
  rcases dev.nbuf_mem with hzero | hmem
  · rw [hzero, Nat.zero_div]
    exact ⟨Nat.dvd_zero _, Nat.dvd_zero _⟩
  · have hall : ∀ p ∈ configs, pageSize ∣ p.2 ∧ pageSize ∣ p.2 / p.1 := by decide
    exact hall _ hmem

theorem realSramSize_dvd (hsram : a.sramSize < 2 ^ 64) (hn : pageSize ∣ n) :
    pageSize ∣ realSramSize dev a n ∧ realSramSize dev a n ≤ n := by
  have hask : pageSize ∣ (if a.sramSize ≠ 0 then roundUp a.sramSize else a.sramSize) := by
    split
    · exact dvd_roundUp (by omega) hsram
    · rename_i hzero
      rw [not_not.mp hzero]
      exact Nat.dvd_zero _
  have hfree : pageSize ∣ dev.sramFreeSize := by
    rw [GemDevice.sramFreeSize, Nat.mod_eq_of_lt dev.free_lt]
    exact dev.free_dvd
  unfold realSramSize
  dsimp only
  generalize (if a.sramSize ≠ 0 then roundUp a.sramSize else a.sramSize) = ask at hask ⊢
  split <;> split
  · exact ⟨hfree, by omega⟩
  · exact ⟨hask, by omega⟩
  · exact ⟨hfree, by omega⟩
  · exact ⟨hn, Nat.le_refl n⟩

theorem createSram_fresh (hmap : ∀ a p n, K.iommuMap a p n ≤ 0) (hsram : a.sramSize < 2 ^ 64)
    (hn : pageSize ∣ n) (hF : Fresh n c) (h : createSram dev K x a c = .ok c') :
    Fresh n c' ∨ Filled n c' := by
  obtain ⟨hdvd, hle⟩ : pageSize ∣ realSramSize dev a n ∧ realSramSize dev a n ≤ n :=
    realSramSize_dvd hsram hn
  unfold createSram at h
  rw [hF.remain] at h
  dsimp only at h
  split at h
  swap
  · cases h
    exact .inl ⟨hF.size, rfl, hF.alloc, hF.dmaAddr, hF.sramSize, hF.nbufSize⟩
  split at h
  · cases h
    exact .inl ⟨hF.size, rfl, hF.alloc, hF.dmaAddr, hF.sramSize, hF.nbufSize⟩
  rename_i r _
  split at h
  · rename_i hpos
    split at h
    · cases h
    rename_i hret
    have halloc := gemAllocBufWithCache_allocated hmap (hF.size ▸ hn) (by rw [hF.size]; omega)
      (Int.not_lt.mp hret)
    cases h
    have hsize := halloc.same.size.trans hF.size
    have hsramSize := halloc.same.sramSize
    have hnbufSize := halloc.same.nbufSize.trans hF.nbufSize
    refine .inr ⟨hsize, rfl, ⟨_, rfl, rfl, ?_⟩, ?_, ?_, fun _ => ⟨r.1, rfl, ?_⟩⟩
    · exact halloc.same.size.symm ▸ halloc.provided
    · dsimp only
      rw [hsramSize, hsize]
      exact ⟨hdvd, hle⟩
    · dsimp only
      rw [hnbufSize]
      exact ⟨Nat.dvd_zero _, Nat.zero_le _⟩
    · exact r.2.trans hsramSize.symm
  · cases h
    exact .inl ⟨hF.size, rfl, hF.alloc, hF.dmaAddr, hF.sramSize, hF.nbufSize⟩

theorem createNbuf_fresh (hmap : ∀ a p n, K.iommuMap a p n ≤ 0) (hn : pageSize ∣ n) (hF : Fresh n c)
    (h : createNbuf dev K x a c = .ok c') : Fresh n c' ∨ Filled n c' := by
  obtain ⟨hall, hpart⟩ := dev.nbuf_dvd
  unfold createNbuf at h
  rw [hF.remain] at h
  dsimp only at h
  generalize (decide (a.coreMask = 0) || decide (a.coreMask = 1) || decide (a.coreMask = 2)) =
    oneCore at h
  generalize hnbuf : (if oneCore = true then dev.nbufSize / dev.numIrqs else dev.nbufSize) = nbuf at h
  have hnbuf : pageSize ∣ nbuf := by
    rw [← hnbuf]
    split
    · exact hpart
    · exact hall
  have hreal : pageSize ∣ (if n ≤ nbuf then n else nbuf) ∧ (if n ≤ nbuf then n else nbuf) ≤ n := by
    split
    · exact ⟨hn, Nat.le_refl n⟩
    · exact ⟨hnbuf, by omega⟩
  generalize (if n ≤ nbuf then n else nbuf) = real at h hreal
  split at h
  · split at h
    · cases h
    rename_i hret
    have halloc := gemAllocBufWithCache_allocated hmap (hF.size ▸ hn) (by rw [hF.size]; omega)
      (Int.not_lt.mp hret)
    cases h
    have hsize := halloc.same.size.trans hF.size
    have hsramSize := halloc.same.sramSize.trans hF.sramSize
    refine .inr ⟨hsize, rfl, ⟨_, rfl, rfl, ?_⟩, ?_, ?_, fun hpos => ?_⟩
    · exact halloc.same.size.symm ▸ halloc.provided
    · dsimp only
      rw [hsramSize]
      exact ⟨Nat.dvd_zero _, Nat.zero_le _⟩
    · dsimp only
      rw [halloc.same.nbufSize, hsize]
      exact hreal
    · exact absurd hsramSize (Nat.ne_of_gt hpos)
  · cases h
    exact .inl ⟨hF.size, rfl, hF.alloc, hF.dmaAddr, hF.sramSize, hF.nbufSize⟩

theorem createCache_fresh (hmap : ∀ a p n, K.iommuMap a p n ≤ 0) (hsram : a.sramSize < 2 ^ 64)
    (hn : pageSize ∣ n) (hF : Fresh n c) (h : createCache dev K x a c = .ok c') :
    Fresh n c' ∨ Filled n c' := by
  unfold createCache at h
  split at h
  · exact createSram_fresh hmap hsram hn hF h
  split at h
  · exact createNbuf_fresh hmap hn hF h
  · cases h
    exact .inl hF

theorem createDdr_fresh (hn : pageSize ∣ n) (hF : Fresh n c ∨ Filled n c)
    (h : createDdr dev x c = .ok c') : c'.obj.size = n ∧ (0 < n → Backed c') := by
  unfold createDdr at h
  dsimp only at h
  rcases hF with hF | hF
  · split at h
    · split at h
      · cases h
      rename_i hret
      have halloc := gemAllocBuf_allocated hF.dmaAddr (hF.size ▸ hn) (Int.not_lt.mp hret)
      cases h
      have hsramSize := halloc.same.sramSize.trans hF.sramSize
      have hnbufSize := halloc.same.nbufSize.trans hF.nbufSize
      refine ⟨halloc.same.size.trans hF.size, fun _ => ⟨⟨_, rfl, rfl, ?_⟩, ?_, ?_, fun hpos => ?_⟩⟩
      · exact halloc.same.size.symm ▸ halloc.provided
      · dsimp only
        rw [hsramSize]
        exact ⟨Nat.dvd_zero _, Nat.zero_le _⟩
      · dsimp only
        rw [hnbufSize]
        exact ⟨Nat.dvd_zero _, Nat.zero_le _⟩
      · exact absurd hsramSize (Nat.ne_of_gt hpos)
    · rename_i hzero
      cases h
      rw [hF.remain] at hzero
      exact ⟨hF.size, fun hpos => absurd hpos hzero⟩
  · rw [if_neg (by rw [hF.remain]; omega)] at h
    cases h
    exact ⟨hF.size, fun _ => hF.backed⟩

theorem gemObjectCreate_ok (hmap : ∀ a p n, K.iommuMap a p n ≤ 0) (hsize : a.size < 2 ^ 64)
    (hsram : a.sramSize < 2 ^ 64) (h : gemObjectCreate dev K x a = .ok c) :
    0 < a.size ∧ c.obj.size = roundUp a.size ∧ (0 < roundUp a.size → Backed c) := by
  unfold gemObjectCreate at h
  split at h
  · cases h
  rename_i hpos
  have hpos : 0 < a.size := by omega
  dsimp only at h
  split at h
  · cases h
  split at h
  · cases h
  have hdvd := dvd_roundUp hpos hsize
  generalize (if (!dev.iommuEn && a.flags.testBit 0) = true then a.flags &&& 0xfffffffe
    else a.flags) = flags at h
  cases hc : createCache dev K x a
      ⟨{ Object.init (roundUp a.size) with flags := flags }, roundUp a.size, none, none⟩ with
  | error e =>
    rw [hc] at h
    cases h
  | ok c₁ =>
    rw [hc] at h
    have hfresh := createCache_fresh hmap hsram hdvd ⟨rfl, rfl, rfl, rfl, rfl, rfl⟩ hc
    exact ⟨hpos, createDdr_fresh hdvd hfresh h⟩

/-- A created object is backed and large enough exactly if its size can be rounded up. -/
theorem create_sized_iff (dev : GemDevice) (K : Kernel) (x : CreateReply) (a : MemCreate) (c : Creation)
    (hmap : ∀ a p n, K.iommuMap a p n ≤ 0) (hsize : a.size < 2 ^ 64) (hsram : a.sramSize < 2 ^ 64)
    (h : gemObjectCreate dev K x a = .ok c) : Sized a.size c ↔ a.size + pageSize ≤ 2 ^ 64 := by
  obtain ⟨hpos, hobj, hbacked⟩ := gemObjectCreate_ok hmap hsize hsram h
  have hle := le_roundUp_iff hpos hsize
  constructor
  · intro hs
    exact hle.mp (hobj ▸ hs.le)
  · intro hfits
    have hround := hle.mpr hfits
    refine ⟨hbacked (by omega), ?_, ?_, ?_⟩
    · rw [hobj]
      exact dvd_roundUp hpos hsize
    · rw [hobj]
      exact hround
    · rw [hobj]
      exact roundUp_lt hpos hsize

/-- The size that the ioctl reports is at least what was asked for under the same condition. -/
theorem gemCreateIoctl_size (hmap : ∀ a p n, K.iommuMap a p n ≤ 0) (hsize : a.size < 2 ^ 64)
    (hsram : a.sramSize < 2 ^ 64) {handle : Int} {r : Nat × Nat × Nat}
    (h : gemCreateIoctl dev K x a handle = .ok r) : a.size ≤ r.1 ↔ a.size + pageSize ≤ 2 ^ 64 := by
  unfold gemCreateIoctl at h
  cases hc : gemObjectCreate dev K x a with
  | error e =>
    rw [hc] at h
    cases h
  | ok c =>
    rw [hc] at h
    dsimp only at h
    split at h
    · cases h
    · cases h
      obtain ⟨hpos, hobj, -⟩ := gemObjectCreate_ok hmap hsize hsram hc
      dsimp only
      rw [hobj]
      exact le_roundUp_iff hpos hsize

end Create

theorem plainKernel_nonpos (a p n : Nat) : plainKernel.iommuMap a p n ≤ 0 := by
  simp only [plainKernel]
  split
  · exact Int.le_refl 0
  · decide

def sramDevice : GemDevice where
  toCacheDevice := ⟨0xff000000, 4096, 0, fun _ => []⟩
  build := ⟨true, true⟩
  iommuEn := true
  sramSize := 64 * 1024
  freeChunks := 8
  free_dvd := by decide
  free_lt := by decide
  numIrqs := 3
  nbufSize := 0
  nbuf_mem := .inl rfl

def givingReply : CreateReply where
  init := none
  domainGet := 0
  mmAlloc n := .ok ⟨⟨0, n⟩, rfl⟩
  buf := fallbackReply
  pages := 1
  sgt := 2
  table := fun _ => none

def sramCreate : MemCreate := ⟨0x103, 48 * 1024 - 1, 16 * 1024, 0, 0⟩

theorem create_sized_sram : ∃ c, gemObjectCreate sramDevice plainKernel givingReply sramCreate = .ok c ∧
    c.obj.sramSize = 16 * 1024 ∧ Sized sramCreate.size c := by
  refine ⟨_, rfl, by decide, ?_⟩
  exact (create_sized_iff sramDevice plainKernel givingReply sramCreate _ plainKernel_nonpos (by decide)
    (by decide) rfl).mpr (by decide)

/-- The size is not 0, but rounded up it is. -/
theorem create_empty : ¬∀ (dev : GemDevice) (K : Kernel) (x : CreateReply) (a : MemCreate)
    (c : Creation),
    (∀ a p n, K.iommuMap a p n ≤ 0) → a.size < 2 ^ 64 → a.sramSize < 2 ^ 64 →
    gemObjectCreate dev K x a = .ok c → Sized a.size c := by
  intro h
  have hs := h sramDevice plainKernel givingReply ⟨0x3, 2 ^ 64 - 1, 0, 0, 0⟩ _ plainKernel_nonpos
    (by decide) (by decide) rfl
  exact absurd hs.le (by decide)

end Rknpu.Buffer

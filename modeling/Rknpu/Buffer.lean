import Rknpu.CacheMap

namespace Rknpu.Buffer

/-- A pointer that a function of the kernel returns, which may be an error. -/
inductive Pointer where
  | null
  | err (ret : Errno)
  | at (p : Nat)
deriving DecidableEq

/-- The bits of `dma_attrs` that the driver sets. -/
structure DmaAttrs where
  forceContiguous : Bool
  writeCombine : Bool
  noKernelMapping : Bool
deriving DecidableEq

/-- What the kernel gives out, by the call that gives it and has to be matched: the array
for the pages, DMA memory, a segment table and its entries, pages of the shmem file, the DMA
mapping of a table, a kernel mapping, a range of addresses. -/
inductive Resource where
  | pageArray (pages : Pointer)
  | dma (cookie : Pointer) (addr size : Nat) (attrs : DmaAttrs)
  | table (sgt : Pointer)
  | entries (sgt : Pointer)
  | shmem (pages : Pointer)
  | mapping (sgt : Pointer)
  | vmap (addr : Pointer)
  | iova (start size : Nat)
deriving DecidableEq

/-- `struct rknpu_gem_object`; `rangeStart` is that of its `sram_obj`. -/
structure Object where
  flags : Nat
  size : Nat
  sramSize : Nat
  nbufSize : Nat
  rangeStart : Nat
  iovaStart : Nat
  iovaSize : Nat
  cookie : Pointer
  kvAddr : Pointer
  dmaAddr : Nat
  dmaAttrs : DmaAttrs
  numPages : Nat
  pages : Pointer
  sgt : Pointer
  coreMask : Nat
  cacheWithSgt : Bool

namespace Object

/-- `rknpu_gem_init` -/
def init (size : Nat) : Object where
  flags := 0
  size := size
  sramSize := 0
  nbufSize := 0
  rangeStart := 0
  iovaStart := 0
  iovaSize := 0
  cookie := .null
  kvAddr := .null
  dmaAddr := 0
  dmaAttrs := ⟨false, false, false⟩
  numPages := 0
  pages := .null
  sgt := .null
  coreMask := 0
  cacheWithSgt := false

variable (o : Object)

/-- `RKNPU_MEM_NON_CONTIGUOUS` -/
def nonContiguous : Bool := o.flags.testBit 0

/-- `RKNPU_MEM_KERNEL_MAPPING` -/
def kernelMapping : Bool := o.flags.testBit 3

/-- The attributes that follow from the flags: `RKNPU_MEM_WRITE_COMBINE` counts where
`RKNPU_MEM_CACHEABLE` is not set. -/
def attrs : DmaAttrs where
  forceContiguous := !o.nonContiguous
  writeCombine := !o.flags.testBit 1 && o.flags.testBit 2
  noKernelMapping := !o.kernelMapping

def dmaMemory : Resource := .dma o.cookie o.dmaAddr o.size o.dmaAttrs

end Object

structure Reply where
  pageArray : Option Nat
  dma : Option (Nat × Nat)
  fallback : Option (Nat × Nat)
  table : Option Nat
  getSgtable : Int
  toPages : Int
  getPages : Except Errno Nat
  toSg : Except Errno Nat
  mapSg : Nat
  vmap : Option Nat
  sgDmaAddress : Nat

structure Outcome where
  ret : Int
  obj : Object
  got : List Resource
  freed : List Resource

variable (en : Bool) (x : Reply) (o : Object)

/-- The part of `rknpu_gem_get_pages` behind the mapping of the segments. -/
def gemVmapPages (o : Object) (got freed : List Resource) : Outcome :=
  if o.kernelMapping then
    match x.vmap with
    | none => ⟨-enomem, { o with cookie := .null }, got, freed⟩
    | some v =>
      ⟨0, { o with cookie := .at v, kvAddr := .at v, dmaAddr := x.sgDmaAddress },
        got ++ [.vmap (.at v)], []⟩
  else ⟨0, { o with dmaAddr := x.sgDmaAddress }, got, []⟩

/-- `rknpu_gem_get_pages` -/
def gemGetPages : Outcome :=
  match x.getPages with
  | .error e => ⟨e, { o with pages := .err e }, [], []⟩
  | .ok p =>
    let o := { o with pages := .at p, numPages := o.size / pageSize }
    match x.toSg with
    | .error e => ⟨e, { o with sgt := .err e }, [.shmem o.pages], [.shmem o.pages]⟩
    | .ok t =>
      let o := { o with sgt := .at t }
      let got := [.shmem o.pages, .table o.sgt, .entries o.sgt]
      let freed := [.entries o.sgt, .table o.sgt, .shmem o.pages]
      if x.mapSg = 0 then ⟨-efault, o, got, freed⟩
      else gemVmapPages x o (got ++ [.mapping o.sgt]) (.mapping o.sgt :: freed)

/-- `rknpu_gem_put_pages`: the object, and what is released. -/
def gemPutPages : Object × List Resource :=
  let kv := if o.kernelMapping ∧ o.kvAddr ≠ .null then [Resource.vmap o.kvAddr] else []
  let sg := if o.sgt ≠ .null then [.mapping o.sgt, .entries o.sgt, .table o.sgt] else []
  ({ o with kvAddr := if o.kernelMapping then .null else o.kvAddr }, kv ++ sg ++ [.shmem o.pages])

/-- The calls of `dma_alloc_attrs` in `rknpu_gem_alloc_buf`; the second asks for memory that
is not contiguous. -/
def gemDmaAlloc : Bool × Object :=
  match x.dma with
  | some m => (true, { o with cookie := .at m.1, dmaAddr := m.2 })
  | none =>
    if !o.nonContiguous && en then
      let o := { o with
        dmaAttrs := { o.dmaAttrs with forceContiguous := false }
        flags := o.flags ||| 1 }
      match x.fallback with
      | some m => (true, { o with cookie := .at m.1, dmaAddr := m.2 })
      | none => (false, { o with cookie := .null })
    else (false, { o with cookie := .null })

/-- The part of `rknpu_gem_alloc_buf` behind the allocation of the memory. -/
def gemSgTable : Outcome :=
  let o := if o.kernelMapping then { o with kvAddr := o.cookie } else o
  let got := [.pageArray o.pages, o.dmaMemory]
  let freed := [o.dmaMemory, .pageArray o.pages]
  match x.table with
  | none => ⟨-enomem, o, got, freed⟩
  | some t =>
    if x.getSgtable < 0 then ⟨x.getSgtable, o, got ++ [.table (.at t)], .table (.at t) :: freed⟩
    else
      let got := got ++ [.table (.at t), .entries (.at t)]
      if x.toPages < 0 then ⟨x.toPages, o, got, .entries (.at t) :: .table (.at t) :: freed⟩
      else ⟨x.toPages, { o with sgt := .at t }, got, []⟩

/-- `rknpu_gem_alloc_buf`; `en` is `iommu_en`. -/
def gemAllocBuf : Outcome :=
  if o.dmaAddr ≠ 0 then ⟨0, o, [], []⟩
  else
    let o := { o with dmaAttrs := o.attrs }
    if o.nonContiguous && en then gemGetPages x o
    else
      match x.pageArray with
      | none => ⟨-enomem, { o with pages := .null }, [], []⟩
      | some p =>
        let o := { o with pages := .at p }
        let r := gemDmaAlloc en x o
        if r.1 then gemSgTable x r.2
        else ⟨-einval, r.2, [.pageArray o.pages], [.pageArray o.pages]⟩

/-- `rknpu_gem_free_buf` -/
def gemFreeBuf : Object × List Resource :=
  if o.dmaAddr = 0 then (o, [])
  else if o.nonContiguous && en then gemPutPages o
  else ({ o with dmaAddr := 0 },
    [.entries o.sgt, .table o.sgt, o.dmaMemory, .pageArray o.pages])

/-- What is released is what was got, each once: by the allocation itself if it fails, and
by a later `rknpu_gem_free_buf` if it does not. -/
def Settled : Prop :=
  let r := gemAllocBuf en x o
  (r.ret < 0 → r.freed.Perm r.got) ∧
    (0 ≤ r.ret → (r.freed ++ (gemFreeBuf en r.obj).2).Perm r.got)

/-- Every call of `rknpu_gem_get_pages` succeeds. -/
def PagesSucceed : Prop :=
  (∃ p, x.getPages = .ok p) ∧ (∃ t, x.toSg = .ok t) ∧ x.mapSg ≠ 0 ∧
    (o.kernelMapping → x.vmap.isSome)

def TableSucceeds : Prop := x.table.isSome ∧ 0 ≤ x.getSgtable ∧ 0 ≤ x.toPages

/-- The memory comes from the second call of `dma_alloc_attrs`. -/
def FallsBack : Prop := x.dma = none ∧ !o.nonContiguous ∧ en ∧ x.fallback.isSome

/-- The buffer is allocated, by the fallback or at DMA address 0. -/
def Unfreeable : Prop :=
  if o.nonContiguous && en then PagesSucceed x o ∧ x.sgDmaAddress = 0
  else x.pageArray.isSome ∧ TableSucceeds x ∧ (FallsBack en x o ∨ ∃ c, x.dma = some (c, 0))

variable {en x o} {got freed : List Resource}

/-- What a success leaves for `rknpu_gem_put_pages`. -/
structure PagesGot (flags : Nat) (r : Outcome) : Prop where
  ret : r.ret = 0
  freed : r.freed = []
  got : r.got ≠ []
  flags : r.obj.flags = flags
  put : (gemPutPages r.obj).2.Perm r.got

theorem gemVmapPages_failed (h : o.kernelMapping ∧ x.vmap = none) (hperm : freed.Perm got) :
    (gemVmapPages x o got freed).ret < 0 ∧
      (gemVmapPages x o got freed).freed.Perm (gemVmapPages x o got freed).got := by
  simpa [gemVmapPages, h, enomem] using hperm

theorem gemVmapPages_got {p t : Pointer} (hp : o.pages = p) (ht : o.sgt = t) (hnull : t ≠ .null)
    (h : o.kernelMapping → x.vmap.isSome) :
    PagesGot o.flags (gemVmapPages x o [.shmem p, .table t, .entries t, .mapping t] freed) ∧
      (gemVmapPages x o [.shmem p, .table t, .entries t, .mapping t] freed).obj.dmaAddr =
        x.sgDmaAddress := by
  subst hp ht
  by_cases hk : o.kernelMapping
  · obtain ⟨v, hv⟩ := Option.isSome_iff_exists.mp (h hk)
    have hk' : o.flags.testBit 3 := hk
    refine ⟨⟨?_, ?_, ?_, ?_, ?_⟩, ?_⟩ <;>
      simp only [gemVmapPages, hk, hv, if_true, ne_eq, List.append_eq_nil_iff, reduceCtorEq,
        not_false_eq_true, false_and]
    simp only [gemPutPages, Object.kernelMapping, hk', hnull, ne_eq, not_false_eq_true, and_true,
      reduceCtorEq, if_true]
    exact List.reverse_perm [_, _, _, _, _]
  · have hk' : ¬o.flags.testBit 3 := hk
    refine ⟨⟨?_, ?_, ?_, ?_, ?_⟩, ?_⟩ <;>
      simp only [gemVmapPages, hk, if_false, ne_eq, reduceCtorEq, not_false_eq_true]
    simp only [gemPutPages, Object.kernelMapping, hk', hnull, ne_eq, not_false_eq_true, false_and,
      if_true, Bool.false_eq_true, if_false]
    exact List.reverse_perm [_, _, _, _]

/-- Every exit of `rknpu_gem_get_pages` gives back what it has got, or has all of it. -/
theorem gemGetPages_failed (h : ¬PagesSucceed x o) :
    (gemGetPages x o).ret < 0 ∧ (gemGetPages x o).freed.Perm (gemGetPages x o).got := by
  cases hp : x.getPages with
  | error e => simpa [gemGetPages, hp] using e.2
  | ok p =>
    cases ht : x.toSg with
    | error e => simpa [gemGetPages, hp, ht] using e.2
    | ok t =>
      by_cases hm : x.mapSg = 0
      · refine ⟨by simp [gemGetPages, hp, ht, hm, efault], ?_⟩
        simp only [gemGetPages, hp, ht, hm, if_true]
        exact List.reverse_perm [_, _, _]
      · have hv : o.kernelMapping ∧ x.vmap = none := by
          simp only [PagesSucceed, hp, ht] at h
          simpa [hm] using h
        simp only [gemGetPages, hp, ht, if_neg hm]
        exact gemVmapPages_failed hv (List.reverse_perm [_, _, _, _])

theorem gemGetPages_got (h : PagesSucceed x o) :
    PagesGot o.flags (gemGetPages x o) ∧ (gemGetPages x o).obj.dmaAddr = x.sgDmaAddress := by
  obtain ⟨⟨p, hp⟩, ⟨t, ht⟩, hm, hv⟩ := h
  simp only [gemGetPages, hp, ht, hm, if_false]
  exact gemVmapPages_got (o := { o with pages := .at p, numPages := o.size / pageSize, sgt := .at t })
    rfl rfl (by simp) hv

/-- What a success of the other branch leaves for `rknpu_gem_free_buf`. -/
structure MemoryGot (o : Object) (r : Outcome) : Prop where
  ret : 0 ≤ r.ret
  freed : r.freed = []
  flags : r.obj.flags = o.flags
  dmaAddr : r.obj.dmaAddr = o.dmaAddr
  got : r.got = [.pageArray r.obj.pages, r.obj.dmaMemory, .table r.obj.sgt, .entries r.obj.sgt]

theorem gemSgTable_failed (h : ¬TableSucceeds x) :
    (gemSgTable x o).ret < 0 ∧ (gemSgTable x o).freed.Perm (gemSgTable x o).got := by
  cases ht : x.table with
  | none =>
    simp only [gemSgTable, ht]
    exact ⟨by simp [enomem], List.reverse_perm [_, _]⟩
  | some t =>
    by_cases hg : x.getSgtable < 0
    · simp only [gemSgTable, ht, if_pos hg]
      exact ⟨hg, List.reverse_perm [_, _, _]⟩
    · have hp : x.toPages < 0 := by
        by_contra hp
        exact h ⟨by simp [ht], by omega, by omega⟩
      simp only [gemSgTable, ht, if_neg hg, if_pos hp]
      exact ⟨hp, List.reverse_perm [_, _, _, _]⟩

theorem gemSgTable_got (h : TableSucceeds x) : MemoryGot o (gemSgTable x o) := by
  obtain ⟨ht, hg, hp⟩ := h
  obtain ⟨t, ht⟩ := Option.isSome_iff_exists.mp ht
  simp only [gemSgTable, ht, if_neg (Int.not_lt.mpr hg), if_neg (Int.not_lt.mpr hp)]
  cases o.kernelMapping <;> exact ⟨hp, rfl, rfl, rfl, rfl⟩

theorem MemoryGot.free {r : Outcome} (h : MemoryGot o r) :
    (gemFreeBuf en r.obj).2.Perm r.got ↔ o.dmaAddr ≠ 0 ∧ (o.nonContiguous && en) = false := by
  have hcont : r.obj.nonContiguous = o.nonContiguous := by rw [Object.nonContiguous, h.flags]; rfl
  rw [h.got, gemFreeBuf, h.dmaAddr, hcont]
  by_cases ha : o.dmaAddr = 0
  · simp [ha]
  rw [if_neg ha]
  cases hn : o.nonContiguous && en
  · simpa [ha] using List.reverse_perm [_, _, _, _]
  · -- the pages are put back as those of the shmem file
    refine iff_of_false (fun hperm => ?_) (by simp)
    have hmem := hperm.mem_iff (a := .shmem r.obj.pages)
    simp [gemPutPages, Object.dmaMemory] at hmem

theorem gemAllocBuf_pages (ho : o.dmaAddr = 0) (hn : (o.nonContiguous && en) = true) :
    gemAllocBuf en x o = gemGetPages x { o with dmaAttrs := o.attrs } := by
  have hn' : (Object.nonContiguous { o with dmaAttrs := o.attrs } && en) = true := hn
  rw [gemAllocBuf, if_neg (not_not.mpr ho), if_pos hn']

theorem settled_pages (ho : o.dmaAddr = 0) (hn : (o.nonContiguous && en) = true) :
    Settled en x o ↔ ¬(PagesSucceed x o ∧ x.sgDmaAddress = 0) := by
  rw [Settled, gemAllocBuf_pages ho hn]
  by_cases h : PagesSucceed x o
  · obtain ⟨hgot, haddr⟩ := gemGetPages_got (o := { o with dmaAttrs := o.attrs }) h
    have hcont : ((gemGetPages x { o with dmaAttrs := o.attrs }).obj.nonContiguous && en) = true := by
      rw [Object.nonContiguous, hgot.flags]
      exact hn
    simp only [hgot.ret, hgot.freed, lt_irrefl, false_imp_iff, true_and, le_refl, true_imp_iff,
      List.nil_append, gemFreeBuf, haddr, hcont, if_true, h]
    by_cases ha : x.sgDmaAddress = 0
    · simpa [ha] using hgot.got
    · simpa [ha] using hgot.put
  · obtain ⟨hneg, hperm⟩ := gemGetPages_failed (o := { o with dmaAttrs := o.attrs }) h
    simp only [hneg, hperm, Int.not_le.mpr hneg, true_imp_iff, false_imp_iff, and_self, h, false_and,
      not_false_eq_true]

theorem gemAllocBuf_memory (ho : o.dmaAddr = 0) (hn : (o.nonContiguous && en) = false) :
    gemAllocBuf en x o =
      match x.pageArray with
      | none => ⟨-enomem, { o with dmaAttrs := o.attrs, pages := .null }, [], []⟩
      | some p =>
        let r := gemDmaAlloc en x { o with dmaAttrs := o.attrs, pages := .at p }
        if r.1 then gemSgTable x r.2
        else ⟨-einval, r.2, [.pageArray (.at p)], [.pageArray (.at p)]⟩ := by
  have hn' : (Object.nonContiguous { o with dmaAttrs := o.attrs } && en) = false := hn
  rw [gemAllocBuf, if_neg (not_not.mpr ho), if_neg (by rw [hn']; simp)]

theorem settled_table (o' : Object)
    (h : gemAllocBuf en x o = gemSgTable x o') :
    Settled en x o ↔
      (TableSucceeds x → o'.dmaAddr ≠ 0 ∧ (o'.nonContiguous && en) = false) := by
  rw [Settled, h]
  by_cases ht : TableSucceeds x
  · have hgot := gemSgTable_got (o := o') ht
    rw [← hgot.free]
    simp only [hgot.ret, hgot.freed, Int.not_lt.mpr hgot.ret, false_imp_iff, true_and, true_imp_iff,
      List.nil_append, ht]
  · obtain ⟨hneg, hperm⟩ := gemSgTable_failed (o := o') ht
    simp only [hneg, hperm, Int.not_le.mpr hneg, true_imp_iff, false_imp_iff, and_self, ht]

theorem settled_failed {r : Int} {o' : Object} {l : List Resource} (hr : r < 0)
    (h : gemAllocBuf en x o = ⟨r, o', l, l⟩) : Settled en x o := by
  rw [Settled, h]
  exact ⟨fun _ => List.Perm.refl _, fun h => absurd hr (Int.not_lt.mpr h)⟩

theorem settled_memory (ho : o.dmaAddr = 0) (hn : (o.nonContiguous && en) = false) :
    Settled en x o ↔ ¬(x.pageArray.isSome ∧ TableSucceeds x ∧
      (FallsBack en x o ∨ ∃ c, x.dma = some (c, 0))) := by
  have hdef := gemAllocBuf_memory (x := x) ho hn
  cases hp : x.pageArray with
  | none =>
    rw [hp] at hdef
    simpa using settled_failed (by simp [enomem]) hdef
  | some p =>
    rw [hp] at hdef
    cases hd : x.dma with
    | some m =>
      obtain ⟨c, addr⟩ := m
      have hcont : ∀ a b, (Object.nonContiguous { o with
        dmaAttrs := o.attrs, pages := .at p, cookie := a, dmaAddr := b } && en) = false := fun _ _ => hn
      simp only [gemDmaAlloc, hd, if_true] at hdef
      rw [settled_table _ hdef]
      simp [FallsBack, hd, hcont]
    | none =>
      by_cases hf : !o.nonContiguous && en
      · have hf' : (!Object.nonContiguous { o with dmaAttrs := o.attrs, pages := .at p } && en) = true :=
          hf
        have hflags : o.flags.testBit 0 = false ∧ en = true := by simpa [Object.nonContiguous] using hf
        cases hm : x.fallback with
        | some m =>
          simp only [gemDmaAlloc, hd, hf', hm, if_true] at hdef
          rw [settled_table _ hdef]
          simp [FallsBack, hd, hm, hflags, Object.nonContiguous]
        | none =>
          simp only [gemDmaAlloc, hd, hf', hm, if_true] at hdef
          simpa [FallsBack, hd, hm] using settled_failed (by simp [einval]) hdef
      · have hf' :
            (!Object.nonContiguous { o with dmaAttrs := o.attrs, pages := .at p } && en) = false :=
          (Bool.not_eq_true _).mp hf
        simp only [gemDmaAlloc, hd, hf'] at hdef
        have hno : ¬FallsBack en x o := by
          rintro ⟨-, hc, he, -⟩
          simp [he, hc] at hf
        simpa [hno] using settled_failed (by simp [einval]) hdef

/-- A plain buffer is released as it was allocated exactly if it is not one that the
fallback has got, nor one at DMA address 0. -/
theorem buffer_settled_iff (en : Bool) (x : Reply) (flags size : Nat) :
    Settled en x { Object.init size with flags := flags } ↔
      ¬Unfreeable en x { Object.init size with flags := flags } := by
  cases hn : Object.nonContiguous { Object.init size with flags := flags } && en
  · rw [settled_memory rfl hn, Unfreeable, hn]
    rfl
  · rw [settled_pages rfl hn, Unfreeable, hn]
    rfl

def fallbackReply : Reply where
  pageArray := some 1
  dma := none
  fallback := some (2, 0x1000)
  table := some 3
  getSgtable := 0
  toPages := 0
  getPages := .ok 4
  toSg := .ok 5
  mapSg := 1
  vmap := none
  sgDmaAddress := 0x1000

theorem buffer_unsettled : ¬∀ (en : Bool) (x : Reply) (flags size : Nat),
    Settled en x { Object.init size with flags := flags } := by
  intro h
  have hs := (h true fallbackReply 0 4096).2 (by decide)
  revert hs
  decide

end Rknpu.Buffer

import Rknpu.CacheBuffer

namespace Rknpu.Buffer

open PageTable

def enxio : Int := 6

/-- What `rknpu_gem_prime_import_sg_table` is given: the size of the buffer, the address, the
number and the pointer of its segments, and what the kernel answers. -/
structure Import where
  size : Nat
  sgDmaAddress : Nat
  nents : Nat
  sgt : Nat
  pageArray : Option Nat
  toPages : Int

/-- `rknpu_gem_prime_import_sg_table`, once `rknpu_gem_init` has succeeded. -/
def gemPrimeImport (x : Import) : Except Int Object :=
  let o := { Object.init x.size with dmaAddr := x.sgDmaAddress }
  match x.pageArray with
  | none => .error (-enomem)
  | some p =>
    let o := { o with pages := .at p }
    if x.toPages < 0 then .error x.toPages
    else
      let o := { o with sgt := .at x.sgt }
      .ok (if x.nents = 1 then o else { o with flags := o.flags ||| 1 })

inductive Path where
  | allocBuf (en : Bool) (x : Reply) (flags size : Nat)
  | withCache (dev : CacheDevice) (K : Kernel) (pages sgt : Nat) (o : Object) (t : CacheType)
      (T : Table)
  | primeImport (x : Import)

def Path.object : Path → Option Object
  | .allocBuf en x flags size =>
    let r := gemAllocBuf en x { Object.init size with flags := flags }
    if r.ret < 0 then none else some r.obj
  | .withCache dev K pages sgt o t T =>
    let r := gemAllocBufWithCache dev K pages sgt { o with pages := .null } t T
    if r.ret ≠ 0 then none else some r.obj
  | .primeImport x => (gemPrimeImport x).toOption

/-- `rknpu_gem_prime_vmap`: how many pages it maps. -/
def gemPrimeVmap (o : Object) : Option Nat := if o.pages = .null then none else some o.numPages

/-- The loop of `__vm_map_pages`, from page `i` of the VMA on: its result, and the pages of the
object that it has inserted. -/
def insertPages (insert : Nat → Int) (offset : Nat) : Nat → Nat → Int × List Nat
  | 0, _ => (0, [])
  | n + 1, i =>
    if insert i < 0 then (insert i, [])
    else
      let r := insertPages insert offset n (i + 1)
      (r.1, (offset + i) :: r.2)

/-- `__vm_map_pages` for a VMA of `count` pages -/
def vmMapPages (insert : Nat → Int) (num offset count : Nat) : Int × List Nat :=
  if num ≤ offset then (-enxio, [])
  else if num - offset < count then (-enxio, [])
  else insertPages insert offset count 0

/-- `rknpu_gem_mmap_pages`; `offset` is `vm_pgoff`. -/
def gemMmapPages (insert : Nat → Int) (o : Object) (offset count : Nat) : Int × List Nat :=
  vmMapPages insert o.numPages offset count

/-- The page count belongs to the pages: the buffer is mapped as a whole, and a VMA is accepted
exactly if it is within the buffer. -/
structure Counted (o : Object) : Prop where
  count : o.pages ≠ .null → o.numPages = o.size / pageSize
  vmap : o.pages ≠ .null → gemPrimeVmap o = some (o.size / pageSize)
  mmap : o.pages ≠ .null → ∀ offset count, 0 < count →
    ((gemMmapPages (fun _ => 0) o offset count).1 = 0 ↔ offset + count ≤ o.size / pageSize)

/-- The memory of a plain buffer comes from `dma_alloc_attrs`, and every call succeeds. -/
def MemorySucceeds (en : Bool) (x : Reply) (o : Object) : Prop :=
  (o.nonContiguous && en) = false ∧ x.pageArray.isSome ∧ (x.dma.isSome ∨ FallsBack en x o) ∧
    TableSucceeds x

def Path.uncounted : Path → Prop
  | .allocBuf en x flags size =>
    MemorySucceeds en x { Object.init size with flags := flags } ∧ size / pageSize ≠ 0
  | .withCache _ _ _ _ _ _ _ => False
  | .primeImport x => x.pageArray.isSome ∧ 0 ≤ x.toPages ∧ x.size / pageSize ≠ 0

variable {o : Object} {en : Bool} {x : Reply}

theorem insertPages_zero {offset n i : Nat} : (insertPages (fun _ => 0) offset n i).1 = 0 := by
  induction n generalizing i with
  | zero => rfl
  | succ n ih => simpa [insertPages] using ih

theorem vmMapPages_iff {num offset count : Nat} (h : 0 < count) :
    (vmMapPages (fun _ => 0) num offset count).1 = 0 ↔ offset + count ≤ num := by
  unfold vmMapPages
  by_cases hnum : num ≤ offset
  · rw [if_pos hnum]
    exact iff_of_false (by decide) (by omega)
  · rw [if_neg hnum]
    by_cases hcount : num - offset < count
    · rw [if_pos hcount]
      exact iff_of_false (by decide) (by omega)
    · rw [if_neg hcount]
      exact iff_of_true insertPages_zero (by omega)

theorem counted_iff : Counted o ↔ (o.pages ≠ .null → o.numPages = o.size / pageSize) := by
  refine ⟨Counted.count, fun h => ⟨h, fun hp => ?_, fun hp offset count hc => ?_⟩⟩
  · rw [gemPrimeVmap, if_neg hp, h hp]
  · rw [gemMmapPages, vmMapPages_iff hc, h hp]

theorem gemGetPages_counted (h : PagesSucceed x o) :
    (gemGetPages x o).obj.numPages = (gemGetPages x o).obj.size / pageSize := by
  obtain ⟨⟨p, hp⟩, ⟨t, ht⟩, hm, hv⟩ := h
  simp only [gemGetPages, hp, ht, hm, if_false, gemVmapPages]
  split
  · split <;> rfl
  · rfl

structure SameSizes (o o' : Object) : Prop where
  size : o'.size = o.size
  sramSize : o'.sramSize = o.sramSize
  nbufSize : o'.nbufSize = o.nbufSize

structure SamePages (o o' : Object) : Prop extends SameSizes o o' where
  pages : o'.pages = o.pages
  numPages : o'.numPages = o.numPages

theorem gemDmaAlloc_same : SamePages o (gemDmaAlloc en x o).2 := by
  unfold gemDmaAlloc
  split
  · exact ⟨⟨rfl, rfl, rfl⟩, rfl, rfl⟩
  · split
    · dsimp only
      split <;> exact ⟨⟨rfl, rfl, rfl⟩, rfl, rfl⟩
    · exact ⟨⟨rfl, rfl, rfl⟩, rfl, rfl⟩

theorem gemDmaAlloc_succeeds : (gemDmaAlloc en x o).1 ↔ x.dma.isSome ∨ FallsBack en x o := by
  unfold gemDmaAlloc FallsBack
  cases x.dma with
  | some m => simp
  | none => cases x.fallback <;> cases o.nonContiguous <;> cases en <;> simp

theorem gemSgTable_same : SamePages o (gemSgTable x o).obj := by
  have hkv : SamePages o (if o.kernelMapping then { o with kvAddr := o.cookie } else o) := by
    split <;> exact ⟨⟨rfl, rfl, rfl⟩, rfl, rfl⟩
  unfold gemSgTable
  dsimp only
  split
  · exact hkv
  · split
    · exact hkv
    · split
      · exact hkv
      · exact ⟨⟨hkv.size, hkv.sramSize, hkv.nbufSize⟩, hkv.pages, hkv.numPages⟩

/-- The branch of `rknpu_gem_alloc_buf` that allocates DMA memory never counts the pages. -/
theorem gemAllocBuf_uncounted (ho : o.dmaAddr = 0) (hn : (o.nonContiguous && en) = false) :
    (MemorySucceeds en x o → 0 ≤ (gemAllocBuf en x o).ret ∧ (gemAllocBuf en x o).obj.pages ≠ .null ∧
      (gemAllocBuf en x o).obj.numPages = o.numPages ∧ (gemAllocBuf en x o).obj.size = o.size) ∧
    (¬MemorySucceeds en x o → (gemAllocBuf en x o).ret < 0) := by
  have hdef := gemAllocBuf_memory (x := x) ho hn
  cases hp : x.pageArray with
  | none =>
    rw [hp] at hdef
    rw [hdef]
    simp [MemorySucceeds, hp, enomem]
  | some p =>
    rw [hp] at hdef
    dsimp only at hdef
    have halloc : (gemDmaAlloc en x { o with dmaAttrs := o.attrs, pages := .at p }).1 ↔
        x.dma.isSome ∨ FallsBack en x { o with dmaAttrs := o.attrs, pages := .at p } :=
      gemDmaAlloc_succeeds
    by_cases hmem : x.dma.isSome ∨ FallsBack en x o
    · rw [if_pos (halloc.mpr hmem)] at hdef
      have hs : SamePages { o with dmaAttrs := o.attrs, pages := .at p }
          (gemDmaAlloc en x { o with dmaAttrs := o.attrs, pages := .at p }).2 := gemDmaAlloc_same
      have hs' := gemSgTable_same (x := x)
        (o := (gemDmaAlloc en x { o with dmaAttrs := o.attrs, pages := .at p }).2)
      by_cases ht : TableSucceeds x
      · have hyes : MemorySucceeds en x o := ⟨hn, by simp [hp], hmem, ht⟩
        rw [hdef, hs'.pages, hs'.numPages, hs'.size, hs.pages, hs.numPages, hs.size]
        exact ⟨fun _ => ⟨(gemSgTable_got ht).ret, by simp, rfl, rfl⟩, fun hno => absurd hyes hno⟩
      · have hno : ¬MemorySucceeds en x o := fun h => ht h.2.2.2
        rw [hdef]
        exact ⟨fun h => absurd h hno, fun _ => (gemSgTable_failed ht).1⟩
    · have hno : ¬MemorySucceeds en x o := fun h => hmem h.2.2.1
      rw [if_neg (fun h => hmem (halloc.mp h))] at hdef
      rw [hdef]
      exact ⟨fun h => absurd h hno, fun _ => by simp [einval]⟩

theorem gemAddPages_counted {K : Kernel} {t : CacheType} {T : Table} {pages sgt : Nat}
    (h : (gemAddPages K pages sgt o t T).ret = 0) :
    (gemAddPages K pages sgt o t T).obj.numPages =
      (gemAddPages K pages sgt o t T).obj.size / pageSize := by
  unfold gemAddPages at h ⊢
  split at h
  · rename_i e _
    exact absurd h (ne_of_lt e.2)
  · rename_i l _
    dsimp only at h ⊢
    split at h
    · rename_i e _
      exact absurd h (ne_of_lt e.2)
    · unfold gemMapDdr
      dsimp only
      split <;> rfl

theorem gemAllocBufWithCache_counted {dev : CacheDevice} {K : Kernel} {t : CacheType} {T : Table}
    {pages sgt : Nat} (ho : o.pages = .null) (h : (gemAllocBufWithCache dev K pages sgt o t T).ret = 0)
    (hp : (gemAllocBufWithCache dev K pages sgt o t T).obj.pages ≠ .null) :
    (gemAllocBufWithCache dev K pages sgt o t T).obj.numPages =
      (gemAllocBufWithCache dev K pages sgt o t T).obj.size / pageSize := by
  unfold gemAllocBufWithCache at h hp ⊢
  split at h
  · exact absurd h (by simp [einval])
  · rename_i hdom
    rw [if_neg hdom] at hp ⊢
    dsimp only at h hp ⊢
    split at h
    · exact absurd h (by simp [enomem])
    · rename_i hiova
      rw [if_neg hiova] at hp ⊢
      split at h
      · rename_i hret
        exact absurd h hret
      · rename_i hret
        rw [if_neg hret] at hp ⊢
        split at h
        · rename_i hsize
          rw [if_pos hsize] at hp
          exact absurd ho hp
        · rename_i hsize
          rw [if_neg hsize]
          exact gemAddPages_counted h

/-- The pages of an object are counted exactly if it is not built around an array of pages
without setting their number: from DMA memory, or by an import. -/
theorem page_count_iff (p : Path) : (∀ o, p.object = some o → Counted o) ↔ ¬p.uncounted := by
  simp only [counted_iff]
  cases p with
  | allocBuf en x flags size =>
    dsimp only [Path.object, Path.uncounted]
    cases hn : Object.nonContiguous { Object.init size with flags := flags } && en
    · obtain ⟨hyes, hno⟩ := gemAllocBuf_uncounted (x := x) rfl hn
      by_cases hm : MemorySucceeds en x { Object.init size with flags := flags }
      · obtain ⟨hret, hpages, hnum, hsize⟩ := hyes hm
        rw [if_neg (Int.not_lt.mpr hret)]
        simp only [Option.some.injEq, forall_eq', hpages, hnum, hsize, ne_eq, not_false_eq_true,
          true_imp_iff, hm, true_and, not_not]
        exact eq_comm
      · rw [if_pos (hno hm)]
        simp [hm]
    · have hm : ¬MemorySucceeds en x { Object.init size with flags := flags } := fun h => by
        simp [h.1] at hn
      refine iff_of_true (fun o ho _ => ?_) fun h => hm h.1
      rw [gemAllocBuf_pages rfl hn] at ho
      split at ho
      · cases ho
      · rename_i hret
        cases ho
        by_cases hs : PagesSucceed x { Object.init size with
          flags := flags, dmaAttrs := Object.attrs { Object.init size with flags := flags } }
        · exact gemGetPages_counted hs
        · exact absurd (gemGetPages_failed hs).1 hret
  | withCache dev K pages sgt o t T =>
    refine iff_of_true (fun o' ho hp => ?_) not_false
    simp only [Path.object] at ho
    split at ho
    · cases ho
    · rename_i hret
      cases ho
      exact gemAllocBufWithCache_counted rfl (not_not.mp hret) hp
  | primeImport x =>
    simp only [Path.object, Path.uncounted, gemPrimeImport]
    cases x.pageArray with
    | none => simp [Except.toOption]
    | some p =>
      dsimp only
      by_cases hp : x.toPages < 0
      · simp [hp, Except.toOption]
      · rw [if_neg hp]
        simp only [Except.toOption, Option.some.injEq, forall_eq', Option.isSome_some, true_and,
          Int.not_lt.mp hp, not_not]
        have hcount : (Pointer.at p ≠ .null → 0 = x.size / pageSize) ↔ x.size / pageSize = 0 := by
          rw [eq_comm]
          exact ⟨fun h => h (by simp), fun h _ => h⟩
        split <;> exact hcount

def oneBuffer : Path := .allocBuf false { fallbackReply with dma := some (2, 0x1000) } 0 4096

theorem buffer_uncounted : ¬∀ (p : Path) (o : Object), p.object = some o → Counted o := by
  intro h
  have hc := h oneBuffer _ rfl
  exact absurd (hc.count (by decide)) (by decide)

end Rknpu.Buffer

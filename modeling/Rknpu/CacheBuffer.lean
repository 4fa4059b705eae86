import Rknpu.PageTable
import Rknpu.Buffer

namespace Rknpu.Buffer

open AddressMap PageTable

def Object.cached (o : Object) (pages : List Nat) : CachedObject where
  flags := o.flags
  size := o.size
  sramSize := o.sramSize
  nbufSize := o.nbufSize
  rangeStart := o.rangeStart
  cacheWithSgt := o.cacheWithSgt
  coreMask := o.coreMask
  iovaStart := o.iovaStart
  iovaSize := o.iovaSize
  dmaAddr := o.dmaAddr
  pages := pages

def Object.cacheSize (o : Object) : CacheType → Nat
  | .sram => o.sramSize
  | .nbuf => o.nbufSize

def Object.range (o : Object) : Resource := .iova o.iovaStart o.iovaSize

/-- The table of the domain after calls of `iommu_map` that have succeeded. -/
def mapAll : List Mapping → Table → Table
  | [], T => T
  | m :: l, T => mapAll l (mapRun (m.addr / pageSize) (m.phys / pageSize) (m.size / pageSize) T)

/-- `iommu_unmap`, which refuses what is not made of pages. -/
def iommuUnmap (addr size : Nat) (T : Table) : Table :=
  if pageSize ∣ addr ∧ pageSize ∣ size then unmapRun (size / pageSize) (addr / pageSize) T else T

variable (dev : CacheDevice) (K : Kernel)

/-- The loop of `rknpu_gem_alloc_buf_with_cache` over the segments of the pages: its result,
the mappings it has made, and what is left in `length`. -/
def ddrLoop : List Segment → Nat → Nat → Int × List Mapping × Nat
  | [], _, length => (0, [], length)
  | s :: sgl, offset, length =>
    let size := if length < s.length then length else s.length
    let ret := K.iommuMap offset s.phys size
    if ret ≠ 0 then (ret, [], length)
    else if length - size = 0 then (0, [⟨offset, s.phys, size⟩], 0)
    else
      let r := ddrLoop sgl (offset + size) (length - size)
      (r.1, ⟨offset, s.phys, size⟩ :: r.2.1, r.2.2)

structure CacheOutcome extends Outcome where
  table : Table

/-- The part of `rknpu_gem_alloc_buf_with_cache` that maps the pages behind the cache;
`sgt` is the pointer to their segments. -/
def gemMapDdr (sgt : Nat) (o : Object) (t : CacheType) (sgl : List Segment) (T : Table) :
    CacheOutcome :=
  let cacheSize := o.cacheSize t
  let start := o.iovaStart + cacheSize
  let o := { o with sgt := .at sgt }
  let got := [o.range, .shmem o.pages, .table o.sgt, .entries o.sgt]
  let r := ddrLoop K sgl start o.size
  let T := mapAll r.2.1 T
  if r.1 ≠ 0 then
    let T := if o.size - r.2.2 > 0 then iommuUnmap start (o.size - r.2.2) T else T
    ⟨⟨r.1, o, got, [.entries o.sgt, .table o.sgt, .shmem o.pages, o.range]⟩,
      iommuUnmap o.iovaStart cacheSize T⟩
  else ⟨⟨0, o, got, []⟩, T⟩

def gemAddPages (pages sgt : Nat) (o : Object) (t : CacheType) (T : Table) : CacheOutcome :=
  match K.getPages (o.size / pageSize) with
  | .error e =>
    ⟨⟨e, { o with pages := .err e }, [o.range], [o.range]⟩, iommuUnmap o.iovaStart (o.cacheSize t) T⟩
  | .ok l =>
    let o := { o with pages := .at pages, numPages := o.size / pageSize }
    match K.toSg l with
    | .error e =>
      ⟨⟨e, { o with sgt := .err e }, [o.range, .shmem o.pages], [.shmem o.pages, o.range]⟩,
        iommuUnmap o.iovaStart (o.cacheSize t) T⟩
    | .ok sg => gemMapDdr K sgt o t sg.sgl T

/-- `rknpu_gem_alloc_buf_with_cache`; the kernel puts the pages and their segments at the
pointers `pages` and `sgt`. -/
def gemAllocBufWithCache (pages sgt : Nat) (o : Object) (t : CacheType) (T : Table) : CacheOutcome :=
  if !K.domain then ⟨⟨-einval, o, [], []⟩, T⟩
  else
    let iovaSize := K.iovaAlign (o.cacheSize t + o.size)
    let iova := K.allocIova iovaSize (!o.flags.testBit 10)
    let o := { o with iovaSize := iovaSize, iovaStart := iova }
    if iova = 0 then ⟨⟨-enomem, o, [], []⟩, T⟩
    else
      let cache := iommuMapCache dev K (o.cached []) t
      let T := mapAll cache.2 T
      if cache.1 ≠ 0 then ⟨⟨cache.1, o, [o.range], [o.range]⟩, T⟩
      else
        let o := { o with dmaAddr := iova }
        if o.size = 0 then ⟨⟨0, o, [o.range], []⟩, T⟩
        else gemAddPages K pages sgt o t T

/-- `rknpu_gem_free_buf_with_cache`: what it releases, and the table. -/
def gemFreeBufWithCache (o : Object) (t : CacheType) (T : Table) : List Resource × Table :=
  let T' := iommuUnmap o.iovaStart (o.cacheSize t) T
  let T' := if o.size > 0 then iommuUnmap (o.iovaStart + o.cacheSize t) o.size T' else T'
  ((if K.domain then [o.range] else []) ++ (if o.pages ≠ .null then [.shmem o.pages] else []) ++
    (if o.sgt ≠ .null then [.entries o.sgt, .table o.sgt] else []),
    if K.domain then T' else T)

/-- All or nothing, `T` being the table before: after a failure the domain is as it was, with
nothing in the range, and everything is given back; after a success this is what
`rknpu_gem_free_buf_with_cache` does. -/
structure AllOrNothing (t : CacheType) (T : Table) (r : CacheOutcome) : Prop where
  restored : r.ret ≠ 0 → r.table = T
  empty : r.ret ≠ 0 → r.obj.iovaStart ≠ 0 → ∀ q, r.obj.iovaStart ≤ q * pageSize →
    q * pageSize < r.obj.iovaStart + r.obj.iovaSize → r.table q = none
  released : r.ret ≠ 0 → r.freed.Perm r.got
  freeUnmaps : r.ret = 0 → (gemFreeBufWithCache K r.obj t r.table).2 = T
  freeReleases : r.ret = 0 → (r.freed ++ (gemFreeBufWithCache K r.obj t r.table).1).Perm r.got

/-- The entry behind the first `m` bytes cannot be mapped, and those before it can. -/
inductive FailsAfter (call : Nat → Nat → Nat → Int) : List Segment → Nat → Nat → Nat → Prop
  | here {s : Segment} {sgl : List Segment} {a n : Nat} :
      call a s.phys (min n s.length) ≠ 0 → FailsAfter call (s :: sgl) a n 0
  | later {s : Segment} {sgl : List Segment} {a n m : Nat} :
      call a s.phys s.length = 0 → s.length < n →
      FailsAfter call sgl (a + s.length) (n - s.length) m →
      FailsAfter call (s :: sgl) a n (s.length + m)

def total (l : List Mapping) : Nat := (l.map Mapping.size).sum

def iova (o : Object) (t : CacheType) : Nat :=
  K.allocIova (K.iovaAlign (o.cacheSize t + o.size)) (!o.flags.testBit 10)

/-- Something of the cache is mapped and stays so: a later entry cannot be mapped, or the
cache has a size that cannot be unmapped. -/
def LeavesCache (o : Object) (t : CacheType) : Prop :=
  K.domain ∧ iova K o t ≠ 0 ∧
    ((∃ m, 0 < m ∧
        FailsAfter K.iommuMap (dev.cacheBlocks (o.cached []) t) (iova K o t) (o.cacheSize t) m) ∨
      (¬pageSize ∣ o.cacheSize t ∧
        (∀ m, ¬FailsAfter K.iommuMap (dev.cacheBlocks (o.cached []) t) (iova K o t) (o.cacheSize t) m) ∧
        0 < (bytesOf (dev.cacheBlocks (o.cached []) t)).length))

variable {dev K} {call : Nat → Nat → Nat → Int} {sgl : List Segment} {a n m : Nat} {T : Table}
  {o : Object} {t : CacheType}

@[simp] theorem total_nil : total [] = 0 := rfl
@[simp] theorem total_cons (m : Mapping) (l : List Mapping) : total (m :: l) = m.size + total l := rfl

theorem failsAfter_iff : FailsAfter call sgl a n m ↔
    (mapBlocks call Mapping.mk sgl a n).1 ≠ 0 ∧ total (mapBlocks call Mapping.mk sgl a n).2 = m := by
  induction sgl generalizing a n m with
  | nil =>
    refine iff_of_false (fun h => ?_) (by simp [mapBlocks])
    cases h
  | cons s sgl ih =>
    simp only [mapBlocks, clipped]
    by_cases hcall : call a s.phys (min n s.length) = 0
    · by_cases hlt : s.length < n
      · have hmin : min n s.length = s.length := by omega
        have hmore : n - s.length ≠ 0 := by omega
        rw [hmin] at hcall
        simp only [hmin, hcall, hmore, ne_eq, not_true_eq_false, if_false, total_cons]
        constructor
        · intro h
          cases h with
          | here h => exact absurd hcall (hmin ▸ h)
          | later _ _ h =>
            obtain ⟨hret, htot⟩ := ih.mp h
            exact ⟨hret, by rw [htot]⟩
        · rintro ⟨hret, rfl⟩
          exact .later hcall hlt (ih.mpr ⟨hret, rfl⟩)
      · have hend : n - min n s.length = 0 := by omega
        simp only [hcall, hend, ne_eq, not_true_eq_false, if_false, if_true, false_and, iff_false]
        intro h
        cases h with
        | here h => exact h hcall
        | later _ h => exact hlt h
    · simp only [hcall, ne_eq, not_false_eq_true, if_true, total_nil, true_and]
      constructor
      · intro h
        cases h with
        | here => rfl
        | later h hlt =>
          rw [Nat.min_eq_right (Nat.le_of_lt hlt)] at hcall
          exact absurd h hcall
      · rintro rfl
        exact .here hcall

theorem ddrLoop_eq : ddrLoop K sgl a n =
    ((mapBlocks K.iommuMap Mapping.mk sgl a n).1, (mapBlocks K.iommuMap Mapping.mk sgl a n).2,
      n - total (mapBlocks K.iommuMap Mapping.mk sgl a n).2) := by
  induction sgl generalizing a n with
  | nil => rfl
  | cons s sgl ih =>
    simp only [ddrLoop, mapBlocks, clipped]
    split
    · rfl
    · split <;> rename_i hend
      · simp only [total_cons, total_nil, hend, Nat.add_zero]
      · simp only [ih, total_cons, Nat.sub_sub]

structure Stretch (T T' : Table) (a n k : Nat) : Prop where
  pages : Extends T T' (a / pageSize) (k / pageSize)
  dvd : pageSize ∣ k
  le : k ≤ n
  start : k ≠ 0 → pageSize ∣ a

theorem mapBlocks_stretch : Stretch T (mapAll (mapBlocks K.iommuMap Mapping.mk sgl a n).2 T) a n
    (total (mapBlocks K.iommuMap Mapping.mk sgl a n).2) := by
  have hnone {a n : Nat} {T : Table} : Stretch T T a n 0 :=
    ⟨Nat.zero_div pageSize ▸ Extends.refl, dvd_zero _, Nat.zero_le _, fun h => absurd rfl h⟩
  induction sgl generalizing a n T with
  | nil => exact hnone
  | cons s sgl ih =>
    simp only [mapBlocks, clipped]
    by_cases hcall : K.iommuMap a s.phys (min n s.length) = 0
    · obtain ⟨ha, -, hsize⟩ := K.iommuMap_dvd hcall
      have hrun : Extends T (mapRun (a / pageSize) (s.phys / pageSize) (min n s.length / pageSize) T)
        (a / pageSize) (min n s.length / pageSize) := extends_mapRun
      simp only [hcall, ne_eq, not_true_eq_false, if_false]
      split <;> rename_i hend
      · simp only [mapAll, total_cons, total_nil, Nat.add_zero]
        exact ⟨hrun, hsize, Nat.min_le_left _ _, fun _ => ha⟩
      · obtain ⟨hext, hdvd, hle, -⟩ := ih (a := a + min n s.length) (n := n - min n s.length)
          (T := mapRun (a / pageSize) (s.phys / pageSize) (min n s.length / pageSize) T)
        rw [Nat.add_div_of_dvd_right ha] at hext
        simp only [mapAll, total_cons]
        refine ⟨?_, hsize.add hdvd, by omega, fun _ => ha⟩
        rw [Nat.add_div_of_dvd_right hsize]
        exact hrun.trans hext
    · simp only [hcall, ne_eq, not_false_eq_true, if_true]
      exact hnone

theorem mapBlocks_total (h : (mapBlocks K.iommuMap Mapping.mk sgl a n).1 = 0) :
    total (mapBlocks K.iommuMap Mapping.mk sgl a n).2 = min n (bytesOf sgl).length := by
  induction sgl generalizing a n with
  | nil => simp [mapBlocks, bytesOf]
  | cons s sgl ih =>
    have hb : (bytesOf (s :: sgl)).length = s.length + (bytesOf sgl).length := by
      simp [bytesOf, length_bytes]
    obtain ⟨-, hnext⟩ := mapBlocks_cons h
    by_cases hn : n ≤ s.length
    · rw [if_pos hn] at hnext
      rw [hnext, hb]
      simp
      omega
    · rw [if_neg hn] at hnext
      rw [hnext.2, total_cons, ih hnext.1, hb]
      dsimp only
      omega

theorem Stretch.eq {T' : Table} (h : Stretch T T' a n 0) : T' = T := by
  have hp := h.pages
  rw [Nat.zero_div] at hp
  exact hp.eq

theorem iommuUnmap_of_not_dvd (h : ¬(pageSize ∣ a ∧ pageSize ∣ n)) : iommuUnmap a n T = T := if_neg h

theorem iommuUnmap_stretch {T' : Table} {k : Nat} (hS : Stretch T T' a n k) (ha : pageSize ∣ a)
    (hn : pageSize ∣ n ∨ k = 0) (hfree : Free T (a / pageSize) (n / pageSize)) :
    iommuUnmap a n T' = T := by
  by_cases hdvd : pageSize ∣ n
  · have hle : k / pageSize ≤ n / pageSize := Nat.div_le_div_right hS.le
    rw [iommuUnmap, if_pos ⟨ha, hdvd⟩, unmapRun_eq hS.pages.mapped hle]
    · exact hS.pages.clear (hfree.mono (Nat.le_refl _) (Nat.add_le_add_left hle _))
    · intro hlt
      rw [hS.pages.other (a / pageSize + k / pageSize) (by omega)]
      exact hfree _ (Nat.le_add_right _ _) (Nat.add_lt_add_left hlt _)
  · obtain rfl := hn.resolve_left hdvd
    rw [iommuUnmap_of_not_dvd fun h => hdvd h.2]
    exact hS.eq

/-- The object has its range, and `k` bytes of its cache are mapped in `T'`. -/
structure CacheMapped (o : Object) (t : CacheType) (T T' : Table) (k : Nat) : Prop where
  stretch : Stretch T T' o.iovaStart (o.cacheSize t) k
  start : pageSize ∣ o.iovaStart
  size : pageSize ∣ o.size
  fresh : ∀ q, o.iovaStart ≤ q * pageSize → q * pageSize < o.iovaStart + o.iovaSize → T q = none
  fits : o.cacheSize t + o.size ≤ o.iovaSize

namespace CacheMapped

variable {T' : Table} {k : Nat}

theorem free (h : CacheMapped o t T T' k) {b n : Nat} (hb : pageSize ∣ b) (hle : o.iovaStart ≤ b)
    (hn : b + n ≤ o.iovaStart + o.iovaSize) : Free T (b / pageSize) (n / pageSize) := by
  intro r hr hr'
  obtain ⟨c, rfl⟩ := hb
  have hpos : 0 < pageSize := by decide
  rw [Nat.mul_div_cancel_left _ hpos] at hr hr'
  have hlow : pageSize * c ≤ r * pageSize := by
    rw [Nat.mul_comm r]
    exact Nat.mul_le_mul_left _ hr
  have hhigh : (r + 1) * pageSize ≤ pageSize * c + n := by
    have hmul : (r + 1) * pageSize ≤ (c + n / pageSize) * pageSize := Nat.mul_le_mul_right _ (by omega)
    have hdiv := Nat.div_mul_le_self n pageSize
    rw [Nat.add_mul c, Nat.mul_comm c] at hmul
    omega
  rw [Nat.add_mul, Nat.one_mul] at hhigh
  exact h.fresh r (by omega) (by omega)

/-- `rknpu_gem_alloc_buf_with_cache` takes the cache out of the domain again. -/
theorem unmapCache (h : CacheMapped o t T T' k) (hk : pageSize ∣ o.cacheSize t ∨ k = 0) :
    iommuUnmap o.iovaStart (o.cacheSize t) T' = T :=
  iommuUnmap_stretch h.stretch h.start hk (h.free h.start (Nat.le_refl _) (by have := h.fits; omega))

theorem kept (h : CacheMapped o t T T' k) (hk : 0 < k) : T' ≠ T := by
  intro he
  obtain ⟨c, rfl⟩ := h.stretch.dvd
  have hpos : 0 < pageSize := by decide
  have hc : 0 < c := Nat.pos_of_mul_pos_left hk
  have hm := h.stretch.pages.mapped (o.iovaStart / pageSize) (Nat.le_refl _)
    (by rw [Nat.mul_div_cancel_left _ hpos]; omega)
  have hfree := h.free (n := pageSize * c) h.start (Nat.le_refl _) (by
    have := h.stretch.le
    have := h.fits
    omega)
  rw [he] at hm
  exact hm (hfree _ (Nat.le_refl _) (by rw [Nat.mul_div_cancel_left _ hpos]; omega))

end CacheMapped

theorem CacheMapped.unmapDdr {T₁ T₂ : Table} {k d : Nat} (h : CacheMapped o t T T₁ k)
    (hD : Stretch T₁ T₂ (o.iovaStart + o.cacheSize t) o.size d) (hd : 0 < d) :
    iommuUnmap (o.iovaStart + o.cacheSize t) d T₂ = T₁ := by
  have ha := hD.start (by omega)
  have hS : Stretch T₁ T₂ (o.iovaStart + o.cacheSize t) d d :=
    ⟨hD.pages, hD.dvd, Nat.le_refl _, hD.start⟩
  refine iommuUnmap_stretch hS ha (.inl hD.dvd) ?_
  have hfits := h.fits
  have hfree : Free T ((o.iovaStart + o.cacheSize t) / pageSize) (d / pageSize) :=
    h.free ha (by omega) (by have := hD.le; omega)
  refine h.stretch.pages.free hfree ?_
  rw [← Nat.add_div_of_dvd_right h.start]
  exact Nat.div_le_div_right (Nat.add_le_add_left h.stretch.le _)

/-- `rknpu_gem_free_buf_with_cache` takes both parts out of the domain. -/
theorem CacheMapped.unmapBoth {T₁ T₂ : Table} {k : Nat} (h : CacheMapped o t T T₁ k)
    (hD : Stretch T₁ T₂ (o.iovaStart + o.cacheSize t) o.size o.size) (hsize : 0 < o.size) :
    iommuUnmap (o.iovaStart + o.cacheSize t) o.size
      (iommuUnmap o.iovaStart (o.cacheSize t) T₂) = T := by
  have ha := hD.start (by omega)
  have hcache : pageSize ∣ o.cacheSize t := (Nat.dvd_add_right h.start).mp ha
  have hle : k / pageSize ≤ o.cacheSize t / pageSize := Nat.div_le_div_right h.stretch.le
  have hdiv : (o.iovaStart + o.cacheSize t) / pageSize =
      o.iovaStart / pageSize + o.cacheSize t / pageSize := Nat.add_div_of_dvd_right h.start
  have hfits := h.fits
  have hfree₁ := h.free (n := o.cacheSize t) h.start (Nat.le_refl _) (by omega)
  have hfree₂ := h.free (n := o.size) ha (by omega) (by omega)
  have hS := h.stretch.pages
  have hE := hD.pages
  rw [hdiv] at hE hfree₂
  have hunmap : iommuUnmap o.iovaStart (o.cacheSize t) T₂ =
      PageTable.clear (o.iovaStart / pageSize) (k / pageSize) T₂ := by
    rw [iommuUnmap, if_pos ⟨h.start, hcache⟩]
    refine unmapRun_eq (fun r hr hr' => ?_) hle fun hlt => ?_
    · rw [hE.other r (by omega)]
      exact hS.mapped r hr hr'
    · rw [hE.other (o.iovaStart / pageSize + k / pageSize) (by omega), hS.other _ (by omega)]
      exact hfree₁ _ (Nat.le_add_right _ _) (Nat.add_lt_add_left hlt _)
  have hrest : Stretch T (PageTable.clear (o.iovaStart / pageSize) (k / pageSize) T₂)
      (o.iovaStart + o.cacheSize t) o.size o.size := by
    refine ⟨⟨fun r hr hr' => ?_, fun r hr => ?_⟩, h.size, Nat.le_refl _, fun _ => ha⟩
    · rw [hdiv] at hr hr'
      rw [PageTable.clear, if_neg (by omega)]
      exact hE.mapped r hr hr'
    · rw [hdiv] at hr
      by_cases hin : o.iovaStart / pageSize ≤ r ∧ r < o.iovaStart / pageSize + k / pageSize
      · rw [PageTable.clear, if_pos hin, hfree₁ r hin.1 (by omega)]
      · rw [PageTable.clear, if_neg hin, hE.other r hr, hS.other r hin]
  rw [hunmap]
  exact iommuUnmap_stretch hrest ha (.inl h.size) (by rw [hdiv]; exact hfree₂)

theorem allOrNothing_failed {r : CacheOutcome} (hret : r.ret ≠ 0) (htable : r.table = T)
    (hperm : r.freed.Perm r.got) (hfresh : r.obj.iovaStart ≠ 0 → ∀ q, r.obj.iovaStart ≤ q * pageSize →
      q * pageSize < r.obj.iovaStart + r.obj.iovaSize → T q = none) : AllOrNothing K t T r where
  restored _ := htable
  empty _ h q hq hq' := htable ▸ hfresh h q hq hq'
  released _ := hperm
  freeUnmaps h := absurd h hret
  freeReleases h := absurd h hret

theorem allOrNothing_worked {r : CacheOutcome} (hret : r.ret = 0)
    (htable : (gemFreeBufWithCache K r.obj t r.table).2 = T)
    (hperm : (r.freed ++ (gemFreeBufWithCache K r.obj t r.table).1).Perm r.got) :
    AllOrNothing K t T r where
  restored h := absurd hret h
  empty h := absurd hret h
  released h := absurd hret h
  freeUnmaps _ := htable
  freeReleases _ := hperm

theorem bytesOf_toSg {l : List Nat} (sg : SgTable l) :
    (bytesOf sg.sgl).length = l.length * pageSize := by
  rw [sg.bytes_eq]
  simp [List.length_flatMap, Nat.mul_comm]

theorem gemMapDdr_sound {T₁ : Table} {k sgt : Nat} (h : CacheMapped o t T T₁ k) (hdom : K.domain)
    (hk : pageSize ∣ o.cacheSize t ∨ k = 0) (hpages : o.pages ≠ .null) (hsize : 0 < o.size)
    {sgl : List Segment} (hsgl : (bytesOf sgl).length = o.size) :
    AllOrNothing K t T (gemMapDdr K sgt o t sgl T₁) := by
  have hD := @mapBlocks_stretch K sgl (o.iovaStart + o.cacheSize t) o.size T₁
  simp only [gemMapDdr, ddrLoop_eq]
  by_cases hret : (mapBlocks K.iommuMap Mapping.mk sgl (o.iovaStart + o.cacheSize t) o.size).1 = 0
  · have htot := mapBlocks_total hret
    rw [hsgl, Nat.min_self] at htot
    rw [htot] at hD
    rw [if_neg (not_not.mpr hret)]
    refine allOrNothing_worked rfl ?_ ?_
    · simp only [gemFreeBufWithCache, hdom, if_true, gt_iff_lt, hsize]
      exact h.unmapBoth hD hsize
    · simp only [gemFreeBufWithCache, hdom, if_true, hpages, ne_eq, not_false_eq_true, reduceCtorEq,
        List.nil_append, List.cons_append]
      exact ((List.Perm.swap _ _ _).cons _).cons _
  · rw [if_pos hret]
    refine allOrNothing_failed hret ?_ (List.reverse_perm [_, _, _, _]) fun _ => h.fresh
    have hle := hD.le
    have hsub : o.size - (o.size - total (mapBlocks K.iommuMap Mapping.mk sgl
        (o.iovaStart + o.cacheSize t) o.size).2) = total (mapBlocks K.iommuMap Mapping.mk sgl
        (o.iovaStart + o.cacheSize t) o.size).2 := by omega
    dsimp only
    rw [hsub]
    refine Eq.trans ?_ (h.unmapCache hk)
    congr 1
    split <;> rename_i hpos
    · exact h.unmapDdr hD hpos
    · rw [Nat.eq_zero_of_not_pos hpos] at hD
      exact hD.eq

theorem gemAddPages_sound {T₁ : Table} {k pages sgt : Nat} (h : CacheMapped o t T T₁ k)
    (hdom : K.domain) (hk : pageSize ∣ o.cacheSize t ∨ k = 0) (hsize : 0 < o.size) :
    AllOrNothing K t T (gemAddPages K pages sgt o t T₁) := by
  unfold gemAddPages
  split
  · rename_i e _
    exact allOrNothing_failed (ne_of_lt e.2) (h.unmapCache hk) (List.Perm.refl _) fun _ => h.fresh
  · rename_i l _
    dsimp only
    split
    · rename_i e _
      exact allOrNothing_failed (ne_of_lt e.2) (h.unmapCache hk) (List.reverse_perm [_, _])
        fun _ => h.fresh
    · rename_i sg _
      refine gemMapDdr_sound (k := k)
        (o := { o with pages := .at pages, numPages := o.size / pageSize })
        ⟨h.stretch, h.start, h.size, h.fresh, h.fits⟩ hdom hk ?_ hsize ?_
      · simp
      · rw [bytesOf_toSg, l.2]
        exact Nat.div_mul_cancel h.size

theorem iommuUnmap_odd (hn : ¬pageSize ∣ n) : iommuUnmap a n T = T :=
  iommuUnmap_of_not_dvd fun h => hn h.2

theorem gemMapDdr_kept {T₁ : Table} {sgt : Nat} {sgl : List Segment} (hdom : K.domain)
    (hstart : pageSize ∣ o.iovaStart) (hn : ¬pageSize ∣ o.cacheSize t)
    (hsound : AllOrNothing K t T (gemMapDdr K sgt o t sgl T₁)) : T₁ = T := by
  have hmid : ¬pageSize ∣ o.iovaStart + o.cacheSize t := fun h => hn ((Nat.dvd_add_right hstart).mp h)
  have hodd {n : Nat} {T : Table} : iommuUnmap (o.iovaStart + o.cacheSize t) n T = T :=
    iommuUnmap_of_not_dvd fun h => hmid h.1
  have hD := @mapBlocks_stretch K sgl (o.iovaStart + o.cacheSize t) o.size T₁
  have hzero :
      total (mapBlocks K.iommuMap Mapping.mk sgl (o.iovaStart + o.cacheSize t) o.size).2 = 0 := by
    by_contra hpos
    exact hmid (hD.start hpos)
  rw [hzero] at hD
  simp only [gemMapDdr, ddrLoop_eq, hD.eq, hodd, iommuUnmap_odd hn, ite_self] at hsound
  split at hsound <;> rename_i hret
  · exact hsound.restored hret
  · have htable := hsound.freeUnmaps rfl
    simp only [gemFreeBufWithCache, hdom, if_true] at htable
    change (if o.size > 0 then iommuUnmap (o.iovaStart + o.cacheSize t) o.size
      (iommuUnmap o.iovaStart (o.cacheSize t) T₁) else
        iommuUnmap o.iovaStart (o.cacheSize t) T₁) = T at htable
    rwa [hodd, iommuUnmap_odd hn, ite_self] at htable

/-- A cache that is not made of pages stays in the domain, whatever happens to the pages. -/
theorem gemAddPages_kept {T₁ : Table} {pages sgt : Nat} (hdom : K.domain)
    (hstart : pageSize ∣ o.iovaStart) (hn : ¬pageSize ∣ o.cacheSize t)
    (hsound : AllOrNothing K t T (gemAddPages K pages sgt o t T₁)) : T₁ = T := by
  unfold gemAddPages at hsound
  split at hsound
  · rename_i e _
    exact (iommuUnmap_odd hn).symm.trans (hsound.restored (ne_of_lt e.2))
  · dsimp only at hsound
    split at hsound
    · rename_i e _
      exact (iommuUnmap_odd hn).symm.trans (hsound.restored (ne_of_lt e.2))
    · exact gemMapDdr_kept (o := { o with pages := .at pages, numPages := o.size / pageSize })
        hdom hstart hn hsound

/-- What the call finds: sizes made of pages where the kernel sees to it, a range with
nothing in it, and an object that has no range and no pages yet. -/
structure CacheFits (o : Object) (t : CacheType) (T : Table) : Prop where
  start : o.iovaStart = 0
  size : pageSize ∣ o.size
  align : o.cacheSize t + o.size ≤ K.iovaAlign (o.cacheSize t + o.size)
  fresh : iova K o t ≠ 0 → ∀ q, iova K o t ≤ q * pageSize →
    q * pageSize < iova K o t + K.iovaAlign (o.cacheSize t + o.size) → T q = none
  pages : o.pages = .null
  sgt : o.sgt = .null

def ranged (K : Kernel) (o : Object) (t : CacheType) : Object :=
  { o with iovaSize := K.iovaAlign (o.cacheSize t + o.size), iovaStart := iova K o t }

theorem cacheMapped (h : CacheFits (K := K) o t T) (hiova : iova K o t ≠ 0) :
    CacheMapped (ranged K o t) t T
      (mapAll (mapBlocks K.iommuMap Mapping.mk (dev.cacheBlocks (o.cached []) t) (iova K o t)
        (o.cacheSize t)).2 T)
      (total (mapBlocks K.iommuMap Mapping.mk (dev.cacheBlocks (o.cached []) t) (iova K o t)
        (o.cacheSize t)).2) :=
  ⟨mapBlocks_stretch, K.allocIova_dvd _ _, h.size, h.fresh hiova, h.align⟩

theorem iommuMapCache_ranged : iommuMapCache dev K ((ranged K o t).cached []) t =
    mapBlocks K.iommuMap Mapping.mk (dev.cacheBlocks (o.cached []) t) (iova K o t) (o.cacheSize t) :=
  iommuMapCache_eq

theorem gemAllocBufWithCache_ranged {pages sgt : Nat} (hdom : K.domain) (hiova : iova K o t ≠ 0)
    {cache : Int × List Mapping}
    (hcache : mapBlocks K.iommuMap Mapping.mk (dev.cacheBlocks (o.cached []) t) (iova K o t)
      (o.cacheSize t) = cache) :
    gemAllocBufWithCache dev K pages sgt o t T =
      if cache.1 ≠ 0 then ⟨⟨cache.1, ranged K o t, [(ranged K o t).range], [(ranged K o t).range]⟩,
        mapAll cache.2 T⟩
      else if o.size = 0 then ⟨⟨0, { ranged K o t with dmaAddr := iova K o t },
        [(ranged K o t).range], []⟩, mapAll cache.2 T⟩
      else gemAddPages K pages sgt { ranged K o t with dmaAddr := iova K o t } t
        (mapAll cache.2 T) := by
  rw [← hcache, ← iommuMapCache_ranged]
  have hdom' : ¬(!K.domain) = true := by simp [hdom]
  exact (if_neg hdom').trans (if_neg hiova)

theorem cacheOnly_free {y : Object} {U : Table} (hdom : K.domain) (hsize : y.size = 0)
    (hpages : y.pages = .null) (hsgt : y.sgt = .null) :
    gemFreeBufWithCache K y t U = ([y.range], iommuUnmap y.iovaStart (y.cacheSize t) U) := by
  simp [gemFreeBufWithCache, hdom, hsize, hpages, hsgt]

/-- Allocation with a cache is all or nothing exactly if it does not leave some of the cache
in the domain. -/
theorem cache_all_or_nothing_iff (dev : CacheDevice) (K : Kernel) (pages sgt : Nat) (o : Object)
    (t : CacheType) (T : Table) (h : CacheFits (K := K) o t T) :
    AllOrNothing K t T (gemAllocBufWithCache dev K pages sgt o t T) ↔ ¬LeavesCache dev K o t := by
  by_cases hdom : K.domain
  swap
  · have hdef : gemAllocBufWithCache dev K pages sgt o t T = ⟨⟨-einval, o, [], []⟩, T⟩ :=
      if_pos (by simp [hdom])
    rw [hdef]
    exact iff_of_true (allOrNothing_failed (by simp [einval]) rfl (List.Perm.refl _)
      fun hs => absurd h.start hs) fun hleft => hdom hleft.1
  by_cases hiova : iova K o t = 0
  · have hdom' : ¬(!K.domain) = true := by simp [hdom]
    have hdef : gemAllocBufWithCache dev K pages sgt o t T = ⟨⟨-enomem, ranged K o t, [], []⟩, T⟩ :=
      (if_neg hdom').trans (if_pos hiova)
    rw [hdef]
    exact iff_of_true (allOrNothing_failed (by simp [enomem]) rfl (List.Perm.refl _)
      fun hs => absurd hiova hs) fun hleft => hleft.2.1 hiova
  generalize hcache : mapBlocks K.iommuMap Mapping.mk (dev.cacheBlocks (o.cached []) t)
    (iova K o t) (o.cacheSize t) = cache
  have hM : CacheMapped (ranged K o t) t T (mapAll cache.2 T) (total cache.2) := by
    rw [← hcache]
    exact cacheMapped h hiova
  have hfails : ∀ m, FailsAfter K.iommuMap (dev.cacheBlocks (o.cached []) t) (iova K o t)
      (o.cacheSize t) m ↔ cache.1 ≠ 0 ∧ total cache.2 = m := by
    rw [← hcache]
    exact fun m => failsAfter_iff
  simp only [gemAllocBufWithCache_ranged hdom hiova hcache, LeavesCache, hfails]
  by_cases hret : cache.1 = 0
  · have htot : total cache.2 =
        min (o.cacheSize t) (bytesOf (dev.cacheBlocks (o.cached []) t)).length := by
      rw [← hcache] at hret ⊢
      exact mapBlocks_total hret
    simp only [hret, ne_eq, not_true_eq_false, if_false, false_and, and_false, exists_false,
      not_false_eq_true, implies_true, true_and, false_or]
    by_cases hodd : ¬pageSize ∣ o.cacheSize t ∧ 0 < (bytesOf (dev.cacheBlocks (o.cached []) t)).length
    · -- mapped, but not to be unmapped
      refine iff_of_false (fun hsound => ?_) fun hno => hno ⟨hdom, hiova, hodd⟩
      have hpos : 0 < total cache.2 := by
        have : o.cacheSize t ≠ 0 := fun hz => hodd.1 (hz ▸ dvd_zero _)
        omega
      refine hM.kept hpos ?_
      split at hsound <;> rename_i hsize
      · have htable := hsound.freeUnmaps rfl
        rw [cacheOnly_free (y := { ranged K o t with dmaAddr := iova K o t }) hdom hsize h.pages
          h.sgt] at htable
        exact (iommuUnmap_odd hodd.1).symm.trans htable
      · exact gemAddPages_kept (o := { ranged K o t with dmaAddr := iova K o t }) hdom
          (K.allocIova_dvd _ _) hodd.1 hsound
    · refine iff_of_true ?_ fun hleft => hodd hleft.2.2
      have hk : pageSize ∣ (ranged K o t).cacheSize t ∨ total cache.2 = 0 := by
        by_cases hdvd : pageSize ∣ o.cacheSize t
        · exact .inl hdvd
        · have : ¬0 < (bytesOf (dev.cacheBlocks (o.cached []) t)).length := fun hl => hodd ⟨hdvd, hl⟩
          exact .inr (by omega)
      split <;> rename_i hsize
      · have hfree := cacheOnly_free (K := K) (t := t) (U := mapAll cache.2 T)
          (y := { ranged K o t with dmaAddr := iova K o t }) hdom hsize h.pages h.sgt
        refine allOrNothing_worked rfl ?_ ?_
        · rw [hfree]
          exact hM.unmapCache hk
        · rw [hfree]
          exact List.Perm.refl _
      · exact gemAddPages_sound (o := { ranged K o t with dmaAddr := iova K o t })
          ⟨hM.stretch, hM.start, hM.size, hM.fresh, hM.fits⟩ hdom hk (Nat.pos_of_ne_zero hsize)
  · rw [if_pos hret]
    by_cases hpos : 0 < total cache.2
    · refine iff_of_false (fun hsound => hM.kept hpos (hsound.restored hret)) fun hno => hno ?_
      exact ⟨hdom, hiova, .inl ⟨_, hpos, hret, rfl⟩⟩
    · have hzero : total cache.2 = 0 := by omega
      refine iff_of_true (allOrNothing_failed hret ?_ (List.Perm.refl _) fun _ => hM.fresh) ?_
      · have hS := hM.stretch
        rw [hzero] at hS
        exact hS.eq
      · rintro ⟨-, -, ⟨m, hm, -, rfl⟩ | ⟨-, hno, -⟩⟩
        · exact hpos hm
        · exact hno _ ⟨hret, rfl⟩

theorem gemMapDdr_ret {sgt : Nat} {sgl : List Segment} : (gemMapDdr K sgt o t sgl T).ret =
    (mapBlocks K.iommuMap Mapping.mk sgl (o.iovaStart + o.cacheSize t) o.size).1 := by
  simp only [gemMapDdr, ddrLoop_eq]
  split <;> rename_i hret
  · rfl
  · exact (not_not.mp hret).symm

theorem gemMapDdr_table {sgt : Nat} {sgl : List Segment} (h : (gemMapDdr K sgt o t sgl T).ret = 0) :
    (gemMapDdr K sgt o t sgl T).table =
      mapAll (mapBlocks K.iommuMap Mapping.mk sgl (o.iovaStart + o.cacheSize t) o.size).2 T := by
  rw [gemMapDdr_ret] at h
  simp only [gemMapDdr, ddrLoop_eq, h, ne_eq, not_true_eq_false, if_false]

/-- The parts behind the cache return what `iommuMapPages` says, and map what it says. -/
theorem gemAddPages_refines (pages sgt : Nat) :
    (∀ ret, iommuMapPages K (o.cached []) (o.iovaStart + o.cacheSize t) = .error ret →
      ret ≠ 0 ∧ (gemAddPages K pages sgt o t T).ret = ret) ∧
    ∀ r, iommuMapPages K (o.cached []) (o.iovaStart + o.cacheSize t) = .ok r →
      (gemAddPages K pages sgt o t T).ret = 0 ∧
        (gemAddPages K pages sgt o t T).table = mapAll r.2 T := by
  simp only [iommuMapPages, gemAddPages, Object.cached]
  cases K.getPages (o.size / pageSize) with
  | error e => simpa using ne_of_lt e.2
  | ok l =>
    dsimp only
    cases K.toSg l with
    | error e => simpa using ne_of_lt e.2
    | ok sg =>
      have hone : (gemMapDdr K sgt { o with pages := .at pages, numPages := o.size / pageSize } t
        sg.sgl T).ret =
          (mapBlocks K.iommuMap Mapping.mk sg.sgl (o.iovaStart + o.cacheSize t) o.size).1 :=
        gemMapDdr_ret
      by_cases hret :
          (mapBlocks K.iommuMap Mapping.mk sg.sgl (o.iovaStart + o.cacheSize t) o.size).1 = 0
      · have hzero := hone.trans hret
        simpa [hret] using ⟨hzero, gemMapDdr_table hzero⟩
      · simpa [hret] using hone

/-- The result is that of the model without the table, and so are the mappings after a success. -/
theorem gemAllocBufWithCache_refines {pages sgt : Nat} :
    (gemAllocBufWithCache dev K pages sgt o t T).ret =
        (Rknpu.gemAllocBufWithCache dev K (o.cached []) t).1 ∧
      ((gemAllocBufWithCache dev K pages sgt o t T).ret = 0 →
        (gemAllocBufWithCache dev K pages sgt o t T).table =
          mapAll (Rknpu.gemAllocBufWithCache dev K (o.cached []) t).2.2 T) := by
  obtain ⟨herror, hok⟩ := gemAddPages_refines pages sgt (K := K) (t := t)
    (o := { ranged K o t with dmaAddr := iova K o t })
    (T := mapAll (iommuMapCache dev K ((ranged K o t).cached []) t).2 T)
  have happ (l l' : List Mapping) (T : Table) : mapAll (l ++ l') T = mapAll l' (mapAll l T) := by
    induction l generalizing T with
    | nil => rfl
    | cons m l ih => exact ih _
  by_cases hdom : K.domain
  swap
  · have hnew : gemAllocBufWithCache dev K pages sgt o t T = ⟨⟨-einval, o, [], []⟩, T⟩ :=
      if_pos (by simp [hdom])
    have hold : Rknpu.gemAllocBufWithCache dev K (o.cached []) t = (-einval, o.cached [], []) :=
      if_pos (by simp [hdom])
    rw [hnew, hold]
    simp [einval]
  have hdom' : ¬(!K.domain) = true := by simp [hdom]
  by_cases hiova : iova K o t = 0
  · have hnew : gemAllocBufWithCache dev K pages sgt o t T = ⟨⟨-enomem, ranged K o t, [], []⟩, T⟩ :=
      (if_neg hdom').trans (if_pos hiova)
    have hold : Rknpu.gemAllocBufWithCache dev K (o.cached []) t =
        (-enomem, (ranged K o t).cached [], []) := (if_neg hdom').trans (if_pos hiova)
    rw [hnew, hold]
    simp [enomem]
  rw [gemAllocBufWithCache_ranged hdom hiova iommuMapCache_ranged.symm]
  by_cases hret : (iommuMapCache dev K ((ranged K o t).cached []) t).1 = 0
  swap
  · have hold : Rknpu.gemAllocBufWithCache dev K (o.cached []) t = _ :=
      (if_neg hdom').trans ((if_neg hiova).trans (if_pos hret))
    rw [if_pos hret, hold]
    exact ⟨rfl, fun h => absurd h hret⟩
  have hret' := not_not.mpr hret
  rw [if_neg hret']
  by_cases hsize : o.size = 0
  · have hold : Rknpu.gemAllocBufWithCache dev K (o.cached []) t = _ :=
      (if_neg hdom').trans ((if_neg hiova).trans ((if_neg hret').trans (if_pos hsize)))
    rw [if_pos hsize, hold]
    exact ⟨rfl, fun _ => rfl⟩
  have hold : Rknpu.gemAllocBufWithCache dev K (o.cached []) t = _ :=
    (if_neg hdom').trans ((if_neg hiova).trans ((if_neg hret').trans (if_neg hsize)))
  rw [if_neg hsize, hold]
  generalize hp : iommuMapPages K _ _ = r
  cases r with
  | error ret =>
    obtain ⟨hne, hret⟩ := herror ret hp
    exact ⟨hret, fun h => absurd (hret.symm.trans h) hne⟩
  | ok r =>
    obtain ⟨hzero, htable⟩ := hok r hp
    exact ⟨hzero, fun _ => htable.trans (happ _ _ _).symm⟩

def nbufObject : Object := { Object.init (1024 * 1024) with
  flags := 0x213, nbufSize := 512 * 1024, coreMask := 0x1, cacheWithSgt := true }

theorem nbufObject_fits {K : Kernel} (hK : ∀ n, K.iovaAlign n = n) :
    CacheFits (K := K) nbufObject .nbuf fun _ => none :=
  ⟨rfl, by decide, Nat.le_of_eq (hK _).symm, fun _ _ _ _ => rfl, rfl, rfl⟩

theorem cache_all_or_nothing_nbuf : nbufObject.size = 1024 * 1024 ∧
    AllOrNothing plainKernel .nbuf (fun _ => none)
      (gemAllocBufWithCache twoCoreCache plainKernel 1 2 nbufObject .nbuf fun _ => none) := by
  refine ⟨rfl, (cache_all_or_nothing_iff twoCoreCache plainKernel 1 2 nbufObject .nbuf _
    (nbufObject_fits fun _ => rfl)).mpr ?_⟩
  rintro ⟨-, -, ⟨m, -, hm⟩ | ⟨hodd, -⟩⟩
  · exact absurd (failsAfter_iff.mp hm).1 (by decide)
  · exact hodd (by decide)

def secondFails : Kernel := { plainKernel with
  iommuMap a p n := if a = 0x10000000 + 448 * 1024 then -enomem else plainKernel.iommuMap a p n
  iommuMap_dvd h := by
    split at h
    · exact absurd h (by decide)
    · exact plainKernel.iommuMap_dvd h }

theorem cache_left_mapped : ¬∀ (dev : CacheDevice) (K : Kernel) (pages sgt : Nat) (o : Object)
    (t : CacheType) (T : Table), CacheFits (K := K) o t T →
      AllOrNothing K t T (gemAllocBufWithCache dev K pages sgt o t T) := by
  intro h
  have hs := h twoCoreCache secondFails 1 2 nbufObject .nbuf (fun _ => none)
    (nbufObject_fits fun _ => rfl)
  have hpage := congrFun (hs.restored (by decide)) 0x10000
  revert hpage
  decide

end Rknpu.Buffer

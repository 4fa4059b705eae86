import Rknpu.CacheSync

namespace Rknpu

open AddressMap

/-- What one call of `rknpu_gem_mmap_buffer` does: its result, the mappings it installs, the
indices at which it reads `pages`, and whether a subtraction of sizes wraps. -/
structure MmapRun where
  ret : Int
  installed : List Mapping
  indices : List Nat
  wraps : Bool

variable (dev : CacheDevice) (K : Kernel) (o : CachedObject) (t : CacheType) (v : Vma)

/-- The loop over the pages with its index; the entry behind the last one could be anything. -/
def mmapPages (start : Nat) : Nat → Nat → Nat → Int × List Mapping × List Nat
  | 0, _, _ => (0, [], [])
  | n + 1, i, offset =>
    let pfn := o.pages[i]?.getD 0
    let ret := K.remapPfn (start + offset) pfn pageSize
    if ret < 0 then (ret, [], [i])
    else
      let r := mmapPages start n (i + 1) (offset + pageSize)
      (r.1, ⟨start + offset, pfn * pageSize, pageSize⟩ :: r.2.1, i :: r.2.2)

/-- `rknpu_gem_mmap_cache` with the arithmetic of `unsigned long`. -/
def mmapCache : MmapRun :=
  let cacheSize := o.cacheSize t
  let cache := remapCache dev K o t v.vmStart
  if cache.1 ≠ 0 then ⟨-11, cache.2, [], false⟩
  else if o.size = 0 then ⟨0, cache.2, [], false⟩
  else
    let numPages := ulongSub v.size cacheSize / pageSize
    let ddr := mmapPages K o v.vmStart numPages 0 cacheSize
    ⟨ddr.1, cache.2 ++ ddr.2.1, ddr.2.2, v.size < cacheSize⟩

def CachedObject.cacheType (o : CachedObject) : CacheType :=
  if 0 < o.sramSize then .sram else .nbuf

/-- `rknpu_gem_mmap_buffer` for an object with a part in cache memory. -/
def mmapBuffer : MmapRun :=
  if o.size < v.size then ⟨-einval, [], [], false⟩ else mmapCache dev K o o.cacheType v

/-- The pages that are installed lie in the VMA, those that are read are pages of the object,
and nothing wraps. -/
structure MmapSafe (r : MmapRun) : Prop where
  inside : ∀ m ∈ r.installed, ∀ k, k * pageSize < m.size →
    v.vmStart ≤ m.addr + k * pageSize ∧ m.addr + k * pageSize < v.vmEnd
  index : ∀ i ∈ r.indices, i < o.pages.length
  nowrap : r.wraps = false

variable {dev K o t v} {sgl : List Segment} {a n i offset start : Nat}

theorem mapBlocks_remapped {m : Mapping} (hm : m ∈ (mapBlocks K.remapPhys remapped sgl a n).2) {k : Nat}
    (hk : k * pageSize < m.size) : a ≤ m.addr + k * pageSize ∧ m.addr + k * pageSize < a + n := by
  induction sgl generalizing a n with
  | nil => cases hm
  | cons s sgl ih =>
    have hfirst : ∀ size, size ≤ n → k * pageSize < (size + pageSize - 1) / pageSize * pageSize →
        a ≤ a + k * pageSize ∧ a + k * pageSize < a + n := by
      intro size hsize hlt
      have hpos : 0 < pageSize := by decide
      have hk' : k < (size + pageSize - 1) / pageSize := Nat.lt_of_mul_lt_mul_right hlt
      have hle : (k + 1) * pageSize ≤ size + pageSize - 1 := (Nat.le_div_iff_mul_le hpos).mp hk'
      rw [Nat.add_mul, Nat.one_mul] at hle
      omega
    have hmin : min n s.length ≤ n := Nat.min_le_left _ _
    simp only [mapBlocks, clipped] at hm
    split at hm
    · cases hm
    split at hm
    · obtain rfl := List.mem_singleton.mp hm
      exact hfirst _ hmin hk
    · rcases List.mem_cons.mp hm with rfl | hm
      · exact hfirst _ hmin hk
      · have := ih hm
        omega

theorem mmapPages_inside {m : Mapping} (hm : m ∈ (mmapPages K o start n i offset).2.1) {k : Nat}
    (hk : k * pageSize < m.size) : start + offset ≤ m.addr + k * pageSize ∧
      m.addr + k * pageSize < start + offset + n * pageSize := by
  induction n generalizing i offset with
  | zero => cases hm
  | succ n ih =>
    simp only [mmapPages] at hm
    have hmul : (n + 1) * pageSize = n * pageSize + pageSize := Nat.succ_mul n pageSize
    split at hm
    · cases hm
    · rcases List.mem_cons.mp hm with rfl | hm
      · dsimp only at hk ⊢
        have hzero : k = 0 := by
          by_contra hne
          have := Nat.le_mul_of_pos_left pageSize (Nat.pos_of_ne_zero hne)
          omega
        subst hzero
        omega
      · have := ih hm
        omega

theorem mmapPages_indices {j : Nat} (hj : j ∈ (mmapPages K o start n i offset).2.2) : j < i + n := by
  induction n generalizing i offset with
  | zero => cases hj
  | succ n ih =>
    simp only [mmapPages] at hj
    split at hj
    · obtain rfl := List.mem_singleton.mp hj
      omega
    · rcases List.mem_cons.mp hj with rfl | hj
      · omega
      · have := ih hj
        omega

theorem mmapCache_safe (hcache : o.cacheSize t ≤ v.size) (hsize : v.size ≤ o.size)
    (hpages : o.pages.length = o.size / pageSize) (hend : v.vmStart ≤ v.vmEnd)
    (hlt : v.vmEnd < 2 ^ 64) :
    MmapSafe o v (mmapCache dev K o t v) := by
  have hv : v.size = v.vmEnd - v.vmStart := rfl
  have hblocks : ∀ m ∈ (remapCache dev K o t v.vmStart).2, ∀ k, k * pageSize < m.size →
      v.vmStart ≤ m.addr + k * pageSize ∧ m.addr + k * pageSize < v.vmEnd := by
    intro m hm k hk
    rw [remapCache_eq] at hm
    have := mapBlocks_remapped hm hk
    omega
  unfold mmapCache
  dsimp only
  split
  · exact ⟨hblocks, by simp, rfl⟩
  split
  · exact ⟨hblocks, by simp, rfl⟩
  rw [ulongSub_eq hcache (by omega)]
  have hpos : 0 < pageSize := by decide
  refine ⟨fun m hm k hk => ?_, fun i hi => ?_, by simpa using hcache⟩
  · rcases List.mem_append.mp hm with hm | hm
    · exact hblocks m hm k hk
    · have hin := mmapPages_inside hm hk
      have := Nat.div_mul_le_self (v.size - o.cacheSize t) pageSize
      omega
  · have hi' := mmapPages_indices hi
    have hle : (v.size - o.cacheSize t) / pageSize ≤ o.size / pageSize :=
      Nat.div_le_div_right (by omega)
    omega

/-- Where every call of `remap_pfn_range` succeeds, the sizes are subtracted. -/
theorem mmapCache_wraps (hK : ∀ a p n, K.remapPfn a p n = 0) (hsize : o.size ≠ 0) :
    (mmapCache dev K o t v).wraps = decide (v.size < o.cacheSize t) := by
  have hblocks : ∀ sgl a n, (mapBlocks K.remapPhys remapped sgl a n).1 = 0 := by
    intro sgl
    induction sgl with
    | nil => exact fun _ _ => rfl
    | cons s sgl ih =>
      intro a n
      simp only [mapBlocks, clipped, Kernel.remapPhys, hK, ne_eq, not_true_eq_false, if_false]
      split
      · rfl
      · exact ih _ _
  have hret : (remapCache dev K o t v.vmStart).1 = 0 := by
    rw [remapCache_eq]
    exact hblocks _ _ _
  simp only [mmapCache, hret, hsize, ne_eq, not_true_eq_false, if_false]

/-- A mapping that is accepted stays inside, whatever the kernel answers, exactly if the cache
part fits into the VMA. -/
theorem mmap_inside_iff (dev : CacheDevice) (o : CachedObject) (v : Vma)
    (hpages : o.pages.length = o.size / pageSize) (hstart : v.vmStart < v.vmEnd)
    (hend : v.vmEnd < 2 ^ 64) (hsize : v.size ≤ o.size) :
    (∀ K, MmapSafe o v (mmapBuffer dev K o v)) ↔ o.cacheSize o.cacheType ≤ v.size := by
  have hv : v.size = v.vmEnd - v.vmStart := rfl
  simp only [mmapBuffer, if_neg (Nat.not_lt.mpr hsize)]
  constructor
  · intro h
    have hwrap : (mmapCache dev plainKernel o o.cacheType v).wraps =
        decide (v.size < o.cacheSize o.cacheType) := mmapCache_wraps (fun _ _ _ => rfl) (by omega)
    rw [(h plainKernel).nowrap] at hwrap
    simpa using hwrap.symm
  · exact fun h K => mmapCache_safe h hsize hpages hstart.le hend

def mappedObject : CachedObject :=
  { nbufObject with size := 2 * pageSize, nbufSize := 2 * pageSize, pages := [0, 1] }

theorem mmap_inside_most : MmapSafe mappedObject ⟨0x70000000, 0x70002000⟩
    (mmapBuffer twoCoreCache plainKernel mappedObject ⟨0x70000000, 0x70002000⟩) :=
  (mmap_inside_iff twoCoreCache mappedObject ⟨0x70000000, 0x70002000⟩ (by decide) (by decide)
    (by decide)
    (by decide)).mpr (by decide) plainKernel

/-- A VMA of one page is too small for the cache part. -/
theorem mmap_outside : ¬∀ (dev : CacheDevice) (K : Kernel) (o : CachedObject) (v : Vma),
    (0 < o.sramSize ∨ 0 < o.nbufSize) → o.pages.length = o.size / pageSize → v.vmStart < v.vmEnd →
      v.vmEnd < 2 ^ 64 → pageSize ∣ v.size → v.size ≤ o.size → MmapSafe o v (mmapBuffer dev K o v) := by
  intro h
  have hs := h twoCoreCache plainKernel mappedObject ⟨0x70000000, 0x70001000⟩ (by decide) (by decide)
    (by decide) (by decide) (by decide) (by decide)
  have hin := hs.inside ⟨0x70000000, 0x3fe80000, 2 * pageSize⟩ List.mem_cons_self 1 (by decide)
  exact absurd hin.2 (by decide)

end Rknpu

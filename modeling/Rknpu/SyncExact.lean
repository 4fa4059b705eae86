import Rknpu.CacheSync

namespace Rknpu

open AddressMap

namespace CacheDevice

variable (dev : CacheDevice) (o : CachedObject) (a : MemSync) (t : CacheType)

/-- The bytes of the cache part in the range are maintained and no other, and the rest of the
range is left, from the start of the other part on. -/
structure SyncedExactly (length offset : Nat) : Prop where
  bytes : ∀ d x, x ∈ maintained d (dev.cacheSync o a t length offset).1 ↔ a.requests d ∧
    ∃ b, offset ≤ b ∧ b < offset + length ∧ b < o.cacheSize t ∧ (dev.cacheBytes o t)[b]? = some x
  rest : if offset + length ≤ max offset (o.cacheSize t) then
      (dev.cacheSync o a t length offset).2.1 = 0
    else (dev.cacheSync o a t length offset).2 =
      (offset + length - max offset (o.cacheSize t), max offset (o.cacheSize t) - o.cacheSize t)

/-- The range begins in the other part, or the cache part is used up where the table is, and
the first block is needed from its first byte on or not at all. -/
def OffsetFits (length offset : Nat) : Prop :=
  let lengths := (dev.cacheBlocks o t).map Segment.length
  o.cacheSize t ≤ offset ∨ (offset + length ≤ o.cacheSize t ∨ lengths.sum = o.cacheSize t) ∧
    ((∀ d, a.requests d = false) ∨ offset = 0 ∨ offset = lengths.headD 0 ∨
      length = 0 ∧ offset ≤ lengths.headD 0)

end CacheDevice

def Segment.Separate (s s' : Segment) : Prop :=
  s.phys + s.length ≤ s'.phys ∨ s'.phys + s'.length ≤ s.phys

section Walk

variable {a : MemSync} {d : SyncDir} {s : Segment} {sgl : List Segment} {length offset : Nat}

theorem maintained_block (hd : a.requests d) (p n : Nat) :
    maintained d (syncRange a p 0 n) = run p n := by
  rw [maintained_syncRange hd ⟨p, n⟩ (Nat.zero_add n).le, List.drop_zero]
  exact List.take_of_length_le length_run.le

theorem maintained_silent (hd : a.requests d = false) (p n : Nat) :
    maintained d (syncRange a p 0 n) = [] := by
  cases d <;> simp only [syncRange, hd, Bool.false_eq_true, if_false] <;> split <;> simp [maintained]

theorem maintained_cacheSyncWithSg_silent (hd : a.requests d = false) :
    maintained d (cacheSyncWithSg a sgl length offset).1 = [] := by
  induction sgl generalizing length offset with
  | nil => rfl
  | cons s sgl ih =>
    simp only [cacheSyncWithSg, apply_ite Prod.fst, apply_ite (maintained d), maintained_append,
      maintained_silent hd, ih, List.append_nil, ite_self]

def blockLength (s : Segment) (length offset : Nat) : Nat :=
  if offset + length ≤ s.length then length else ulongSub s.length offset

theorem cacheSyncWithSg_cons (h : offset + length < 2 ^ 64) (hs : s.length < 2 ^ 64) :
    cacheSyncWithSg a (s :: sgl) length offset =
      if offset + length ≤ s.length then (syncRange a s.phys 0 length, 0, 0)
      else
        let n := cacheSyncWithSg a sgl (offset + length - s.length) 0
        (syncRange a s.phys 0 (ulongSub s.length offset) ++ n.1, n.2) := by
  have hadd : ulongAdd offset length = offset + length := ulongAdd_eq h
  simp only [cacheSyncWithSg, hadd]
  by_cases hfits : offset + length ≤ s.length
  · simp only [if_pos hfits, if_true]
  · have hleft : ulongSub length (ulongSub s.length offset) = offset + length - s.length := by
      simp only [ulongSub]
      omega
    simp only [if_neg hfits, hleft]
    rw [if_neg (by omega)]

theorem left_cacheSyncWithSg (h : offset + length < 2 ^ 64) (hs : ∀ s' ∈ s :: sgl, s'.length < 2 ^ 64) :
    (cacheSyncWithSg a (s :: sgl) length offset).2 =
      (offset + length - ((s :: sgl).map Segment.length).sum, 0) := by
  induction sgl generalizing s length offset with
  | nil =>
    rw [cacheSyncWithSg_cons h (hs s List.mem_cons_self)]
    split
    · simp
      omega
    · simp [cacheSyncWithSg]
  | cons s' sgl ih =>
    rw [cacheSyncWithSg_cons h (hs s List.mem_cons_self)]
    split
    · simp only [List.map_cons, List.sum_cons, Prod.mk.injEq, and_true]
      omega
    · dsimp only
      rw [ih (by omega) fun x hx => hs x (List.mem_cons_of_mem _ hx)]
      simp only [List.map_cons, List.sum_cons, Prod.mk.injEq, and_true]
      omega

theorem maintained_cacheSyncWithSg_zero (hd : a.requests d) (h : length < 2 ^ 64)
    (hs : ∀ s' ∈ sgl, s'.length < 2 ^ 64) :
    maintained d (cacheSyncWithSg a sgl length 0).1 = (bytesOf sgl).take length := by
  induction sgl generalizing length with
  | nil => simp [cacheSyncWithSg, maintained, bytesOf]
  | cons s sgl ih =>
    have hb : bytesOf (s :: sgl) = run s.phys s.length ++ bytesOf sgl := rfl
    have hl := hs s List.mem_cons_self
    rw [cacheSyncWithSg_cons (by omega) hl, hb, List.take_append, take_run, length_run, Nat.zero_add]
    split
    · have hz : length - s.length = 0 := by omega
      rw [maintained_block hd, hz, List.take_zero, List.append_nil, Nat.min_eq_left ‹_›]
    · have hsub : ulongSub s.length 0 = s.length := ulongSub_eq (Nat.zero_le _) hl
      rw [maintained_append, maintained_block hd, hsub, Nat.min_eq_right (by omega),
        ih (by omega) fun x hx => hs x (List.mem_cons_of_mem _ hx)]

/-- Only in the first block the maintenance can be wrong. -/
theorem maintained_cacheSyncWithSg (hd : a.requests d) (h : offset + length < 2 ^ 64)
    (hs : ∀ s' ∈ s :: sgl, s'.length < 2 ^ 64) :
    maintained d (cacheSyncWithSg a (s :: sgl) length offset).1 =
      run s.phys (blockLength s length offset) ++ (bytesOf sgl).take (offset + length - s.length) := by
  rw [cacheSyncWithSg_cons h (hs s List.mem_cons_self), blockLength]
  split
  · have hz : offset + length - s.length = 0 := by omega
    rw [maintained_block hd, hz, List.take_zero, List.append_nil]
  · rw [maintained_append, maintained_block hd,
      maintained_cacheSyncWithSg_zero hd (by omega) fun x hx => hs x (List.mem_cons_of_mem _ hx)]

theorem le_length_of_run {p n : Nat} {l : List Nat} (h : ∀ x ∈ run p n, x ∈ l) : n ≤ l.length := by
  have hnodup : (run p n).Nodup := List.nodup_range.map fun x y hxy => Nat.add_left_cancel hxy
  have hsub := (List.subperm_of_subset hnodup h).length_le
  rwa [length_run] at hsub

theorem mem_take_drop {l : List Nat} {x : Nat} : x ∈ (l.drop offset).take length ↔
    ∃ b, offset ≤ b ∧ b < offset + length ∧ l[b]? = some x := by
  simp only [List.mem_iff_getElem?, List.getElem?_take, List.getElem?_drop]
  constructor
  · rintro ⟨i, hi⟩
    split at hi
    · exact ⟨offset + i, by omega, by omega, hi⟩
    · cases hi
  · rintro ⟨b, hle, hlt, hb⟩
    refine ⟨b - offset, ?_⟩
    rw [if_pos (by omega), Nat.add_sub_cancel' hle, hb]

theorem maintained_eq_iff (hd : a.requests d) (hapart : (s :: sgl).Pairwise Segment.Separate)
    (hs : ∀ s' ∈ s :: sgl, s'.length < 2 ^ 64) (h : offset + length < 2 ^ 64) :
    (∀ x, x ∈ maintained d (cacheSyncWithSg a (s :: sgl) length offset).1 ↔
        x ∈ ((bytesOf (s :: sgl)).drop offset).take length) ↔
      offset = 0 ∨ offset = s.length ∨ length = 0 ∧ offset ≤ s.length := by
  have hl := hs s List.mem_cons_self
  rw [maintained_cacheSyncWithSg hd h hs]
  by_cases hoff : offset ≤ s.length
  · have hblock : blockLength s length offset = min length (s.length - offset) := by
      have hsub : ulongSub s.length offset = s.length - offset := ulongSub_eq hoff hl
      rw [blockLength, hsub]
      split <;> omega
    have hwant : ((bytesOf (s :: sgl)).drop offset).take length =
        run (s.phys + offset) (min length (s.length - offset)) ++
          (bytesOf sgl).take (offset + length - s.length) := by
      have hb : bytesOf (s :: sgl) = run s.phys s.length ++ bytesOf sgl := rfl
      have hz : offset - s.length = 0 := by omega
      have hrest : length - (s.length - offset) = offset + length - s.length := by omega
      rw [hb, List.drop_append, drop_run, length_run, hz, List.drop_zero, List.take_append, take_run,
        length_run, hrest]
    rw [hblock, hwant]
    constructor
    · intro heq
      by_contra hno
      -- the first byte of the block is maintained, but it is not in the range
      have hfirst := (heq s.phys).mp (List.mem_append_left _ (mem_run.mpr ⟨le_rfl, by omega⟩))
      rcases List.mem_append.mp hfirst with hx | hx
      · have := mem_run.mp hx
        omega
      · obtain ⟨s', hs', hle, hlt⟩ := mem_bytesOf.mp (List.mem_of_mem_take hx)
        rcases (List.pairwise_cons.mp hapart).1 s' hs' with hap | hap <;> omega
    · rintro (rfl | hfull) x
      · rw [Nat.add_zero]
      · have hz : min length (s.length - offset) = 0 := by omega
        rw [hz]
        exact Iff.rfl
  · -- the length of the block is almost that of the whole memory
    refine iff_of_false (fun heq => ?_) (by omega)
    have hle := le_length_of_run fun x hx => (heq x).mp (List.mem_append_left _ hx)
    rw [List.length_take, blockLength, if_neg (by omega), ulongSub] at hle
    omega

end Walk

namespace CacheDevice

variable {dev : CacheDevice} {o : CachedObject} {a : MemSync} {t : CacheType} {length offset : Nat}

theorem asked_iff (hfits : offset + length ≤ o.cacheSize t ∨
      ((dev.cacheBlocks o t).map Segment.length).sum = o.cacheSize t) {x : Nat} :
    (∃ b, offset ≤ b ∧ b < offset + length ∧ b < o.cacheSize t ∧ (dev.cacheBytes o t)[b]? = some x) ↔
      x ∈ ((dev.cacheBytes o t).drop offset).take length := by
  rw [mem_take_drop]
  refine exists_congr fun b => and_congr_right fun _ => and_congr_right fun hlt =>
    and_iff_right_of_imp fun hb => ?_
  have hlen : b < (dev.cacheBytes o t).length := (List.getElem?_eq_some_iff.mp hb).1
  rw [cacheBytes, length_bytesOf] at hlen
  omega

/-- What is left is right exactly if the blocks end where the cache part does, or before the
range does. -/
theorem left_iff (hin : offset < o.cacheSize t)
    (hsum : o.cacheSize t ≤ ((dev.cacheBlocks o t).map Segment.length).sum)
    (hlen : ∀ s ∈ dev.cacheBlocks o t, s.length < 2 ^ 64) (h : offset + length < 2 ^ 64) :
    (if offset + length ≤ max offset (o.cacheSize t) then (dev.cacheSync o a t length offset).2.1 = 0
      else (dev.cacheSync o a t length offset).2 =
        (offset + length - max offset (o.cacheSize t), max offset (o.cacheSize t) - o.cacheSize t)) ↔
      offset + length ≤ o.cacheSize t ∨
        ((dev.cacheBlocks o t).map Segment.length).sum = o.cacheSize t := by
  rw [cacheSync_walk hin, Nat.max_eq_right hin.le]
  cases hb : dev.cacheBlocks o t with
  | nil =>
    rw [hb] at hsum
    simp at hsum
    omega
  | cons s sgl =>
    rw [hb] at hsum hlen
    rw [left_cacheSyncWithSg h hlen]
    split
    · dsimp only
      omega
    · rw [Prod.mk.injEq]
      omega

/-- The synchronization is exact if and only if the range begins where the function can begin,
and ends where it can stop. -/
theorem cacheSync_exact_iff (dev : CacheDevice) (o : CachedObject) (a : MemSync) (t : CacheType)
    (length offset : Nat)
    (hsum : o.cacheSize t ≤ ((dev.cacheBlocks o t).map Segment.length).sum)
    (hapart : (dev.cacheBlocks o t).Pairwise Segment.Separate)
    (hlen : ∀ s ∈ dev.cacheBlocks o t, s.length < 2 ^ 64) (h : offset + length < 2 ^ 64) :
    dev.SyncedExactly o a t length offset ↔ dev.OffsetFits o a t length offset := by
  by_cases hin : offset < o.cacheSize t
  swap
  · have hnone : dev.cacheSync o a t length offset = ([], length, offset - o.cacheSize t) := by
      have hsub : ulongSub offset (o.cacheSize t) = offset - o.cacheSize t :=
        ulongSub_eq (by omega) (by omega)
      rw [cacheSync_outside (by omega), hsub]
    refine iff_of_true ⟨fun d x => ?_, ?_⟩ (.inl (by omega))
    · rw [hnone]
      refine iff_of_false (List.not_mem_nil) ?_
      rintro ⟨-, b, hle, -, hlt, -⟩
      omega
    · rw [hnone, Nat.max_eq_left (by omega)]
      split
      · dsimp only
        omega
      · rw [Prod.mk.injEq]
        omega
  have hleft := left_iff (a := a) hin hsum hlen h
  have hout : ¬o.cacheSize t ≤ offset := by omega
  have hwalk : (dev.cacheSync o a t length offset).1 =
      (cacheSyncWithSg a (dev.cacheBlocks o t) length offset).1 := by rw [cacheSync_walk hin]
  -- in each direction that is requested the bytes are right if the first block is
  have hbytes : ∀ d, a.requests d → offset + length ≤ o.cacheSize t ∨
      ((dev.cacheBlocks o t).map Segment.length).sum = o.cacheSize t →
      ((∀ x, x ∈ maintained d (dev.cacheSync o a t length offset).1 ↔ ∃ b, offset ≤ b ∧
          b < offset + length ∧ b < o.cacheSize t ∧ (dev.cacheBytes o t)[b]? = some x) ↔
        offset = 0 ∨ offset = ((dev.cacheBlocks o t).map Segment.length).headD 0 ∨
          length = 0 ∧ offset ≤ ((dev.cacheBlocks o t).map Segment.length).headD 0) := by
    intro d hd hfits
    simp only [asked_iff hfits]
    rw [hwalk, cacheBytes]
    cases hb : dev.cacheBlocks o t with
    | nil =>
      rw [hb] at hsum
      simp at hsum
      omega
    | cons s sgl =>
      rw [hb] at hapart hlen
      exact maintained_eq_iff hd hapart hlen h
  constructor
  · intro hex
    have hfits := hleft.mp hex.rest
    refine .inr ⟨hfits, ?_⟩
    by_cases hd : ∃ d, a.requests d
    · obtain ⟨d, hd⟩ := hd
      exact .inr ((hbytes d hd hfits).mp fun x => (hex.bytes d x).trans (and_iff_right hd))
    · exact .inl (by simpa using hd)
  · rintro (hle | ⟨hfits, hfirst⟩)
    · exact absurd hle hout
    refine ⟨fun d x => ?_, hleft.mpr hfits⟩
    by_cases hd : a.requests d
    · rcases hfirst with hnone | hfirst
      · rw [hnone d] at hd
        cases hd
      · exact ((hbytes d hd hfits).mpr hfirst x).trans (and_iff_right hd).symm
    · rw [Bool.not_eq_true] at hd
      rw [hwalk, maintained_cacheSyncWithSg_silent hd]
      simp [hd]

theorem cacheSync_exact_second : twoCoreCache.SyncedExactly nbufObject ⟨0x1, 448 * 1024, 128 * 1024⟩ .nbuf
    (128 * 1024) (448 * 1024) :=
  (cacheSync_exact_iff twoCoreCache nbufObject ⟨0x1, 448 * 1024, 128 * 1024⟩ .nbuf (128 * 1024)
    (448 * 1024) (by decide) (by simp [cacheBlocks, nbufObject, cacheSegments, twoCoreCache,
      Segment.Separate]) (by decide) (by decide)).mpr (.inr ⟨.inr (by decide), .inr (.inr (.inl rfl))⟩)

/-- The function begins with the first byte of the cache part, wherever the range begins. -/
theorem cacheSync_first_bytes : ¬∀ (dev : CacheDevice) (o : CachedObject) (a : MemSync) (t : CacheType)
    (length offset : Nat), 0 < o.cacheSize t →
      o.cacheSize t ≤ ((dev.cacheBlocks o t).map Segment.length).sum → offset + length < 2 ^ 64 →
      offset + length ≤ o.cacheSize t + o.size → dev.SyncedExactly o a t length offset := by
  intro h
  have hex := h twoCoreCache { nbufObject with cacheWithSgt := false } ⟨0x1, 64, 64⟩ .nbuf 64 64
    (by decide) (by decide) (by decide) (by decide)
  obtain ⟨-, b, hle, -, -, hb⟩ := (hex.bytes .toDevice 0x3fe80000).mp (by decide)
  obtain ⟨hlt, hb⟩ := List.getElem?_eq_some_iff.mp hb
  simp [cacheBytes, cacheBlocks, bytesOf, Segment.bytes, cacheStart, cacheOffset, twoCoreCache] at hb
  omega

end CacheDevice

end Rknpu

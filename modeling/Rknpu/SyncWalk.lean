import Rknpu.CacheSync

namespace Rknpu

/-- A stretch of one segment, where the segments before it have `base` bytes. -/
structure Piece where
  seg : Segment
  base : Nat
  offset : Nat
  size : Nat

namespace Piece

variable (w : Piece)

def start : Nat := w.base + w.offset

def stop : Nat := w.start + w.size

def maintain (a : MemSync) : List SyncRange := syncRange a w.seg.phys w.offset w.size

end Piece

/-- The stretches of `sgl`, which has `len` bytes in front of it, that the range of `length`
bytes at `offset` consists of. -/
structure Tiles (sgl : List Segment) (length offset len : Nat) (ws : List Piece) : Prop where
  inside : ∀ w ∈ ws, w.offset + w.size ≤ w.seg.length ∧ ∃ pre post, sgl = pre ++ w.seg :: post ∧
    w.base = len + (pre.map Segment.length).sum
  nonempty : ∀ w ∈ ws, 0 < w.size
  ordered : ws.Pairwise fun w w' => w.stop ≤ w'.start
  exact : ∀ p, (∃ w ∈ ws, w.start ≤ p ∧ p < w.stop) ↔
    offset ≤ p ∧ p < min (offset + length) (len + (sgl.map Segment.length).sum)

/-- What the loop comes to with `len` bytes passed. -/
def walkPieces : List Segment → Nat → Nat → Nat → List Piece
  | [], _, _, _ => []
  | sg :: sgl, length, offset, len =>
    if length = 0 then []
    else if len + sg.length ≤ offset then walkPieces sgl length offset (len + sg.length)
    else
      let size := min length (len + sg.length - offset)
      ⟨sg, len, offset - len, size⟩ ::
        walkPieces sgl (length - size) (offset + size) (len + sg.length)

namespace Tiles

variable {sg : Segment} {sgl : List Segment} {length offset len size : Nat} {ws : List Piece}

theorem nil (h : length = 0 ∨ len + (sgl.map Segment.length).sum ≤ offset) :
    Tiles sgl length offset len [] := by
  refine ⟨by simp, by simp, .nil, fun p => ?_⟩
  constructor
  · rintro ⟨w, hw, -⟩
    cases hw
  · rintro ⟨hp, hp'⟩
    omega

theorem inside_cons (h : Tiles sgl length offset (len + sg.length) ws) {w : Piece} (hw : w ∈ ws) :
    w.offset + w.size ≤ w.seg.length ∧ ∃ pre post, sg :: sgl = pre ++ w.seg :: post ∧
      w.base = len + (pre.map Segment.length).sum := by
  obtain ⟨hle, pre, post, rfl, hbase⟩ := h.inside w hw
  refine ⟨hle, sg :: pre, post, rfl, ?_⟩
  rw [hbase, List.map_cons, List.sum_cons, Nat.add_assoc]

theorem skip (h : Tiles sgl length offset (len + sg.length) ws) :
    Tiles (sg :: sgl) length offset len ws := by
  refine ⟨fun w hw => h.inside_cons hw, h.nonempty, h.ordered, fun p => ?_⟩
  rw [h.exact p, List.map_cons, List.sum_cons, Nat.add_assoc]

theorem take (hpassed : len ≤ offset) (hsize : size = min length (len + sg.length - offset))
    (hpos : 0 < size) (h : Tiles sgl (length - size) (offset + size) (len + sg.length) ws) :
    Tiles (sg :: sgl) length offset len (⟨sg, len, offset - len, size⟩ :: ws) := by
  have hstart : len + (offset - len) = offset := by omega
  constructor
  case inside =>
    intro w hw
    rcases List.mem_cons.mp hw with rfl | hw
    · exact ⟨by dsimp only; omega, [], sgl, rfl, rfl⟩
    · exact h.inside_cons hw
  case nonempty =>
    intro w hw
    rcases List.mem_cons.mp hw with rfl | hw
    · exact hpos
    · exact h.nonempty w hw
  case ordered =>
    refine List.pairwise_cons.mpr ⟨fun w hw => ?_, h.ordered⟩
    -- the first byte of a later piece is one of the rest of the range
    have hfirst : w.start < w.stop := by
      have := h.nonempty w hw
      rw [Piece.stop]
      omega
    have hrest := ((h.exact w.start).mp ⟨w, hw, le_rfl, hfirst⟩).1
    rw [Piece.stop, Piece.start, hstart]
    exact hrest
  case exact =>
    intro p
    have hcons : (∃ w ∈ (⟨sg, len, offset - len, size⟩ : Piece) :: ws, w.start ≤ p ∧ p < w.stop) ↔
        (offset ≤ p ∧ p < offset + size) ∨ ∃ w ∈ ws, w.start ≤ p ∧ p < w.stop := by
      simp only [List.mem_cons, exists_eq_or_imp, Piece.stop, Piece.start, hstart]
    rw [hcons, h.exact p, List.map_cons, List.sum_cons]
    clear hcons h
    constructor
    · rintro (⟨hp, hp'⟩ | ⟨hp, hp'⟩)
      · exact ⟨hp, by omega⟩
      · exact ⟨by omega, by omega⟩
    · rintro ⟨hp, hp'⟩
      by_cases hhere : p < offset + size
      · exact .inl ⟨hp, hhere⟩
      · exact .inr ⟨by omega, by omega⟩

end Tiles

variable {a : MemSync} {sgl : List Segment} {length offset len : Nat}

theorem tiles_walkPieces (hpassed : len ≤ offset) :
    Tiles sgl length offset len (walkPieces sgl length offset len) := by
  induction sgl generalizing length offset len with
  | nil => exact .nil (.inr (by simpa using hpassed))
  | cons sg sgl ih =>
    rw [walkPieces]
    split
    · exact .nil (.inl ‹_›)
    split
    · exact (ih ‹_›).skip
    · by_cases hlast : length ≤ len + sg.length - offset
      · -- the range ends here, so that nothing is left of it
        have hmin : min length (len + sg.length - offset) = length := Nat.min_eq_left hlast
        dsimp only
        rw [hmin, Nat.sub_self]
        have hend : walkPieces sgl 0 (offset + length) (len + sg.length) = [] := by
          cases sgl <;> rfl
        rw [hend]
        refine .take hpassed hmin.symm (by omega) ?_
        rw [Nat.sub_self]
        exact .nil (.inl rfl)
      · have hmin : min length (len + sg.length - offset) = len + sg.length - offset :=
          Nat.min_eq_right (by omega)
        dsimp only
        rw [hmin]
        exact .take hpassed hmin.symm (by omega) (ih (by omega))

/-- The loop is that over the pieces. -/
theorem syncSegments_walkPieces (hpassed : len ≤ offset) :
    syncSegments a sgl length offset len =
      (walkPieces sgl length offset len).flatMap (·.maintain a) := by
  induction sgl generalizing length offset len with
  | nil => rfl
  | cons sg sgl ih =>
    rw [walkPieces, syncSegments]
    by_cases hzero : length = 0
    · rw [if_pos hzero, if_pos hzero]
      rfl
    rw [if_neg hzero, if_neg hzero]
    by_cases hpast : len + sg.length ≤ offset
    · rw [if_pos hpast, if_pos hpast, ih hpast]
    rw [if_neg hpast, if_neg hpast]
    have hoff : sg.length - (len + sg.length - offset) = offset - len := by omega
    dsimp only
    rw [List.flatMap_cons, Piece.maintain, hoff]
    by_cases hlast : length < len + sg.length - offset
    · rw [if_pos hlast, Nat.min_eq_left hlast.le, Nat.sub_self, syncSegments_zero]
      have hend : walkPieces sgl 0 (offset + length) (len + sg.length) = [] := by
        cases sgl <;> rfl
      rw [hend]
      rfl
    · rw [if_neg hlast, Nat.min_eq_right (by omega), ih (by omega)]

/-- The loop over all the segments maintains the pieces of the range one after another, and
nothing where the range has no byte in the buffer. -/
theorem syncPages_exact (sgl : List Segment) (size offset : Nat)
    (htotal : (sgl.map Segment.length).sum < 2 ^ 64) (hsize : size < 2 ^ 64)
    (hoffset : offset < 2 ^ 64) :
    (∃ ws, Tiles sgl size offset 0 ws ∧
      ∀ a, syncPages a sgl size offset 0 = ws.flatMap (·.maintain a)) ∧
    ((sgl.map Segment.length).sum ≤ offset ∨ size = 0 → ∀ a, syncPages a sgl size offset 0 = []) := by
  have hpages : ∀ a, syncPages a sgl size offset 0 =
      (walkPieces sgl size offset 0).flatMap (·.maintain a) := by
    intro a
    rw [syncPages_eq (Nat.zero_le _) hoffset hsize (by omega), syncSegments_walkPieces (Nat.zero_le _)]
  have htiles : Tiles sgl size offset 0 (walkPieces sgl size offset 0) :=
    tiles_walkPieces (Nat.zero_le _)
  refine ⟨⟨_, htiles, hpages⟩, fun hout a => ?_⟩
  have hnone : walkPieces sgl size offset 0 = [] := by
    refine List.eq_nil_iff_forall_not_mem.mpr fun w hw => ?_
    have hpos := htiles.nonempty w hw
    have hfirst := (htiles.exact w.start).mp ⟨w, hw, le_rfl, by rw [Piece.stop]; omega⟩
    omega
  rw [hpages, hnone]
  rfl

theorem syncPages_exact_two :
    (∃ ws, Tiles [⟨0, 4096⟩, ⟨0x10000, 4096⟩, ⟨0x20000, 4096⟩] 4096 1024 0 ws ∧
      ∀ a, syncPages a [⟨0, 4096⟩, ⟨0x10000, 4096⟩, ⟨0x20000, 4096⟩] 4096 1024 0 =
        ws.flatMap (·.maintain a)) ∧
    syncPages ⟨0x1, 1024, 4096⟩ [⟨0, 4096⟩, ⟨0x10000, 4096⟩, ⟨0x20000, 4096⟩] 4096 1024 0 =
      [⟨.toDevice, 0, 1024, 3072⟩, ⟨.toDevice, 0x10000, 0, 1024⟩] :=
  ⟨(syncPages_exact [⟨0, 4096⟩, ⟨0x10000, 4096⟩, ⟨0x20000, 4096⟩] 4096 1024 (by decide) (by decide)
    (by decide)).1, rfl⟩

/-- What is left for the pages after a cache part goes through this loop, over all of the
segments where `dma_map_sg` has merged none. -/
theorem SyncObject.gemSyncIoctl_pages {B : Build} {dev : IoDevice} (o : SyncObject B dev) (a : MemSync)
    (hc : o.cacheable) (hn : o.nonContiguous) (hall : o.nents = o.sgl.length) :
    ∃ c length offset, SyncObject.gemSyncIoctl (some o) 0 a =
      (0, c ++ (syncPages a o.sgl length offset 0).map (.phys, ·)) := by
  simp only [SyncObject.gemSyncIoctl, hc, hn, hall, List.take_length, Bool.not_true,
    Bool.false_eq_true, if_false, ne_eq, not_true_eq_false]
  exact ⟨_, _, _, rfl⟩

end Rknpu

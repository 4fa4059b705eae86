import Rknpu.Schedule

namespace Rknpu

section Pieces

/-- The number of pieces of `m` things that `n` things are cut into, the last one short. -/
def pieces (n m : Nat) : Nat := (n + m - 1) / m

variable {n m k : Nat}

theorem lt_pieces (hm : 0 < m) : k < pieces n m ↔ k * m < n := by
  rw [pieces, Nat.lt_iff_add_one_le, Nat.le_div_iff_mul_le hm, Nat.succ_mul]
  omega

theorem pieces_pos (hm : 0 < m) (hn : 0 < n) : 0 < pieces n m :=
  (lt_pieces hm).mpr (by omega)

theorem le_of_mem_piece {k l t : Nat} (hk : t < (k + 1) * m) (hl : l * m ≤ t) : l ≤ k := by
  by_contra hlt
  have := Nat.mul_le_mul_right m (show k + 1 ≤ l by omega)
  omega

/-- Every thing is in one piece. -/
theorem existsUnique_piece {t : Nat} (hm : 0 < m) (ht : t < n) :
    ∃! k, k < pieces n m ∧ k * m ≤ t ∧ t < min ((k + 1) * m) n := by
  have hlow : t / m * m ≤ t := Nat.div_mul_le_self t m
  refine ⟨t / m, ⟨(lt_pieces hm).mpr (by omega), hlow, lt_min ?_ ht⟩, ?_⟩
  · rw [Nat.succ_mul]
    exact Nat.lt_div_mul_add hm
  · rintro k ⟨-, hk, hk'⟩
    refine Nat.le_antisymm ?_ (le_of_mem_piece (lt_min_iff.mp hk').1 hlow)
    exact (Nat.le_div_iff_mul_le hm).mpr hk

end Pieces

theorem toInt_eq {x : Int} (h : -2 ^ 31 ≤ x) (h' : x < 2 ^ 31) : toInt x = x :=
  Int.bmod_eq_of_le (by omega) (by omega)

namespace Config

variable (cfg : Config)

theorem maxSubmitNumber_pos : 0 < cfg.maxSubmitNumber := by
  have := Nat.one_lt_two_pow cfg.pcTaskNumberBits_pos.ne'
  rw [cfg.maxSubmitNumber_eq]
  omega

theorem maxSubmitNumber_lt : cfg.maxSubmitNumber < 2 ^ cfg.pcTaskNumberBits := by
  have := Nat.two_pow_pos cfg.pcTaskNumberBits
  rw [cfg.maxSubmitNumber_eq]
  omega

end Config

namespace Job

variable {cfg : Config} {b : Job} {c k : Nat} {s n : Int}

/-- The two functions that select a number of tasks agree. -/
theorem getTaskNumber_eq (hc : c < 3) : b.getTaskNumber cfg c = (b.taskRange cfg c).2 := by
  simp only [getTaskNumber, taskRange, if_neg (Nat.not_le.mpr hc), apply_ite Prod.snd]

/-- Core `c` is given tasks `s` up to `s + n`, and no sum of the driver leaves `int`. -/
structure Fits (cfg : Config) (b : Job) (c : Nat) (s n : Int) : Prop where
  range : b.taskRange cfg c = (s, n)
  start : 0 ≤ s
  pos : 1 ≤ n
  count : n + cfg.maxSubmitNumber ≤ 2 ^ 31 - 1
  last : s + n ≤ 2 ^ 31 - 1

def chunks (cfg : Config) (n : Int) : Nat := pieces n.toNat cfg.maxSubmitNumber

theorem lt_chunks (hn : 0 ≤ n) : k < chunks cfg n ↔ (k * cfg.maxSubmitNumber : Int) < n := by
  rw [chunks, lt_pieces cfg.maxSubmitNumber_pos]
  omega

/-- `rknpu_job_done` counts the chunks right unless its sum overflows. -/
theorem chunkCount_eq (hc : c < 3) (hr : b.taskRange cfg c = (s, n)) (hn : 0 ≤ n)
    (hcount : n + cfg.maxSubmitNumber ≤ 2 ^ 31 - 1) : b.chunkCount cfg c = chunks cfg n := by
  have hM := cfg.maxSubmitNumber_pos
  obtain ⟨m, rfl⟩ := Int.eq_ofNat_of_zero_le hn
  rw [chunkCount, getTaskNumber_eq hc, hr, toInt_eq (by omega) (by omega), chunks, pieces,
    Int.toNat_natCast,
    show ((m : Int) + cfg.maxSubmitNumber - 1) = ((m + cfg.maxSubmitNumber - 1 : Nat) : Int) by
      omega]
  exact (Int.ofNat_tdiv _ _).symm

namespace Fits

variable (h : Fits cfg b c s n)
include h

theorem offset_lt (hk : k < chunks cfg n) :
    0 ≤ (k * cfg.maxSubmitNumber : Int) ∧ (k * cfg.maxSubmitNumber : Int) < n :=
  ⟨by positivity, (lt_chunks (by have := h.pos; omega)).mp hk⟩

theorem chunkStart_eq (hk : k < chunks cfg n) :
    b.chunkStart cfg c k = s + k * cfg.maxSubmitNumber := by
  have hlt := h.offset_lt hk
  have hs := h.start
  have hl := h.last
  rw [chunkStart, h.range]
  exact toInt_eq (by omega) (by omega)

theorem chunkNumber_eq (hk : k < chunks cfg n) :
    b.chunkNumber cfg c k = min ((k + 1) * cfg.maxSubmitNumber : Int) n - k * cfg.maxSubmitNumber := by
  have hlt := h.offset_lt hk
  have hcount := h.count
  rw [chunkNumber, h.range, toInt_eq (by omega) (by omega), add_mul, one_mul]
  omega

theorem chunkNumber_mem (hk : k < chunks cfg n) :
    1 ≤ b.chunkNumber cfg c k ∧ b.chunkNumber cfg c k ≤ cfg.maxSubmitNumber := by
  have hlt := h.offset_lt hk
  have hM := cfg.maxSubmitNumber_pos
  rw [h.chunkNumber_eq hk, add_mul, one_mul]
  omega

theorem chunkEnd_eq (hk : k < chunks cfg n) :
    b.chunkEnd cfg c k = s + min ((k + 1) * cfg.maxSubmitNumber : Int) n - 1 := by
  have hlt := h.offset_lt hk
  have hs := h.start
  have hl := h.last
  have hnum := h.chunkNumber_mem hk
  rw [chunkEnd, h.chunkStart_eq hk, h.chunkNumber_eq hk]
  rw [h.chunkNumber_eq hk] at hnum
  rw [toInt_eq (by omega) (by omega)]
  omega

theorem chunks_pos : 0 < chunks cfg n :=
  pieces_pos cfg.maxSubmitNumber_pos (by have := h.pos; omega)

theorem existsUnique_chunk {t : Int} (ht : s ≤ t) (ht' : t < s + n) :
    ∃! k, k < chunks cfg n ∧ b.chunkStart cfg c k ≤ t ∧ t ≤ b.chunkEnd cfg c k := by
  obtain ⟨i, hi⟩ := Int.eq_ofNat_of_zero_le (show 0 ≤ t - s by omega)
  obtain ⟨m, rfl⟩ := Int.eq_ofNat_of_zero_le (show 0 ≤ n by have := h.pos; omega)
  have hiff : ∀ k < chunks cfg m, (b.chunkStart cfg c k ≤ t ∧ t ≤ b.chunkEnd cfg c k) ↔
      k * cfg.maxSubmitNumber ≤ i ∧ i < min ((k + 1) * cfg.maxSubmitNumber) m := fun k hk => by
    rw [h.chunkStart_eq hk, h.chunkEnd_eq hk]
    zify
    omega
  obtain ⟨k, ⟨hk, hin⟩, huniq⟩ :=
    existsUnique_piece (n := m) (t := i) cfg.maxSubmitNumber_pos (by omega)
  exact ⟨k, ⟨hk, (hiff k hk).mpr hin⟩, fun l hl => huniq l ⟨hl.1, (hiff l hl.1).mp hl.2⟩⟩

end Fits

end Job

end Rknpu

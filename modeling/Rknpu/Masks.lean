import Rknpu.Job

namespace Rknpu

theorem and_mod_eight (m k : Nat) (h : 7 &&& k = k) : m % 8 &&& k = m &&& k := by
  rw [show (8 : Nat) = 2 ^ 3 from rfl, ← Nat.and_two_pow_sub_one_eq_mod, Nat.and_assoc]
  exact congrArg _ h

theorem inMask_mod (m c : Nat) : inMask (m % 8) c = inMask m c := by
  have h : m % 8 &&& coreMaskOf c = m &&& coreMaskOf c := by
    apply and_mod_eight
    rcases c with _ | _ | _ | c <;> simp [coreMaskOf]
  simp only [inMask, h]

theorem inMask_lt {m c : Nat} (h : inMask m c) : c < 3 := by
  by_contra hc
  obtain ⟨d, rfl⟩ : ∃ d, c = d + 3 := ⟨c - 3, by omega⟩
  simp [inMask, coreMaskOf] at h

/-- `use_core_num` is the number of cores in the mask. -/
theorem maskBits_eq (m : Nat) :
    maskBits m = ((List.range 3).filter (fun c => inMask m c)).length := by
  have h : ∀ r < 8, maskBits r = ((List.range 3).filter (fun c => inMask r c)).length := by decide
  have hm := h (m % 8) (Nat.mod_lt _ (by decide))
  simpa only [maskBits, and_mod_eight m 1 rfl, and_mod_eight m 2 rfl, and_mod_eight m 4 rfl,
    inMask_mod] using hm

theorem maskBits_coreMaskOf {c : Nat} (h : c < 3) : maskBits (coreMaskOf c) = 1 := by
  rcases c with _ | _ | _ | c
  · rfl
  · rfl
  · rfl
  · omega

theorem coreMaskOf_ne_zero {c : Nat} (h : c < 3) : coreMaskOf c ≠ 0 := by
  rcases c with _ | _ | _ | c
  · decide
  · decide
  · decide
  · omega

theorem length_le_maskBits {m : Nat} {l : List Nat} (hn : l.Nodup) (h : ∀ c ∈ l, inMask m c) :
    l.length ≤ maskBits m := by
  rw [maskBits_eq]
  apply List.Subperm.length_le
  apply List.subperm_of_subset hn
  intro c hc
  exact List.mem_filter.mpr ⟨List.mem_range.mpr (inMask_lt (h c hc)), h c hc⟩

theorem mem_of_maskBits_le {m : Nat} {l : List Nat} (hn : l.Nodup) (h : ∀ c ∈ l, inMask m c)
    (hl : maskBits m ≤ l.length) {c : Nat} (hc : inMask m c) : c ∈ l := by
  rw [maskBits_eq] at hl
  have hsub : l.Subperm ((List.range 3).filter (fun c => inMask m c)) :=
    List.subperm_of_subset hn fun d hd =>
      List.mem_filter.mpr ⟨List.mem_range.mpr (inMask_lt (h d hd)), h d hd⟩
  have hp := hsub.perm_of_length_le hl
  exact hp.mem_iff.mpr (List.mem_filter.mpr ⟨List.mem_range.mpr (inMask_lt hc), hc⟩)

theorem inMask_of_mem_commitCores {m c : Nat} (h : c ∈ commitCores m) : inMask m c := by
  unfold commitCores at h
  split at h <;> simp at h
  · subst h; rfl
  · subst h; rfl
  · subst h; rfl
  · rcases h with rfl | rfl <;> rfl
  · rcases h with rfl | rfl | rfl <;> rfl

theorem nodup_commitCores (m : Nat) : (commitCores m).Nodup := by
  unfold commitCores
  split <;> decide

end Rknpu

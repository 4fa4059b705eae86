import Rknpu.Interleaving.Termination

namespace Interleaving

variable {σ α χ ε ι : Type}

/-- The locks of a machine: which are held in a state, which a statement runs under, and which
one it waits for. Every lock is taken under locks of a lower level only. -/
structure Locking (σ α ι : Type) where
  held : σ → ι → Bool
  holds : ι → α → Nat
  wants : α → Option ι
  level : ι → Nat
  top : Nat
  level_le : ∀ l, level l ≤ top
  ordered : ∀ a l m, wants a = some l → 0 < holds m a → level m < level l

namespace Locking

variable (K : Locking σ α ι) (s : σ) (B : Multiset α)

/-- A lock is held by one pending statement, or it is free. -/
def Kept : Prop := ∀ l, (if K.held s l then 1 else 0 : Int) = load (K.holds l) B

def Open (a : α) : Prop := ∀ l, K.wants a = some l → K.held s l = false

variable {K s B}

theorem Kept.holder (h : K.Kept s B) {l : ι} (hl : K.held s l) : ∃ a ∈ B, 0 < K.holds l a := by
  have hone := h l
  rw [if_pos hl] at hone
  exact load_pos (K.holds l) (by omega)

theorem Kept.le_one (h : K.Kept s B) (l : ι) : load (K.holds l) B ≤ 1 := by
  have hone := h l
  split at hone <;> omega

/-- Along the levels one comes to a statement that does not have to wait. -/
theorem Kept.exists_open (h : K.Kept s B) {a : α} (ha : a ∈ B) : ∃ c ∈ B, K.Open s c := by
  have hup : ∀ n a l, a ∈ B → K.wants a = some l → K.top - K.level l = n →
      ∃ c ∈ B, K.Open s c := by
    intro n
    induction n using Nat.strongRecOn with
    | ind n ih =>
      intro a l ha hw hn
      by_cases hl : K.held s l = true
      · obtain ⟨c, hc, hpos⟩ := h.holder hl
        cases hm : K.wants c with
        | none => exact ⟨c, hc, fun m hw => by rw [hm] at hw; cases hw⟩
        | some m =>
          have hlt := K.ordered c m l hm hpos
          have hle := K.level_le m
          exact ih _ (by omega) c m hc hm rfl
      · refine ⟨a, ha, fun m hm => ?_⟩
        rw [hw] at hm
        cases hm
        exact Bool.eq_false_of_not_eq_true hl
  cases hw : K.wants a with
  | none => exact ⟨a, ha, fun l hl => by rw [hw] at hl; cases hl⟩
  | some l => exact hup _ a l ha hw rfl

end Locking

variable {M : Machine σ α χ ε} {H : Guard σ α χ ε} {C : Conf σ α} {K : Locking σ α ι}

/-- There is no deadlock: where a statement that need not wait can run, no step is left only
where nothing is pending. -/
theorem Final.pending_eq_zero_of_locks (hF : Final M H C) (hK : K.Kept C.shared C.pending)
    (hone : ∀ t ∈ C.threads, t.length ≤ 1)
    (hrun : ∀ a ∈ C.pending, K.Open C.shared a →
      ∃ x, H.run C.shared C.pending a x ∧ (M.exec a x C.shared).isSome) : C.pending = 0 := by
  by_contra hne
  obtain ⟨a, ha⟩ := Multiset.exists_mem_of_ne_zero hne
  obtain ⟨c, hc, hopen⟩ := hK.exists_open ha
  obtain ⟨x, hG, hx⟩ := hrun c hc hopen
  obtain ⟨⟨s, p⟩, hs⟩ := Option.isSome_iff_exists.mp hx
  obtain ⟨t, ht, hct⟩ := List.mem_flatten.mp (Multiset.mem_coe.mp hc)
  obtain ⟨i, hi⟩ := List.mem_iff_getElem?.mp ht
  obtain rfl : t = [c] := by
    match t, hone t ht, hct with
    | [d], _, hct => rw [List.mem_singleton.mp hct]
  exact hF _ (.run hi hG hs)

end Interleaving

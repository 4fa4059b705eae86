import Rknpu.Interleaving.Machine

namespace Interleaving

variable {σ α χ ε : Type} {M : Machine σ α χ ε} {G H : Guard σ α χ ε} {s₀ : σ}
  {C D E : Conf σ α} {m n : Nat}

inductive Next (M : Machine σ α χ ε) (G : Guard σ α χ ε) (C : Conf σ α) : Conf σ α → Prop
  | run {i : Nat} {a : α} {k : List α} {x : χ} {s : σ} {p : List α} :
      C.threads[i]? = some (a :: k) → G.run C.shared C.pending a x →
      M.exec a x C.shared = some (s, p) → Next M G C ⟨s, C.threads.set i (p ++ k)⟩
  | env {e : ε} {s : σ} {p : List α} : G.env C.shared C.pending e →
      M.env e C.shared = some (s, p) → Next M G C ⟨s, C.threads ++ [p]⟩

inductive Path (M : Machine σ α χ ε) (G : Guard σ α χ ε) (C : Conf σ α) : Nat → Conf σ α → Prop
  | refl : Path M G C 0 C
  | step {n : Nat} {D E : Conf σ α} : Path M G C n D → Next M G D E → Path M G C (n + 1) E

/-- No step is left that the guard admits. -/
def Final (M : Machine σ α χ ε) (G : Guard σ α χ ε) (C : Conf σ α) : Prop := ∀ D, ¬Next M G C D

/-- Every step that `H` admits is one of `G`. -/
def Guard.Within (H G : Guard σ α χ ε) : Prop :=
  (∀ s B a x, H.run s B a x → G.run s B a x) ∧ ∀ s B e, H.env s B e → G.env s B e

theorem Reach.next (hC : Reach M G s₀ C) (hH : H.Within G) (h : Next M H C D) : Reach M G s₀ D := by
  cases h with
  | run hi hG hx => exact .run hC hi (hH.1 _ _ _ _ hG) hx
  | env hG he => exact .env hC (hH.2 _ _ _ hG) he

theorem Reach.path (hC : Reach M G s₀ C) (hH : H.Within G) (h : Path M H C n D) :
    Reach M G s₀ D := by
  induction h with
  | refl => exact hC
  | step _ hn ih => exact ih.next hH hn

theorem Path.trans (h : Path M G C m D) (h' : Path M G D n E) : Path M G C (m + n) E := by
  induction h' with
  | refl => exact h
  | step _ hn ih => exact .step ih hn

/-- A number that goes down with every step of `H` from a state that `G` reaches. -/
structure Ranking (M : Machine σ α χ ε) (G H : Guard σ α χ ε) (s₀ : σ)
    (rank : σ → Multiset α → Nat) : Prop where
  within : H.Within G
  next : ∀ C D, Reach M G s₀ C → Next M H C D → rank D.shared D.pending < rank C.shared C.pending

namespace Ranking

variable {rank : σ → Multiset α → Nat} (h : Ranking M G H s₀ rank)
include h

theorem path_le (hC : Reach M G s₀ C) (hp : Path M H C n D) :
    n + rank D.shared D.pending ≤ rank C.shared C.pending := by
  induction hp with
  | refl => exact (Nat.zero_add _).le
  | step hp hn ih =>
    have := h.next _ _ (hC.path h.within hp) hn
    omega

/-- Whatever is done first, the steps come to an end. -/
theorem exists_final (hC : Reach M G s₀ C) : ∃ n D, Path M H C n D ∧ Final M H D := by
  induction hr : rank C.shared C.pending using Nat.strongRecOn generalizing C with
  | ind r ih =>
    by_cases hf : Final M H C
    · exact ⟨0, C, .refl, hf⟩
    · obtain ⟨D, hn⟩ := not_forall_not.mp hf
      obtain ⟨n, E, hp, hE⟩ := ih _ (hr ▸ h.next C D hC hn) (hC.next h.within hn) rfl
      exact ⟨1 + n, E, (Path.refl.step hn).trans hp, hE⟩

end Ranking

/-- A step is seen on the bag of pending statements. -/
theorem Ranking.of_steps {rank : σ → Multiset α → Nat} (hw : H.Within G)
    (J : σ → Multiset α → Prop) (hJ : ∀ C, Reach M G s₀ C → J C.shared C.pending)
    (hrun : ∀ s R a x s' p, J s (a ::ₘ R) → H.run s (a ::ₘ R) a x → M.exec a x s = some (s', p) →
      rank s' ((p : Multiset α) + R) < rank s (a ::ₘ R))
    (henv : ∀ s R e s' p, J s R → H.env s R e → M.env e s = some (s', p) →
      rank s' ((p : Multiset α) + R) < rank s R) : Ranking M G H s₀ rank := by
  refine ⟨hw, fun C D hC hn => ?_⟩
  have hj := hJ C hC
  cases hn with
  | run hi hG hx =>
    obtain ⟨R, hB, hB'⟩ := pending_run hi _ _
    rw [hB] at hG hj
    rw [hB', hB]
    exact hrun _ R _ _ _ _ hj hG hx
  | env hG he =>
    rw [pending_env]
    exact henv _ _ _ _ _ hj hG he

theorem Final.pending_eq_zero (hF : Final M G C)
    (hrun : ∀ a ∈ C.pending, ∃ x, G.run C.shared C.pending a x ∧ (M.exec a x C.shared).isSome) :
    C.pending = 0 := by
  by_contra hne
  obtain ⟨a, ha⟩ := Multiset.exists_mem_of_ne_zero hne
  obtain ⟨t, ht, hat⟩ := List.mem_flatten.mp (Multiset.mem_coe.mp ha)
  obtain ⟨b, k, rfl⟩ := List.exists_cons_of_ne_nil (List.ne_nil_of_mem hat)
  obtain ⟨i, hi⟩ := List.mem_iff_getElem?.mp ht
  obtain ⟨x, hG, hx⟩ := hrun b (List.mem_flatten.mpr ⟨_, ht, List.mem_cons_self⟩)
  obtain ⟨⟨s, p⟩, hs⟩ := Option.isSome_iff_exists.mp hx
  exact hF _ (.run hi hG hs)

end Interleaving

import Rknpu.Interleaving.Machine

namespace Interleaving

/-- What a component may do, told by the events it shows. -/
structure Spec (τ η : Type) where
  step : τ → η → τ → Prop

variable {τ η : Type} {S : Spec τ η} {t u v : τ} {es es' : List η} {e : η}

inductive Spec.Trace (S : Spec τ η) (t : τ) : List η → τ → Prop
  | nil : S.Trace t [] t
  | snoc {es : List η} {e : η} {u v : τ} : S.Trace t es u → S.step u e v → S.Trace t (es ++ [e]) v

namespace Spec.Trace

theorem single (h : S.step t e u) : S.Trace t [e] u := .snoc .nil h

theorem append (h : S.Trace t es u) (h' : S.Trace u es' v) : S.Trace t (es ++ es') v := by
  induction h' with
  | nil => rwa [List.append_nil]
  | snoc _ he ih => exact List.append_assoc _ _ _ ▸ .snoc ih he

theorem invariant {I : τ → Prop} (hI : ∀ u e v, I u → S.step u e v → I v) (ht : I t)
    (h : S.Trace t es u) : I u := by
  induction h with
  | nil => exact ht
  | snoc _ he ih => exact hI _ _ _ ih he

end Spec.Trace

variable {σ α χ ε : Type} {M : Machine σ α χ ε} {G : Guard σ α χ ε} {s₀ : σ} {C : Conf σ α}

/-- A machine refines a specification if whatever one of its steps shows is a trace of it, from
the state that stands for the one before to the state that stands for the one after. -/
theorem Reach.refines (S : Spec τ η) (shown : σ → List η) (abs : σ → Multiset α → τ)
    (J : σ → Multiset α → Prop) (hJ : ∀ C, Reach M G s₀ C → J C.shared C.pending)
    (hinit : shown s₀ = [])
    (hrun : ∀ s R a x s' p, J s (a ::ₘ R) → G.run s (a ::ₘ R) a x → M.exec a x s = some (s', p) →
      ∃ es, shown s' = shown s ++ es ∧ S.Trace (abs s (a ::ₘ R)) es (abs s' ((p : Multiset α) + R)))
    (henv : ∀ s R e s' p, J s R → G.env s R e → M.env e s = some (s', p) →
      ∃ es, shown s' = shown s ++ es ∧ S.Trace (abs s R) es (abs s' ((p : Multiset α) + R)))
    (hC : Reach M G s₀ C) : S.Trace (abs s₀ 0) (shown C.shared) (abs C.shared C.pending) := by
  refine hC.invariant_with J (fun s B => S.Trace (abs s₀ 0) (shown s) (abs s B)) hJ ?_ ?_ ?_
  · rw [hinit]
    exact .nil
  · intro s R a x s' p hj hI hG hx
    obtain ⟨es, hs, ht⟩ := hrun s R a x s' p hj hG hx
    rw [hs]
    exact hI.append ht
  · intro s R e s' p hj hI hG he
    obtain ⟨es, hs, ht⟩ := henv s R e s' p hj hG he
    rw [hs]
    exact hI.append ht

end Interleaving

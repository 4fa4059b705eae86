import Rknpu.Interleaving.Machine

namespace Interleaving

variable {σ α χ ε : Type}

/-- A thread that runs with no other between its statements comes to its end; `ok` tells
which answers its calls may get. -/
inductive Returns (M : Machine σ α χ ε) (ok : α → χ → Prop) : σ → List α → σ → Prop
  | nil {s : σ} : Returns M ok s [] s
  | cons {a : α} {x : χ} {s s' t : σ} {p k : List α} :
      ok a x → M.exec a x s = some (s', p) → Returns M ok s' (p ++ k) t →
      Returns M ok s (a :: k) t

namespace Returns

variable {M : Machine σ α χ ε} {ok : α → χ → Prop} {s s' t u : σ} {a : α} {p k : List α}

theorem append (hp : Returns M ok s p t) (hk : Returns M ok t k u) :
    Returns M ok s (p ++ k) u := by
  induction hp with
  | nil => exact hk
  | cons hx he _ ih =>
    have h := ih hk
    rw [List.append_assoc] at h
    exact cons hx he h

theorem of_append (h : Returns M ok s (p ++ k) u) :
    ∃ t, Returns M ok s p t ∧ Returns M ok t k u := by
  generalize hl : p ++ k = l at h
  induction h generalizing p with
  | nil =>
    obtain ⟨rfl, rfl⟩ := List.append_eq_nil_iff.mp hl
    exact ⟨_, nil, nil⟩
  | @cons _ _ _ _ _ p' _ hx he h ih =>
    cases p with
    | nil =>
      obtain rfl : k = _ := hl
      exact ⟨_, nil, cons hx he h⟩
    | cons a p =>
      obtain ⟨rfl, rfl⟩ := List.cons_eq_cons.mp hl
      have hl' : p' ++ p ++ k = p' ++ (p ++ k) := List.append_assoc _ _ _
      obtain ⟨t, hp, hk⟩ := ih hl'
      exact ⟨t, cons hx he hp, hk⟩

/-- A statement whose outcome does not depend on the answer, which `x` may be. -/
theorem iff_of_exec {x : χ} (hx : ok a x) (he : ∀ x, M.exec a x s = some (s', p)) :
    Returns M ok s (a :: k) u ↔ Returns M ok s' (p ++ k) u := by
  constructor
  · intro h
    cases h with
    | cons _ he' h =>
      obtain ⟨rfl, rfl⟩ := Prod.mk.injEq .. ▸ Option.some.inj ((he _).symm.trans he')
      exact h
  · exact cons hx (he x)

theorem head (h : Returns M ok s (a :: k) u) :
    ∃ x s' p, ok a x ∧ M.exec a x s = some (s', p) ∧ Returns M ok s' (p ++ k) u := by
  cases h with
  | cons hx he h => exact ⟨_, _, _, hx, he, h⟩

theorem mono {ok' : α → χ → Prop} (h : Returns M ok s k u) (hok : ∀ a x, ok a x → ok' a x) :
    Returns M ok' s k u := by
  induction h with
  | nil => exact nil
  | cons hx he _ ih => exact cons (hok _ _ hx) he ih

theorem nil_iff : Returns M ok s [] u ↔ u = s := by
  constructor
  · intro h
    cases h with
    | nil => rfl
  · rintro rfl
    exact nil

end Returns

end Interleaving

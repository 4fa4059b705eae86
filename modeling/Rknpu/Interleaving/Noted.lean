import Rknpu.Interleaving.Machine

namespace Interleaving

variable {σ α χ ε ν : Type}

/-- The machine with notes: the successors of a statement carry what is noted when it is run. -/
def Machine.noted (M : Machine σ α χ ε) (note : σ → α → ν → ν) (new : ν) :
    Machine σ (α × ν) χ ε where
  exec a x s := (M.exec a.1 x s).map fun r => (r.1, r.2.map (·, note s a.1 a.2))
  env e s := (M.env e s).map fun r => (r.1, r.2.map (·, new))

def Guard.noted (G : Guard σ α χ ε) : Guard σ (α × ν) χ ε where
  run s B a x := G.run s (B.map Prod.fst) a.1 x
  env s B e := G.env s (B.map Prod.fst) e

variable {M : Machine σ α χ ε} {G : Guard σ (α × ν) χ ε} {H : Guard σ α χ ε} {s₀ s s' : σ}
  {note : σ → α → ν → ν} {new : ν} {C : Conf σ (α × ν)} {B R : Multiset (α × ν)} {a : α × ν}
  {x : χ} {p : List (α × ν)} {e : ε}

def Conf.plain (C : Conf σ (α × ν)) : Conf σ α := C.view id (some ∘ Prod.fst)

@[simp] theorem Conf.plain_shared : C.plain.shared = C.shared := rfl

theorem Conf.pending_plain (C : Conf σ (α × ν)) : C.plain.pending = C.pending.map Prod.fst := by
  rw [Conf.plain, Conf.pending_view, Multiset.filterMap_eq_map]

theorem noted_exec (h : (M.noted note new).exec a x s = some (s', p)) :
    ∃ q, M.exec a.1 x s = some (s', q) ∧ p = q.map (·, note s a.1 a.2) := by
  obtain ⟨r, hr, he⟩ := Option.map_eq_some_iff.mp h
  cases he
  exact ⟨r.2, hr, rfl⟩

theorem noted_env (h : (M.noted note new).env e s = some (s', p)) :
    ∃ q, M.env e s = some (s', q) ∧ p = q.map (·, new) := by
  obtain ⟨r, hr, he⟩ := Option.map_eq_some_iff.mp h
  cases he
  exact ⟨r.2, hr, rfl⟩

theorem filterMap_fst (q : List α) (n : ν) : (q.map (·, n)).filterMap (some ∘ Prod.fst) = q :=
  filterMap_embed (f := fun a => (a, n)) (fun _ => rfl) q

/-- The notes change nothing. -/
theorem Reach.of_noted (hrun : ∀ s B a x, G.run s B a x → H.run s (B.map Prod.fst) a.1 x)
    (henv : ∀ s B e, G.env s B e → H.env s (B.map Prod.fst) e)
    (hC : Reach (M.noted note new) G s₀ C) : Reach M H s₀ C.plain := by
  refine Reach.view id (some ∘ Prod.fst) ?_ ?_ hC
  · intro s B a x s' p hG h
    obtain ⟨q, hq, rfl⟩ := noted_exec h
    rw [Multiset.filterMap_eq_map, filterMap_fst]
    exact ⟨x, hrun _ _ _ _ hG, hq⟩
  · intro s B e s' p hG h
    obtain ⟨q, hq, rfl⟩ := noted_env h
    rw [Multiset.filterMap_eq_map, filterMap_fst]
    exact ⟨e, henv _ _ _ hG, hq⟩

theorem noted_all (K : α → ν → Prop)
    (hrun : ∀ s B a n x s' q, K a n → G.run s B (a, n) x → M.exec a x s = some (s', q) →
      ∀ b ∈ q, K b (note s a n))
    (henv : ∀ s B e s' q, G.env s B e → M.env e s = some (s', q) → ∀ b ∈ q, K b new)
    (hC : Reach (M.noted note new) G s₀ C) : ∀ a ∈ C.pending, K a.1 a.2 := by
  refine hC.pending_all (fun a => K a.1 a.2) (fun s B a x s' p ha hG h b hb => ?_)
    (fun s B e s' p hG h b hb => ?_)
  · obtain ⟨q, hq, rfl⟩ := noted_exec h
    obtain ⟨d, hd, rfl⟩ := List.mem_map.mp hb
    exact hrun s B a.1 a.2 x s' q ha hG hq d hd
  · obtain ⟨q, hq, rfl⟩ := noted_env h
    obtain ⟨d, hd, rfl⟩ := List.mem_map.mp hb
    exact henv s B e s' q hG hq d hd

section Recorded

variable {record : σ → α → ν → ν} {n₀ : ν} {t t' : σ × ν} {D : Conf (σ × ν) α}
  {K : Guard (σ × ν) α χ ε} {b : α} {q : List α}

/-- The machine with a record: the shared state remembers something of what was run. -/
def Machine.recorded (M : Machine σ α χ ε) (record : σ → α → ν → ν) :
    Machine (σ × ν) α χ ε where
  exec a x t := (M.exec a x t.1).map fun r => ((r.1, record t.1 a t.2), r.2)
  env e t := (M.env e t.1).map fun r => ((r.1, t.2), r.2)

def Conf.unrecorded (D : Conf (σ × ν) α) : Conf σ α := ⟨D.shared.1, D.threads⟩

theorem recorded_exec (h : (M.recorded record).exec b x t = some (t', q)) :
    M.exec b x t.1 = some (t'.1, q) ∧ t'.2 = record t.1 b t.2 := by
  obtain ⟨r, hr, he⟩ := Option.map_eq_some_iff.mp h
  cases he
  exact ⟨hr, rfl⟩

theorem recorded_env (h : (M.recorded record).env e t = some (t', q)) :
    M.env e t.1 = some (t'.1, q) ∧ t'.2 = t.2 := by
  obtain ⟨r, hr, he⟩ := Option.map_eq_some_iff.mp h
  cases he
  exact ⟨hr, rfl⟩

/-- The record changes nothing. -/
theorem Reach.of_recorded (hrun : ∀ t B a x, K.run t B a x → H.run t.1 B a x)
    (henv : ∀ t B e, K.env t B e → H.env t.1 B e)
    (hD : Reach (M.recorded record) K (s₀, n₀) D) : Reach M H s₀ D.unrecorded := by
  induction hD with
  | init => exact .init
  | run _ hi hG h ih => exact .run ih hi (hrun _ _ _ _ hG) (recorded_exec h).1
  | env _ hG h ih => exact .env ih (henv _ _ _ hG) (recorded_env h).1

end Recorded

end Interleaving

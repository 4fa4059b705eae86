import Mathlib

namespace Interleaving

variable {κ ι : Type} {order : List ι} {needs : κ → ι → Bool} {served : κ → List ι}
  {serving : κ → Option ι} {waiting : κ → List ι} {c d : κ} {i j : ι}

/-- Parties queue at several stations in one common order. At every station those that
need it were served, are being served or still wait, in this order. -/
structure Line (order : List ι) (needs : κ → ι → Bool) (served : κ → List ι)
    (serving : κ → Option ι) (waiting : κ → List ι) : Prop where
  nodup : order.Nodup
  split : ∀ c, served c ++ ((serving c).toList ++ waiting c) = order.filter (needs c)

theorem Nodup.not_both_orders {l : List ι} (hn : l.Nodup) (h : [i, j].Sublist l)
    (h' : [j, i].Sublist l) : False := by
  induction l with
  | nil => cases h
  | cons a l ih =>
    obtain ⟨ha, hl⟩ := List.nodup_cons.mp hn
    rcases List.sublist_cons_iff.mp h with hij | ⟨r, hr, hij⟩
    · rcases List.sublist_cons_iff.mp h' with hji | ⟨r', hr', -⟩
      · exact ih hl hij hji
      · cases hr'
        exact ha (hij.subset (List.mem_cons_of_mem _ List.mem_cons_self))
    · cases hr
      rcases List.sublist_cons_iff.mp h' with hji | ⟨r', hr', hji⟩
      · exact ha (hji.subset (List.mem_cons_of_mem _ List.mem_cons_self))
      · cases hr'
        exact ha (List.singleton_sublist.mp hji)

theorem Nodup.eq_of_split {l₁ l₂ l₃ l₄ : List ι} (h : l₁ ++ j :: l₂ = l₃ ++ l₄)
    (hn : (l₁ ++ j :: l₂).Nodup) (hsub : ∀ i ∈ l₁, i ∈ l₃) (hj : j ∉ l₃) :
    l₃ = l₁ ∧ l₄ = j :: l₂ := by
  rcases List.append_eq_append_iff.mp h with ⟨m, rfl, hm⟩ | ⟨m, rfl, hm⟩
  · cases m with
    | nil => exact ⟨List.append_nil _, by simpa using hm.symm⟩
    | cons a m =>
      simp only [List.cons_append, List.cons.injEq] at hm
      exact absurd (by simp [hm.1]) hj
  · cases m with
    | nil => exact ⟨(List.append_nil _).symm, by simpa using hm⟩
    | cons a m =>
      exfalso
      have ha : a ∈ l₄ := by simp [hm]
      have ha' : a ∈ l₃ := hsub a (by simp)
      rw [h] at hn
      exact (List.disjoint_of_nodup_append hn) ha' ha

namespace Line

variable (h : Line order needs served serving waiting)
include h

theorem join (hj : j ∉ order) :
    Line (order ++ [j]) needs served serving
      (fun c => if needs c j then waiting c ++ [j] else waiting c) := by
  refine ⟨List.nodup_append.mpr ⟨h.nodup, List.nodup_singleton j, ?_⟩, fun c => ?_⟩
  · rintro i hi k hk rfl
    exact hj (List.mem_singleton.mp hk ▸ hi)
  · rw [List.filter_append, ← h.split c]
    by_cases hc : needs c j <;> simp [hc]

theorem call [DecidableEq κ] (hs : serving c = none) {rest : List ι}
    (hw : waiting c = j :: rest) :
    Line order needs served (Function.update serving c (some j))
      (Function.update waiting c rest) := by
  refine ⟨h.nodup, fun d => ?_⟩
  rw [← h.split d]
  by_cases hd : d = c
  · subst hd; simp [hs, hw]
  · simp [hd]

theorem leave [DecidableEq κ] (hs : serving c = some j) :
    Line order needs (Function.update served c (served c ++ [j]))
      (Function.update serving c none) waiting := by
  refine ⟨h.nodup, fun d => ?_⟩
  rw [← h.split d]
  by_cases hd : d = c
  · subst hd; simp [hs]
  · simp [hd]

theorem nodup_station (c : κ) : (served c ++ ((serving c).toList ++ waiting c)).Nodup := by
  rw [h.split c]
  exact h.nodup.filter _

theorem mem_station (hj : j ∈ order) (hc : needs c j) :
    j ∈ served c ∨ serving c = some j ∨ j ∈ waiting c := by
  have hm : j ∈ served c ++ ((serving c).toList ++ waiting c) := by
    rw [h.split c]
    exact List.mem_filter.mpr ⟨hj, hc⟩
  simpa using hm

/-- The first party that is not done everywhere is being served wherever it has not been,
if no station is idle while someone waits there. -/
theorem first_is_served (busy : serving c = none → waiting c = []) {before after : List ι}
    (ho : order = before ++ j :: after) (hb : ∀ i ∈ before, needs c i → i ∈ served c)
    (hc : needs c j) (hj : j ∉ served c) : serving c = some j := by
  have hsplit : before.filter (needs c) ++ j :: after.filter (needs c) =
      served c ++ ((serving c).toList ++ waiting c) := by
    rw [h.split c, ho, List.filter_append, List.filter_cons_of_pos hc]
  have hnodup := h.nodup_station c
  rw [← hsplit] at hnodup
  obtain ⟨-, hrest⟩ := Nodup.eq_of_split hsplit hnodup
    (fun i hi => hb i (List.mem_filter.mp hi).1 (List.mem_filter.mp hi).2) hj
  cases hs : serving c with
  | none =>
    rw [hs, busy hs] at hrest
    cases hrest
  | some i =>
    rw [hs] at hrest
    simp only [Option.toList_some, List.singleton_append, List.cons.injEq] at hrest
    rw [hrest.1]

/-- No two parties are each served where the other one waits. -/
theorem no_cross (hi : serving c = some i) (hj : j ∈ waiting c) (hj' : serving d = some j)
    (hi' : i ∈ waiting d) : False := by
  have hsub : ∀ {c : κ} {i j : ι}, serving c = some i → j ∈ waiting c → [i, j].Sublist order := by
    intro c i j hi hj
    have hij : [i, j].Sublist ((serving c).toList ++ waiting c) := by
      rw [hi]
      exact (List.singleton_sublist.mpr hj).cons_cons i
    exact (hij.trans (List.sublist_append_right _ _)).trans (h.split c ▸ List.filter_sublist)
  exact Nodup.not_both_orders h.nodup (hsub hi hj) (hsub hj' hi')

end Line

end Interleaving

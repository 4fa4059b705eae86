import Mathlib

namespace Interleaving

variable {σ α χ ε : Type}

/-- Code whose atomic statements are values: running a statement changes the shared
state and leaves the statements that take its place. `χ` is what a call outside the
code may answer, and `ε` is what the environment may do, starting a thread by it. -/
structure Machine (σ α χ ε : Type) where
  exec : α → χ → σ → Option (σ × List α)
  env : ε → σ → Option (σ × List α)

/-- Every thread is the list of statements it still has to run. -/
structure Conf (σ α : Type) where
  shared : σ
  threads : List (List α)

inductive Label (χ ε : Type) where
  | run (i : Nat) (x : χ)
  | env (e : ε)

/-- The statements still to be run, over all threads and in no order. -/
def Conf.pending (C : Conf σ α) : Multiset α := (C.threads.flatten : Multiset α)

namespace Machine

variable (M : Machine σ α χ ε) (ok : Conf σ α → α → χ → Bool)

/-- One step as the label says, if the test `ok` admits it. -/
def step : Label χ ε → Conf σ α → Option (Conf σ α)
  | .run i x, C =>
    match C.threads[i]? with
    | some (a :: k) =>
      if ok C a x then (M.exec a x C.shared).map fun r => ⟨r.1, C.threads.set i (r.2 ++ k)⟩
      else none
    | _ => none
  | .env e, C => (M.env e C.shared).map fun r => ⟨r.1, C.threads ++ [r.2]⟩

def steps : List (Label χ ε) → Conf σ α → Option (Conf σ α)
  | [], C => some C
  | l :: ls, C => (M.step ok l C).bind (steps ls)

/-- The steps where the test `ok` admits the events too. -/
def checked (ok : Conf σ α → Label χ ε → Bool) : List (Label χ ε) → Conf σ α → Option (Conf σ α)
  | [], C => some C
  | l :: ls, C => if ok C l then (M.step (fun _ _ _ => true) l C).bind (checked ok ls) else none

end Machine

/-- Which steps a run may take, by the shared state and the pending statements
before the step. -/
structure Guard (σ α χ ε : Type) where
  run : σ → Multiset α → α → χ → Prop
  env : σ → Multiset α → ε → Prop

/-- Only the environment is restricted, and that by the kind of event. -/
def Guard.events (ok : ε → Prop) : Guard σ α χ ε := ⟨fun _ _ _ _ => True, fun _ _ e => ok e⟩

def Guard.and (G H : Guard σ α χ ε) : Guard σ α χ ε :=
  ⟨fun s B a x => G.run s B a x ∧ H.run s B a x, fun s B e => G.env s B e ∧ H.env s B e⟩

inductive Reach (M : Machine σ α χ ε) (G : Guard σ α χ ε) (s₀ : σ) : Conf σ α → Prop
  | init : Reach M G s₀ ⟨s₀, []⟩
  | run {C : Conf σ α} {i : Nat} {a : α} {k : List α} {x : χ} {s : σ} {p : List α} :
      Reach M G s₀ C → C.threads[i]? = some (a :: k) → G.run C.shared C.pending a x →
      M.exec a x C.shared = some (s, p) → Reach M G s₀ ⟨s, C.threads.set i (p ++ k)⟩
  | env {C : Conf σ α} {e : ε} {s : σ} {p : List α} :
      Reach M G s₀ C → G.env C.shared C.pending e →
      M.env e C.shared = some (s, p) → Reach M G s₀ ⟨s, C.threads ++ [p]⟩

variable {M : Machine σ α χ ε} {G H : Guard σ α χ ε} {s₀ : σ} {C : Conf σ α}

theorem pending_env (C : Conf σ α) (s : σ) (p : List α) :
    Conf.pending ⟨s, C.threads ++ [p]⟩ = (p : Multiset α) + C.pending := by
  simp only [Conf.pending, List.flatten_append, List.flatten_cons, List.flatten_nil,
    List.append_nil, ← Multiset.coe_add]
  exact add_comm _ _

theorem pending_run {C : Conf σ α} {i : Nat} {a : α} {k : List α}
    (h : C.threads[i]? = some (a :: k)) (s : σ) (p : List α) :
    ∃ R, C.pending = a ::ₘ R ∧
      Conf.pending ⟨s, C.threads.set i (p ++ k)⟩ = (p : Multiset α) + R := by
  obtain ⟨hi, he⟩ := List.getElem?_eq_some_iff.mp h
  have hsplit : C.threads = C.threads.take i ++ (a :: k) :: C.threads.drop (i + 1) := by
    rw [← he, List.getElem_cons_drop, List.take_append_drop]
  have hset : C.threads.set i (p ++ k) =
      C.threads.take i ++ (p ++ k) :: C.threads.drop (i + 1) :=
    List.set_eq_take_append_cons_drop.trans (if_pos hi)
  refine ⟨((C.threads.take i).flatten ++ (k ++ (C.threads.drop (i + 1)).flatten) : List α), ?_, ?_⟩
  · rw [Conf.pending, hsplit]
    simp only [List.flatten_append, List.flatten_cons, List.cons_append, Multiset.cons_coe]
    exact Multiset.coe_eq_coe.mpr (by rw [← hsplit]; exact List.perm_middle)
  · simp only [Conf.pending, hset, List.flatten_append, List.flatten_cons, Multiset.coe_add,
      List.append_assoc]
    exact Multiset.coe_eq_coe.mpr (by
      rw [← List.append_assoc, ← List.append_assoc p]
      exact List.Perm.append_right _ List.perm_append_comm)

/-- An invariant of the shared state and of the bag of pending statements needs one
case for a statement and one for an event, whatever the threads and their order. What is
known of all reachable states already may be used in both. -/
theorem Reach.invariant_with (J I : σ → Multiset α → Prop)
    (hJ : ∀ C, Reach M G s₀ C → J C.shared C.pending) (hinit : I s₀ 0)
    (hrun : ∀ s R a x s' p, J s (a ::ₘ R) → I s (a ::ₘ R) → G.run s (a ::ₘ R) a x →
      M.exec a x s = some (s', p) → I s' ((p : Multiset α) + R))
    (henv : ∀ s R e s' p, J s R → I s R → G.env s R e → M.env e s = some (s', p) →
      I s' ((p : Multiset α) + R))
    (hC : Reach M G s₀ C) : I C.shared C.pending := by
  induction hC with
  | init => simpa [Conf.pending] using hinit
  | run h hi hG hx ih =>
    have hj := hJ _ h
    obtain ⟨R, hB, hB'⟩ := pending_run hi _ _
    rw [hB] at ih hG hj
    rw [hB']
    exact hrun _ R _ _ _ _ hj ih hG hx
  | env h hG he ih =>
    rw [pending_env]
    exact henv _ _ _ _ _ (hJ _ h) ih hG he

theorem Reach.invariant (I : σ → Multiset α → Prop) (hinit : I s₀ 0)
    (hrun : ∀ s R a x s' p, I s (a ::ₘ R) → G.run s (a ::ₘ R) a x →
      M.exec a x s = some (s', p) → I s' ((p : Multiset α) + R))
    (henv : ∀ s R e s' p, I s R → G.env s R e → M.env e s = some (s', p) →
      I s' ((p : Multiset α) + R))
    (hC : Reach M G s₀ C) : I C.shared C.pending :=
  hC.invariant_with (fun _ _ => True) I (fun _ _ => trivial) hinit
    (fun s R a x s' p _ => hrun s R a x s' p) (fun s R e s' p _ => henv s R e s' p)

theorem Reach.mono (hrun : ∀ s B a x, G.run s B a x → H.run s B a x)
    (henv : ∀ s B e, G.env s B e → H.env s B e) (hC : Reach M G s₀ C) : Reach M H s₀ C := by
  induction hC with
  | init => exact .init
  | run _ hi hG hx ih => exact .run ih hi (hrun _ _ _ _ hG) hx
  | env _ hG he ih => exact .env ih (henv _ _ _ hG) he

/-- A guard that the reachable states satisfy anyway may be added. -/
theorem Reach.restrict
    (hrun : ∀ C, Reach M G s₀ C → ∀ a x, a ∈ C.pending → G.run C.shared C.pending a x →
      H.run C.shared C.pending a x)
    (henv : ∀ C, Reach M G s₀ C → ∀ e, G.env C.shared C.pending e → H.env C.shared C.pending e)
    (hC : Reach M G s₀ C) : Reach M H s₀ C := by
  induction hC with
  | init => exact .init
  | run h hi hG hx ih =>
    obtain ⟨R, hB, -⟩ := pending_run hi C.shared []
    exact .run ih hi (hrun _ h _ _ (hB ▸ Multiset.mem_cons_self _ _) hG) hx
  | env h hG he ih => exact .env ih (henv _ h _ hG) he

/-- So may one that only states satisfy which are reachable with it, at the head of a thread. -/
theorem Reach.strengthen
    (hrun : ∀ C, Reach M (G.and H) s₀ C → ∀ a k x, a :: k ∈ C.threads →
      G.run C.shared C.pending a x → H.run C.shared C.pending a x)
    (henv : ∀ C, Reach M (G.and H) s₀ C → ∀ e, G.env C.shared C.pending e →
      H.env C.shared C.pending e)
    (hC : Reach M G s₀ C) : Reach M (G.and H) s₀ C := by
  induction hC with
  | init => exact .init
  | run _ hi hG hx ih => exact .run ih hi ⟨hG, hrun _ ih _ _ _ (List.mem_of_getElem? hi) hG⟩ hx
  | env _ hG he ih => exact .env ih ⟨hG, henv _ ih _ hG⟩ he

theorem Reach.pending_all (K : α → Prop)
    (hrun : ∀ s B a x s' p, K a → G.run s B a x → M.exec a x s = some (s', p) → ∀ b ∈ p, K b)
    (henv : ∀ s B e s' p, G.env s B e → M.env e s = some (s', p) → ∀ b ∈ p, K b)
    (hC : Reach M G s₀ C) : ∀ a ∈ C.pending, K a := by
  refine hC.invariant (fun _ B => ∀ a ∈ B, K a) (by simp) ?_ ?_
  · intro s R a x s' p hI hG hx b hb
    rcases Multiset.mem_add.mp hb with hb | hb
    · exact hrun s _ a x s' p (hI a (Multiset.mem_cons_self _ _)) hG hx b (by simpa using hb)
    · exact hI b (Multiset.mem_cons_of_mem hb)
  · intro s R e s' p hI hG he b hb
    rcases Multiset.mem_add.mp hb with hb | hb
    · exact henv s R e s' p hG he b (by simpa using hb)
    · exact hI b hb

/-- Threads stay of one shape if running a head keeps it. -/
theorem Reach.threads_all (T : List α → Prop)
    (hrun : ∀ s B a k x s' p, T (a :: k) → G.run s B a x → M.exec a x s = some (s', p) → T (p ++ k))
    (henv : ∀ s B e s' p, G.env s B e → M.env e s = some (s', p) → T p)
    (hC : Reach M G s₀ C) : ∀ t ∈ C.threads, T t := by
  induction hC with
  | init => simp
  | run h hi hG hx ih =>
    intro t ht
    rcases List.mem_or_eq_of_mem_set ht with ht | rfl
    · exact ih t ht
    · exact hrun _ _ _ _ _ _ _ (ih _ (List.mem_of_getElem? hi)) hG hx
  | env h hG he ih =>
    intro t ht
    rcases List.mem_append.mp ht with ht | ht
    · exact ih t ht
    · exact List.mem_singleton.mp ht ▸ henv _ _ _ _ _ hG he

theorem threads_le {i l : Nat} {t u : List α} (hi : C.threads[i]? = some t)
    (hl : C.threads[l]? = some u) (hne : l ≠ i) : (t : Multiset α) + u ≤ C.pending := by
  obtain ⟨hlt, he⟩ := List.getElem?_eq_some_iff.mp hi
  have hsplit : C.threads = C.threads.take i ++ t :: C.threads.drop (i + 1) := by
    rw [← he, List.getElem_cons_drop, List.take_append_drop]
  have hu : u ∈ C.threads.take i ++ C.threads.drop (i + 1) := by
    rw [List.mem_append]
    rcases Nat.lt_or_gt_of_ne hne with hlt | hgt
    · exact .inl (List.mem_of_getElem? (i := l) (by rw [List.getElem?_take, if_pos hlt, hl]))
    · refine .inr (List.mem_of_getElem? (i := l - (i + 1)) ?_)
      rw [List.getElem?_drop, Nat.add_sub_cancel' (by omega), hl]
  have hperm : C.threads.flatten.Perm (t ++ (C.threads.take i ++ C.threads.drop (i + 1)).flatten) := by
    conv_lhs => rw [hsplit]
    rw [List.flatten_append, List.flatten_cons, List.flatten_append, ← List.append_assoc,
      ← List.append_assoc]
    exact List.Perm.append_right _ List.perm_append_comm
  rw [Conf.pending, Multiset.coe_eq_coe.mpr hperm, ← Multiset.coe_add]
  exact Multiset.add_le_add_left ((List.sublist_flatten_of_mem hu).subperm)

/-- A property of a thread and the shared state is kept by the thread itself, by every other
thread and by the environment. -/
theorem Reach.each (T : σ → List α → Prop)
    (hown : ∀ C a k x s p, Reach M G s₀ C → a :: k ∈ C.threads → T C.shared (a :: k) →
      G.run C.shared C.pending a x → M.exec a x C.shared = some (s, p) → T s (p ++ k))
    (hother : ∀ C a k (t : List α) x s p, Reach M G s₀ C → a :: k ∈ C.threads →
      ((a :: k : List α) : Multiset α) + (t : Multiset α) ≤ C.pending →
      T C.shared t → G.run C.shared C.pending a x → M.exec a x C.shared = some (s, p) → T s t)
    (henv : ∀ C e s p, Reach M G s₀ C → G.env C.shared C.pending e →
      M.env e C.shared = some (s, p) → T s p ∧ ∀ t ∈ C.threads, T C.shared t → T s t)
    (hC : Reach M G s₀ C) : ∀ t ∈ C.threads, T C.shared t := by
  induction hC with
  | init => simp
  | @run C i a k x s p h hi hG hx ih =>
    intro t ht
    obtain ⟨l, hl⟩ := List.mem_iff_getElem?.mp ht
    by_cases hli : l = i
    · subst hli
      have hlt := (List.getElem?_eq_some_iff.mp hi).1
      rw [List.getElem?_set_self hlt, Option.some.injEq] at hl
      subst hl
      exact hown _ _ _ _ _ _ h (List.mem_of_getElem? hi) (ih _ (List.mem_of_getElem? hi)) hG hx
    · rw [List.getElem?_set_ne (Ne.symm hli)] at hl
      exact hother _ _ _ _ _ _ _ h (List.mem_of_getElem? hi) (threads_le hi hl hli)
        (ih _ (List.mem_of_getElem? hl)) hG hx
  | env h hG he ih =>
    obtain ⟨hp, ht⟩ := henv _ _ _ _ h hG he
    intro t hm
    rcases List.mem_append.mp hm with hm | hm
    · exact ht t hm (ih t hm)
    · exact List.mem_singleton.mp hm ▸ hp

theorem Reach.left (h : Reach M (G.and H) s₀ C) : Reach M G s₀ C :=
  h.mono (fun _ _ _ _ => And.left) (fun _ _ _ => And.left)

theorem Reach.of_steps {ok : Conf σ α → α → χ → Bool} {ls : List (Label χ ε)} {C₀ : Conf σ α}
    (h₀ : Reach M G s₀ C₀) (hrun : ∀ C a x, ok C a x → G.run C.shared C.pending a x)
    (henv : ∀ e, .env e ∈ ls → ∀ s B, G.env s B e) (h : M.steps ok ls C₀ = some C) :
    Reach M G s₀ C := by
  induction ls generalizing C₀ with
  | nil =>
    simp only [Machine.steps, Option.some.injEq] at h
    exact h ▸ h₀
  | cons l ls ih =>
    simp only [Machine.steps, Option.bind_eq_some_iff] at h
    obtain ⟨C₁, h₁, h₂⟩ := h
    refine ih ?_ (fun e he => henv e (List.mem_cons_of_mem _ he)) h₂
    cases l with
    | env e =>
      simp only [Machine.step, Option.map_eq_some_iff] at h₁
      obtain ⟨r, hr, rfl⟩ := h₁
      exact .env h₀ (henv e List.mem_cons_self _ _) hr
    | run i x =>
      simp only [Machine.step] at h₁
      split at h₁
      · rename_i a k hi
        split at h₁
        · rename_i hok
          simp only [Option.map_eq_some_iff] at h₁
          obtain ⟨r, hr, rfl⟩ := h₁
          exact .run h₀ hi (hrun _ _ _ hok) hr
        · cases h₁
      · cases h₁

/-- A computed run reaches a state that was seen to pass a test. -/
theorem Reach.exists_of_steps (M : Machine σ α χ ε) (G : Guard σ α χ ε) (s₀ : σ)
    (ls : List (Label χ ε)) (ok : Conf σ α → α → χ → Bool) (test : Conf σ α → Bool)
    (hrun : ∀ C a x, ok C a x → G.run C.shared C.pending a x)
    (henv : ∀ e, .env e ∈ ls → ∀ s B, G.env s B e)
    (h : (M.steps ok ls ⟨s₀, []⟩).any test = true) : ∃ C, Reach M G s₀ C ∧ test C := by
  obtain ⟨C, hC, ht⟩ := (Option.any_eq_true _ _).mp h
  exact ⟨C, .of_steps .init hrun henv hC, ht⟩

theorem Reach.of_checked {ok : Conf σ α → Label χ ε → Bool} {ls : List (Label χ ε)} {C₀ : Conf σ α}
    (h₀ : Reach M G s₀ C₀)
    (hrun : ∀ C i x a k, C.threads[i]? = some (a :: k) → ok C (.run i x) → G.run C.shared C.pending a x)
    (henv : ∀ C e, ok C (.env e) → G.env C.shared C.pending e) (h : M.checked ok ls C₀ = some C) :
    Reach M G s₀ C := by
  induction ls generalizing C₀ with
  | nil =>
    simp only [Machine.checked, Option.some.injEq] at h
    exact h ▸ h₀
  | cons l ls ih =>
    simp only [Machine.checked] at h
    split at h
    · rename_i hok
      obtain ⟨C₁, h₁, h₂⟩ := Option.bind_eq_some_iff.mp h
      refine ih ?_ h₂
      cases l with
      | env e =>
        obtain ⟨r, hr, rfl⟩ := Option.map_eq_some_iff.mp h₁
        exact .env h₀ (henv _ _ hok) hr
      | run i x =>
        simp only [Machine.step, if_true] at h₁
        split at h₁
        · rename_i a k hi
          obtain ⟨r, hr, rfl⟩ := Option.map_eq_some_iff.mp h₁
          exact .run h₀ hi (hrun _ _ _ _ _ hi hok) hr
        · cases h₁
    · cases h

theorem Reach.exists_of_checked (M : Machine σ α χ ε) (G : Guard σ α χ ε) (s₀ : σ)
    (ls : List (Label χ ε)) (ok : Conf σ α → Label χ ε → Bool) (test : Conf σ α → Bool)
    (hrun : ∀ C i x a k, C.threads[i]? = some (a :: k) → ok C (.run i x) → G.run C.shared C.pending a x)
    (henv : ∀ C e, ok C (.env e) → G.env C.shared C.pending e)
    (h : (M.checked ok ls ⟨s₀, []⟩).any test = true) : ∃ C, Reach M G s₀ C ∧ test C := by
  obtain ⟨C, hC, ht⟩ := (Option.any_eq_true _ _).mp h
  exact ⟨C, .of_checked .init hrun henv hC, ht⟩

section View

variable {σ' α' χ' ε' : Type} {M' : Machine σ' α' χ' ε'} {G' : Guard σ' α' χ' ε'} {s₀' : σ'}
  {C' : Conf σ' α'}

/-- A part of the shared state, and of the statements those that are about it. -/
def Conf.view (π : σ' → σ) (ρ : α' → Option α) (C : Conf σ' α') : Conf σ α :=
  ⟨π C.shared, C.threads.map (List.filterMap ρ)⟩

theorem Conf.pending_view (π : σ' → σ) (ρ : α' → Option α) (C : Conf σ' α') :
    (C.view π ρ).pending = C.pending.filterMap ρ := by
  rw [Conf.pending, Conf.pending, Multiset.filterMap_coe, List.filterMap_flatten]
  rfl

theorem filterMap_embed {ρ : α' → Option α} {f : α → α'} (hf : ∀ a, ρ (f a) = some a) (p : List α) :
    (p.map f).filterMap ρ = p := by
  rw [List.filterMap_map, show ρ ∘ f = some from funext hf, List.filterMap_some]

theorem pending_embed {ρ : α' → Option α} {f : α → α'} (hf : ∀ a, ρ (f a) = some a) (p : List α)
    (R : Multiset α') : (((p.map f : List α') : Multiset α') + R).filterMap ρ =
      (p : Multiset α) + R.filterMap ρ := by
  rw [Multiset.filterMap_add, Multiset.filterMap_coe, filterMap_embed hf]

theorem pending_hidden {ρ : α' → Option α} {a : α'} {p : List α'} {R : Multiset α'}
    (ha : ρ a = none) (hp : p.filterMap ρ = []) :
    ((p : Multiset α') + R).filterMap ρ = (a ::ₘ R).filterMap ρ := by
  rw [Multiset.filterMap_add, Multiset.filterMap_coe, hp, Multiset.filterMap_cons_none _ _ ha]
  exact Multiset.zero_add _

/-- What a larger machine does to a part of itself is a run of the part. -/
theorem Reach.view (π : σ' → σ) (ρ : α' → Option α)
    (hrun : ∀ s B a x s' p, G'.run s B a x → M'.exec a x s = some (s', p) →
      match ρ a with
      | none => π s' = π s ∧ p.filterMap ρ = []
      | some b => ∃ y, G.run (π s) (B.filterMap ρ) b y ∧
          M.exec b y (π s) = some (π s', p.filterMap ρ))
    (henv : ∀ s B e s' p, G'.env s B e → M'.env e s = some (s', p) →
      ∃ e', G.env (π s) (B.filterMap ρ) e' ∧ M.env e' (π s) = some (π s', p.filterMap ρ))
    (hC : Reach M' G' s₀' C') : Reach M G (π s₀') (C'.view π ρ) := by
  induction hC with
  | init => exact .init
  | @run C i a k x s p _ hi hG hx ih =>
    have hview : (C.view π ρ).threads[i]? = some ((a :: k).filterMap ρ) := by
      simp [Conf.view, hi]
    have hset : Conf.view π ρ ⟨s, C.threads.set i (p ++ k)⟩ =
        ⟨π s, (C.view π ρ).threads.set i (p.filterMap ρ ++ k.filterMap ρ)⟩ := by
      simp [Conf.view, List.map_set]
    have hstep := hrun _ _ _ _ _ _ hG hx
    rw [hset]
    cases ha : ρ a with
    | none =>
      obtain ⟨hs, hp⟩ := by simpa only [ha] using hstep
      rw [List.filterMap_cons_none ha] at hview
      obtain ⟨hlt, he⟩ := List.getElem?_eq_some_iff.mp hview
      rw [hp, hs, List.nil_append, ← he, List.set_getElem_self]
      exact ih
    | some b =>
      obtain ⟨y, hGy, hy⟩ := by simpa only [ha] using hstep
      rw [List.filterMap_cons_some ha] at hview
      exact .run ih hview (by rwa [Conf.pending_view]) hy
  | @env C e s p _ hG he ih =>
    obtain ⟨e', hGe, he'⟩ := henv _ _ _ _ _ hG he
    have happ : Conf.view π ρ ⟨s, C.threads ++ [p]⟩ =
        ⟨π s, (C.view π ρ).threads ++ [p.filterMap ρ]⟩ := by
      simp [Conf.view]
    rw [happ]
    exact .env ih (by rwa [Conf.pending_view]) he'

end View

section Load

/-- What the pending statements weigh together: each of them is worth so many tokens. -/
def load (f : α → Nat) (B : Multiset α) : Nat := (B.map f).sum

variable (f : α → Nat)

@[simp] theorem load_zero : load f 0 = 0 := rfl

@[simp] theorem load_cons (a : α) (B : Multiset α) : load f (a ::ₘ B) = f a + load f B := by
  simp [load]

@[simp] theorem load_add (A B : Multiset α) : load f (A + B) = load f A + load f B := by
  simp [load]

@[simp] theorem load_coe_nil : load f (([] : List α) : Multiset α) = 0 := rfl

@[simp] theorem load_coe_cons (a : α) (l : List α) :
    load f ((a :: l : List α) : Multiset α) = f a + load f (l : Multiset α) := by
  rw [← Multiset.cons_coe, load_cons]

@[simp] theorem load_singleton (a : α) : load f {a} = f a := by simp [load]

theorem le_load {a : α} {B : Multiset α} (h : a ∈ B) : f a ≤ load f B := by
  obtain ⟨R, rfl⟩ := Multiset.exists_cons_of_mem h
  simp

theorem load_pos {B : Multiset α} (h : 0 < load f B) : ∃ a ∈ B, 0 < f a := by
  induction B using Multiset.induction with
  | empty => simp at h
  | cons a B ih =>
    rw [load_cons] at h
    by_cases ha : 0 < f a
    · exact ⟨a, Multiset.mem_cons_self a B, ha⟩
    · obtain ⟨b, hb, hf⟩ := ih (by omega)
      exact ⟨b, Multiset.mem_cons_of_mem hb, hf⟩

theorem load_eq_zero {B : Multiset α} (h : ∀ a ∈ B, f a = 0) : load f B = 0 := by
  by_contra hne
  obtain ⟨a, ha, hf⟩ := load_pos f (Nat.pos_of_ne_zero hne)
  exact absurd (h a ha) (by omega)

theorem load_mono {g : α → Nat} {B : Multiset α} (h : ∀ a ∈ B, f a ≤ g a) :
    load f B ≤ load g B := by
  induction B using Multiset.induction with
  | empty => exact Nat.le_refl 0
  | cons a B ih =>
    rw [load_cons, load_cons]
    exact Nat.add_le_add (h a (Multiset.mem_cons_self a B))
      (ih fun b hb => h b (Multiset.mem_cons_of_mem hb))

theorem load_le {A B : Multiset α} (h : A ≤ B) : load f A ≤ load f B := by
  obtain ⟨D, rfl⟩ := Multiset.le_iff_exists_add.mp h
  rw [load_add]
  exact Nat.le_add_right _ _

theorem load_le_of_threads {C : Conf σ α} {g : α → Nat}
    (h : ∀ t ∈ C.threads, load f (t : Multiset α) ≤ load g (t : Multiset α)) :
    load f C.pending ≤ load g C.pending := by
  rw [Conf.pending]
  generalize C.threads = ts at h
  induction ts with
  | nil => simp
  | cons t ts ih =>
    rw [List.flatten_cons, ← Multiset.coe_add, load_add, load_add]
    exact Nat.add_le_add (h t List.mem_cons_self) (ih fun u hu => h u (List.mem_cons_of_mem t hu))

theorem load_all_eq_zero {a : α} {R : Multiset α} (h : load f (a ::ₘ R) ≤ 1) (ha : f a = 1) :
    ∀ b ∈ R, f b = 0 := fun b hb => by
  have := le_load f hb
  rw [load_cons] at h
  omega

/-- A quantity that every statement changes by as many tokens as it leads to more than it
is worth itself: it is what the pending statements are worth. -/
theorem Reach.balance (g : σ → Int) (K : α → Prop)
    (hK : ∀ C, Reach M G s₀ C → ∀ a ∈ C.pending, K a) (hinit : g s₀ = 0)
    (hrun : ∀ s a x s' p, K a → (f a : Int) ≤ g s → M.exec a x s = some (s', p) →
      g s' + f a = g s + load f (p : Multiset α))
    (henv : ∀ s e s' p, M.env e s = some (s', p) → g s' = g s + load f (p : Multiset α))
    (hC : Reach M G s₀ C) : g C.shared = load f C.pending := by
  refine hC.invariant_with (fun _ B => ∀ a ∈ B, K a) (fun s B => g s = load f B) hK
    (by simpa using hinit) ?_ ?_
  · intro s R a x s' p hJ hI _ hx
    rw [load_cons] at hI
    push_cast at hI
    have := hrun s a x s' p (hJ a (Multiset.mem_cons_self a R)) (by omega) hx
    rw [load_add]
    push_cast
    omega
  · intro s R e s' p _ hI _ he
    rw [henv s e s' p he, hI, load_add]
    push_cast
    omega

end Load

end Interleaving

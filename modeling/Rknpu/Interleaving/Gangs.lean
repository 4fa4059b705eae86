import Rknpu.Interleaving.Line
import Rknpu.Interleaving.Refinement

namespace Interleaving

/-- Parties that work at several stations at once. Each one queues at all the stations where it
has pieces of work, in one common order, and begins when it has them all. -/
structure Gangs (κ ι : Type) where
  order : List ι
  pieces : ι → κ → Nat
  queue : κ → List ι
  owner : κ → Option ι
  busy : κ → Option (ι × Nat)
  count : ι → κ → Nat
  left : κ → List ι
  finished : List ι

namespace Gangs

inductive Turn (κ ι : Type) where
  | join (j : ι)
  | take (c : κ) (j : ι)
  | start (c : κ) (j : ι) (k : Nat)
  | finish (c : κ) (j : ι) (k : Nat)
  | leave (c : κ) (j : ι)
  | done (j : ι)

variable {κ ι : Type}

/-- No station where the party has work is still to be taken. -/
def Gathered (t : Gangs κ ι) (j : ι) : Prop :=
  ∀ c, 0 < t.pieces j c → t.owner c = some j ∨ j ∈ t.left c

/-- What the parties may do, the joining one with `n c` pieces at station `c`. -/
inductive Step [DecidableEq κ] [DecidableEq ι] : Gangs κ ι → Turn κ ι → Gangs κ ι → Prop
  | join {t : Gangs κ ι} {j : ι} (n : κ → Nat) : j ∉ t.order → t.count j = 0 →
      Step t (.join j) { t with
        order := t.order ++ [j]
        pieces := Function.update t.pieces j n
        queue := fun c => if 0 < n c then t.queue c ++ [j] else t.queue c }
  | take {t : Gangs κ ι} {c : κ} {j : ι} {rest : List ι} : t.owner c = none →
      t.queue c = j :: rest → Step t (.take c j) { t with
        queue := Function.update t.queue c rest
        owner := Function.update t.owner c (some j) }
  | start {t : Gangs κ ι} {c : κ} {j : ι} : t.Gathered j → t.owner c = some j → t.busy c = none →
      t.count j c < t.pieces j c → Step t (.start c j (t.count j c)) { t with
        busy := Function.update t.busy c (some (j, t.count j c)) }
  | finish {t : Gangs κ ι} {c : κ} {j : ι} {k : Nat} : t.busy c = some (j, k) →
      Step t (.finish c j k) { t with
        busy := Function.update t.busy c none
        count := Function.update t.count j (Function.update (t.count j) c (k + 1)) }
  | leave {t : Gangs κ ι} {c : κ} {j : ι} : t.owner c = some j → t.busy c = none →
      t.count j c = t.pieces j c → Step t (.leave c j) { t with
        owner := Function.update t.owner c none
        left := Function.update t.left c (t.left c ++ [j]) }
  | done {t : Gangs κ ι} {j : ι} : j ∈ t.order → (∀ c, 0 < t.pieces j c → j ∈ t.left c) →
      j ∉ t.finished → Step t (.done j) { t with finished := t.finished ++ [j] }

def spec [DecidableEq κ] [DecidableEq ι] : Spec (Gangs κ ι) (Turn κ ι) := ⟨Step⟩

def init : Gangs κ ι where
  order := []
  pieces _ _ := 0
  queue _ := []
  owner _ := none
  busy _ := none
  count _ _ := 0
  left _ := []
  finished := []

abbrev needs (t : Gangs κ ι) (c : κ) (j : ι) : Bool := decide (0 < t.pieces j c)

/-- What holds of all stations and parties at any time. -/
structure Sound (t : Gangs κ ι) : Prop where
  line : Line t.order t.needs t.left t.owner t.queue
  owned : ∀ c j k, t.busy c = some (j, k) → t.owner c = some j
  piece : ∀ c j k, t.busy c = some (j, k) → k = t.count j c ∧ k < t.pieces j c
  count : ∀ j c, t.count j c ≤ t.pieces j c
  gone : ∀ j ∈ t.finished, j ∈ t.order ∧ ∀ c, 0 < t.pieces j c → j ∈ t.left c

theorem Line.congr {order : List ι} {needs needs' : κ → ι → Bool} {served waiting : κ → List ι}
    {serving : κ → Option ι} (h : Line order needs served serving waiting)
    (hn : ∀ c, ∀ i ∈ order, needs' c i = needs c i) : Line order needs' served serving waiting :=
  ⟨h.nodup, fun c => (h.split c).trans (List.filter_congr fun i hi => (hn c i hi).symm)⟩

theorem Sound.init : Sound (init : Gangs κ ι) :=
  ⟨⟨List.nodup_nil, fun _ => rfl⟩, by simp [Gangs.init], by simp [Gangs.init], by simp [Gangs.init],
    by simp [Gangs.init]⟩

theorem Sound.ordered {t : Gangs κ ι} (h : Sound t) {c : κ} {j : ι} (hj : t.owner c = some j) :
    j ∈ t.order := by
  have hm : j ∈ t.left c ++ ((t.owner c).toList ++ t.queue c) := by simp [hj]
  rw [h.line.split c] at hm
  exact (List.mem_filter.mp hm).1

variable [DecidableEq κ] [DecidableEq ι]

theorem Sound.step {t u : Gangs κ ι} {e : Turn κ ι} (h : Sound t) (hs : Step t e u) : Sound u := by
  cases hs with
  | @join j n hj hz =>
    have hother : ∀ c i, i ∈ t.order → (decide (0 < Function.update t.pieces j n i c)) = t.needs c i :=
      fun c i hi => by rw [Function.update_of_ne (by rintro rfl; exact hj hi)]
    have hline := (Line.congr h.line hother).join hj
    have hown : ∀ c i k, t.busy c = some (i, k) → i ≠ j := by
      rintro c i k hb rfl
      exact hj (h.ordered (h.owned c i k hb))
    refine ⟨?_, h.owned, fun c i k hb => ?_, fun i c => ?_, fun i hi => ?_⟩
    · simpa only [Function.update_self, decide_eq_true_eq] using hline
    · simp only [Function.update_of_ne (hown c i k hb)]
      exact h.piece c i k hb
    · by_cases hi : i = j
      · subst hi
        simp [hz]
      · simp only [Function.update_of_ne hi]
        exact h.count i c
    · obtain ⟨ho, hl⟩ := h.gone i hi
      have hij : i ≠ j := by
        rintro rfl
        exact hj ho
      refine ⟨List.mem_append_left _ ho, fun c hc => hl c ?_⟩
      simpa only [Function.update_of_ne hij] using hc
  | @take c j rest ho hq =>
    refine ⟨h.line.call ho hq, fun d i k hb => ?_, h.piece, h.count, h.gone⟩
    have hd : d ≠ c := by
      rintro rfl
      have := h.owned d i k hb
      rw [ho] at this
      cases this
    exact (Function.update_of_ne hd _ _).trans (h.owned d i k hb)
  | @start c j hg ho hb hlt =>
    refine ⟨h.line, fun d i k hd => ?_, fun d i k hd => ?_, h.count, h.gone⟩
    · simp only [Function.update_apply] at hd
      split at hd
      · rename_i hdc
        cases hd
        exact hdc ▸ ho
      · exact h.owned d i k hd
    · simp only [Function.update_apply] at hd
      split at hd
      · rename_i hdc
        subst hdc
        cases hd
        exact ⟨rfl, hlt⟩
      · exact h.piece d i k hd
  | @finish c j k hb =>
    obtain ⟨rfl, hlt⟩ := h.piece c j k hb
    have hdone : ∀ i d, Function.update t.count j
        (Function.update (t.count j) c (t.count j c + 1)) i d =
        if i = j ∧ d = c then t.count j c + 1 else t.count i d := fun i d => by
      by_cases hi : i = j <;> by_cases hd : d = c <;> simp [hi, hd]
    have hrest : ∀ d i n, Function.update t.busy c none d = some (i, n) →
        d ≠ c ∧ t.busy d = some (i, n) := fun d i n hd => by
      rw [Function.update_apply] at hd
      split at hd
      · cases hd
      · exact ⟨‹_›, hd⟩
    refine ⟨h.line, fun d i n hd => h.owned d i n (hrest d i n hd).2, fun d i n hd => ?_,
      fun i d => ?_, h.gone⟩
    · obtain ⟨hne, hd⟩ := hrest d i n hd
      simp only [hdone, if_neg fun hij : i = j ∧ d = c => hne hij.2]
      exact h.piece d i n hd
    · simp only [hdone]
      split
      · rename_i hij
        obtain ⟨rfl, rfl⟩ := hij
        exact hlt
      · exact h.count i d
  | @leave c j ho hb hc =>
    refine ⟨h.line.leave ho, fun d i k hd => ?_, h.piece, h.count, fun i hi => ?_⟩
    case refine_2 =>
      obtain ⟨hm, hl⟩ := h.gone i hi
      refine ⟨hm, fun d hd => ?_⟩
      simp only [Function.update_apply]
      split
      · rename_i hdc
        exact List.mem_append_left _ (hdc ▸ hl d hd)
      · exact hl d hd
    have hne : d ≠ c := by
      rintro rfl
      simp only [hb] at hd
      cases hd
    exact (Function.update_of_ne hne _ _).trans (h.owned d i k hd)
  | @done j hj hl hf =>
    refine ⟨h.line, h.owned, h.piece, h.count, fun i hi => ?_⟩
    rcases List.mem_append.mp hi with hi | hi
    · exact h.gone i hi
    · obtain rfl := List.mem_singleton.mp hi
      exact ⟨hj, hl⟩

theorem Sound.trace {t u : Gangs κ ι} {es : List (Turn κ ι)} (h : Sound t)
    (ht : spec.Trace t es u) : Sound u :=
  ht.invariant (fun _ _ _ hI hs => hI.step hs) h

/-- One common order rules out deadlock: while a party is not finished, some turn is possible. -/
theorem Sound.progress {t : Gangs κ ι} (h : Sound t) {j : ι} (hj : j ∈ t.order)
    (hf : j ∉ t.finished) : ∃ e u, Step t e u := by
  by_contra hstuck
  push Not at hstuck
  have hbusy : ∀ c, t.owner c = none → t.queue c = [] := fun c ho => by
    cases hq : t.queue c with
    | nil => rfl
    | cons i rest => exact absurd (Step.take ho hq) (hstuck _ _)
  have hfree : ∀ c, t.busy c = none := fun c => by
    cases hb : t.busy c with
    | none => rfl
    | some q => exact absurd (Step.finish hb) (hstuck _ _)
  obtain ⟨first, hfirst⟩ := Option.isSome_iff_exists.mp
    (List.find?_isSome (p := fun i => decide (i ∉ t.finished)).mpr ⟨j, hj, by simpa using hf⟩)
  obtain ⟨hfirst, before, after, ho, hb⟩ := List.find?_eq_some_iff_append.mp hfirst
  have hb : ∀ i ∈ before, i ∈ t.finished := by simpa using hb
  have hm : first ∈ t.order := by simp [ho]
  have hserved : ∀ c, 0 < t.pieces first c → first ∉ t.left c → t.owner c = some first :=
    fun c hc hl => h.line.first_is_served (hbusy c) ho
      (fun i hi hn => (h.gone i (hb i hi)).2 c (of_decide_eq_true hn)) (decide_eq_true hc) hl
  by_cases hall : ∀ c, 0 < t.pieces first c → first ∈ t.left c
  · exact hstuck _ _ (.done hm hall (by simpa using hfirst))
  · push Not at hall
    obtain ⟨c, hc, hl⟩ := hall
    have hg : t.Gathered first := fun d hd => by
      by_cases hld : first ∈ t.left d
      · exact .inr hld
      · exact .inl (hserved d hd hld)
    rcases Nat.lt_or_ge (t.count first c) (t.pieces first c) with hlt | hge
    · exact hstuck _ _ (.start hg (hserved c hc hl) (hfree c) hlt)
    · exact hstuck _ _ (.leave (hserved c hc hl) (hfree c) (Nat.le_antisymm (h.count first c) hge))

end Gangs

end Interleaving

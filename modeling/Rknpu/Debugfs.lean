import Rknpu.Decimal
import Rknpu.Devfreq
import Rknpu.PowerUsers
import Rknpu.Sync

namespace Rknpu.Debugfs

open Decimal

def erange : Int := 34

/-- What a write handler makes of the bytes it has copied: a newline at the end is taken off,
and the string ends at the first NUL. -/
def terminate (ubuf : List UInt8) : List UInt8 :=
  (if ubuf.getLast? = some 10 then ubuf.dropLast else ubuf).takeWhile (· ≠ 0)

/-- How the write handlers begin, with a buffer of `size` bytes; `fault` says that
`copy_from_user` fails. -/
def copyFromUser (size : Nat) (fault : Bool) (ubuf : List UInt8) : Except Int (List UInt8) :=
  if ubuf.length = 0 ∨ size ≤ ubuf.length then .error (-einval)
  else if fault then .error (-efault)
  else .ok (terminate ubuf)

def skip (c : UInt8) (s : List UInt8) : List UInt8 := if s.head? = some c then s.tail else s

/-- `kstrtoul` to the base 10; it takes a sign in front and a newline at the end. -/
def kstrtoul (s : List UInt8) : Except Int Nat :=
  let digits := (skip 43 s).takeWhile isDigit
  let rest := skip 10 ((skip 43 s).dropWhile isDigit)
  if 2 ^ 64 ≤ value digits then .error (-erange)
  else if digits = [] ∨ rest ≠ [] then .error (-einval)
  else .ok (value digits)

/-- How `rknpu_power_put_delay_set` and `rknpu_freq_set` read a number. -/
def readNumber (fault : Bool) (ubuf : List UInt8) : Except Int Nat :=
  match copyFromUser 16 fault ubuf with
  | .error ret => .error ret
  | .ok buf =>
    match kstrtoul buf with
    | .error _ => .error (-efault)
    | .ok v => .ok v

def on : List UInt8 := [111, 110]
def off : List UInt8 := [111, 102, 102]

variable {ubuf l t s : List UInt8} {v n : Nat} {fault : Bool}

section Text

theorem terminate_append (hl : ∀ c ∈ l, c ≠ 0) (ht : t ≠ []) :
    terminate (l ++ t) = l ++ terminate t := by
  have hpos : ∀ c ∈ l, decide (c ≠ 0) = true := fun c hc => decide_eq_true (hl c hc)
  unfold terminate
  rw [List.getLast?_append_of_ne_nil _ ht, List.dropLast_append_of_ne_nil ht]
  split <;> rw [List.takeWhile_append_of_pos hpos]

theorem terminate_eq (hl : ∀ c ∈ l, c ≠ 0) (hlast : l.getLast? ≠ some 10) : terminate l = l := by
  rw [terminate, if_neg hlast, List.takeWhile_eq_self_iff]
  exact fun c hc => decide_eq_true (hl c hc)

theorem terminate_nul (r : List UInt8) : terminate (0 :: r) = [] := by
  unfold terminate
  split
  · cases r <;> rfl
  · rfl

theorem terminate_newline_nul (r : List UInt8) : terminate (10 :: 0 :: r) = [10] := by
  unfold terminate
  split
  · cases r
    · rename_i h
      exact absurd h (by decide)
    · rfl
  · rfl

theorem terminate_split (ubuf : List UInt8) : ∃ t, ubuf = terminate ubuf ++ t ∧
    (t = [] ∨ t = [10] ∨ ∃ r, t = 0 :: r) := by
  have hcut : ∀ l : List UInt8, ∃ t, l = l.takeWhile (· ≠ 0) ++ t ∧ (t = [] ∨ ∃ r, t = 0 :: r) :=
    fun l => by
      refine ⟨l.dropWhile (· ≠ 0), List.takeWhile_append_dropWhile.symm, ?_⟩
      have hhead := List.head?_dropWhile_not (fun c : UInt8 => decide (c ≠ 0)) l
      cases hd : l.dropWhile (fun c => decide (c ≠ 0)) with
      | nil => exact .inl rfl
      | cons c r =>
        rw [hd] at hhead
        have hc : c = 0 := by simpa using hhead
        exact .inr ⟨r, by rw [hc]⟩
  unfold terminate
  split
  · rename_i hlast
    obtain ⟨t, ht, hcases⟩ := hcut ubuf.dropLast
    obtain ⟨l, rfl⟩ := List.getLast?_eq_some_iff.mp hlast
    rw [List.dropLast_concat] at ht ⊢
    refine ⟨t ++ [10], by rw [← List.append_assoc, ← ht], ?_⟩
    obtain rfl | ⟨r, rfl⟩ := hcases
    · exact .inr (.inl rfl)
    · exact .inr (.inr ⟨r ++ [10], rfl⟩)
  · obtain ⟨t, ht, hcases⟩ := hcut ubuf
    exact ⟨t, ht, hcases.imp id .inr⟩

end Text

section Number

/-- What may stand behind a number: newlines, at most two, and whatever a NUL hides. -/
def Tail (t : List UInt8) : Prop :=
  t = [] ∨ t = [10] ∨ t = [10, 10] ∨ ∃ r, t = 0 :: r ∨ t = 10 :: 0 :: r

def Number (ubuf : List UInt8) (v : Nat) : Prop :=
  ∃ sign digits t, ubuf = sign ++ (digits ++ t) ∧ (sign = [] ∨ sign = [43]) ∧ digits ≠ [] ∧
    (∀ c ∈ digits, isDigit c) ∧ Tail t ∧ value digits = v

theorem skip_split (c : UInt8) (s : List UInt8) :
    ∃ l, s = l ++ skip c s ∧ (l = [] ∨ l = [c]) := by
  unfold skip
  split
  · rename_i h
    obtain ⟨r, rfl⟩ := List.head?_eq_some_iff.mp h
    exact ⟨[c], rfl, .inr rfl⟩
  · exact ⟨[], rfl, .inl rfl⟩

theorem skip_append {c : UInt8} (hl : l = [] ∨ l = [c]) (hs : s.head? ≠ some c) :
    skip c (l ++ s) = s := by
  obtain rfl | rfl := hl
  · exact if_neg hs
  · exact if_pos rfl

theorem kstrtoul_iff : kstrtoul s = .ok v ↔ v < 2 ^ 64 ∧ ∃ sign digits t,
    s = sign ++ (digits ++ t) ∧ (sign = [] ∨ sign = [43]) ∧ digits ≠ [] ∧
    (∀ c ∈ digits, isDigit c) ∧ (t = [] ∨ t = [10]) ∧ value digits = v := by
  constructor
  · intro h
    unfold kstrtoul at h
    dsimp only at h
    split_ifs at h with hlt hok
    cases h
    obtain ⟨hne, hrest⟩ := not_or.mp hok
    obtain ⟨sign, hs, hsign⟩ := skip_split 43 s
    obtain ⟨t, ht, hnl⟩ := skip_split 10 ((skip 43 s).dropWhile isDigit)
    rw [not_not.mp hrest, List.append_nil] at ht
    refine ⟨not_le.mp hlt, sign, _, t, ?_, hsign, hne, fun c hc => List.mem_takeWhile_imp hc, hnl, rfl⟩
    rw [← ht, List.takeWhile_append_dropWhile]
    exact hs
  · rintro ⟨hlt, sign, digits, t, rfl, hsign, hne, hdigits, ht, rfl⟩
    have hhead : (digits ++ t).head? ≠ some 43 := by
      obtain ⟨c, r, rfl⟩ := List.exists_cons_of_ne_nil hne
      rintro ⟨⟩
      exact absurd (hdigits 43 List.mem_cons_self) (by decide)
    have hnot : ∀ c ∈ t.head?, isDigit c = false := by
      obtain rfl | rfl := ht <;> intro c hc <;> cases hc
      rfl
    obtain ⟨htake, hdrop⟩ := takeWhile_digits hdigits hnot
    have hskip : skip 10 t = [] := by
      obtain rfl | rfl := ht <;> rfl
    unfold kstrtoul
    rw [skip_append hsign hhead, htake, hdrop, hskip]
    dsimp only
    rw [if_neg (not_le.mpr hlt), if_neg (by simp [hne])]

theorem digit_ne_zero {c : UInt8} (h : isDigit c) : c ≠ 0 := by
  rintro rfl
  exact absurd h (by decide)

theorem terminate_tail {sign digits : List UInt8} (hsign : sign = [] ∨ sign = [43])
    (hne : digits ≠ []) (hdigits : ∀ c ∈ digits, isDigit c) (ht : Tail t) :
    ∃ nl, terminate (sign ++ (digits ++ t)) = sign ++ (digits ++ nl) ∧ (nl = [] ∨ nl = [10]) := by
  have hzero : ∀ c ∈ sign ++ digits, c ≠ 0 := fun c hc => by
    obtain hc | hc := List.mem_append.mp hc
    · obtain rfl | rfl := hsign
      · cases hc
      · rw [List.mem_singleton.mp hc]
        decide
    · exact digit_ne_zero (hdigits c hc)
  simp only [← List.append_assoc]
  obtain rfl | rfl | rfl | ⟨r, rfl | rfl⟩ := ht
  · refine ⟨[], ?_, .inl rfl⟩
    rw [List.append_nil]
    refine terminate_eq hzero fun h => ?_
    rw [List.getLast?_append_of_ne_nil _ hne] at h
    exact absurd (hdigits 10 (List.mem_of_getLast? h)) (by decide)
  · exact ⟨[], terminate_append hzero (by decide), .inl rfl⟩
  · exact ⟨[10], terminate_append hzero (by decide), .inr rfl⟩
  · refine ⟨[], ?_, .inl rfl⟩
    rw [terminate_append hzero (List.cons_ne_nil _ _), terminate_nul]
  · refine ⟨[10], ?_, .inr rfl⟩
    rw [terminate_append hzero (List.cons_ne_nil _ _), terminate_newline_nul]

/-- The write handlers of `delayms` and `freq` take exactly the numbers of at most 15 bytes. -/
theorem readNumber_iff : readNumber fault ubuf = .ok v ↔
    fault = false ∧ ubuf.length < 16 ∧ Number ubuf v := by
  constructor
  · intro h
    unfold readNumber copyFromUser at h
    split_ifs at h with hlen hf
    dsimp only at h
    split at h <;> cases h
    rename_i hv
    obtain ⟨hlt, sign, digits, nl, hs, hsign, hne, hdigits, hnl, hval⟩ := kstrtoul_iff.mp hv
    obtain ⟨t, ht, hcases⟩ := terminate_split ubuf
    refine ⟨Bool.eq_false_of_not_eq_true hf, by omega, sign, digits, nl ++ t, ?_, hsign, hne, hdigits,
      ?_, hval⟩
    · rw [ht, hs]
      simp only [List.append_assoc]
    · obtain rfl | rfl := hnl <;> obtain rfl | rfl | ⟨r, rfl⟩ := hcases
      · exact .inl rfl
      · exact .inr (.inl rfl)
      · exact .inr (.inr (.inr ⟨r, .inl rfl⟩))
      · exact .inr (.inl rfl)
      · exact .inr (.inr (.inl rfl))
      · exact .inr (.inr (.inr ⟨r, .inr rfl⟩))
  · rintro ⟨rfl, hlen, sign, digits, t, rfl, hsign, hne, hdigits, ht, rfl⟩
    obtain ⟨nl, hterm, hnl⟩ := terminate_tail hsign hne hdigits ht
    have hpos : 0 < digits.length := List.length_pos_of_ne_nil hne
    simp only [List.length_append] at hlen
    have hlt : value digits < 2 ^ 64 :=
      (value_lt hdigits).trans_le ((Nat.pow_le_pow_right (by decide) (by omega)).trans
        (show 10 ^ 15 ≤ 2 ^ 64 by decide))
    have hparse := kstrtoul_iff.mpr ⟨hlt, sign, digits, nl, rfl, hsign, hne, hdigits, hnl, rfl⟩
    unfold readNumber copyFromUser
    rw [if_neg (by simp only [List.length_append]; omega), hterm]
    simp only [Bool.false_eq_true, if_false, hparse]

end Number

section Nodes

end Nodes

end Rknpu.Debugfs

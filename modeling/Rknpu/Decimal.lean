import Mathlib

namespace Decimal

def isDigit (c : UInt8) : Bool := decide (48 ≤ c.toNat ∧ c.toNat ≤ 57)

def digitVal (c : UInt8) : Nat := c.toNat - 48

/-- The number that a string of digits stands for. -/
def value (l : List UInt8) : Nat := l.foldl (fun v c => 10 * v + digitVal c) 0

variable {n k d : Nat} {l t : List UInt8}

theorem digitVal_lt {c : UInt8} (h : isDigit c) : digitVal c < 10 := by
  obtain ⟨-, h⟩ := of_decide_eq_true h
  rw [digitVal]
  omega

theorem value_eq (l : List UInt8) : value l = Nat.ofDigits 10 (l.reverse.map digitVal) := by
  rw [Nat.ofDigits_eq_foldr, List.map_reverse, List.foldr_reverse, List.foldl_map, value]
  simp only [Nat.cast_id, add_comm]

theorem value_lt (h : ∀ c ∈ l, isDigit c) : value l < 10 ^ l.length := by
  have hlt : ∀ v ∈ l.reverse.map digitVal, v < 10 := fun v hv => by
    obtain ⟨c, hc, rfl⟩ := List.mem_map.mp hv
    exact digitVal_lt (h c (List.mem_reverse.mp hc))
  have := Nat.ofDigits_lt_base_pow_length (by decide) hlt
  rwa [← value_eq, List.length_map, List.length_reverse] at this

section Scan

theorem takeWhile_digits (hl : ∀ c ∈ l, isDigit c) (ht : ∀ c ∈ t.head?, isDigit c = false) :
    (l ++ t).takeWhile isDigit = l ∧ (l ++ t).dropWhile isDigit = t := by
  rw [List.takeWhile_append_of_pos hl, List.dropWhile_append_of_pos hl]
  cases t with
  | nil => simp
  | cons c t => simp [ht c rfl]

end Scan

end Decimal

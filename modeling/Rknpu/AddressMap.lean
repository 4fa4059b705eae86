import Mathlib.Data.List.Basic

namespace AddressMap

/-- `size` addresses from `addr` on stand for as many from `phys` on. -/
structure Mapping where
  addr : Nat
  phys : Nat
  size : Nat

/-- The addresses from `start` on. -/
def run (start size : Nat) : List Nat := (List.range size).map (start + ·)

def Mapping.apply (m : Mapping) (a : Nat) : Option Nat :=
  if a < m.addr then none else (run m.phys m.size)[a - m.addr]?

/-- What an address stands for where the mappings were made in this order. -/
def translate (t : List Mapping) (a : Nat) : Option Nat := t.findSome? (·.apply a)

/-- The mappings are of the addresses from `start` on, to the given bytes in their order. -/
def Places (t : List Mapping) (start : Nat) (bytes : List Nat) : Prop :=
  ∀ a, translate t a = if a < start then none else bytes[a - start]?

variable {t t' : List Mapping} {start n k : Nat} {bytes bytes' : List Nat}

@[simp] theorem length_run : (run start n).length = n := by simp [run]

theorem take_run (start n k : Nat) : (run start n).take k = run start (min k n) := by
  rw [run, ← List.map_take, List.take_range]
  rfl

theorem drop_run (start n k : Nat) : (run start n).drop k = run (start + k) (n - k) := by
  refine List.ext_getElem (by simp) fun i h h' => ?_
  simp [run, Nat.add_assoc]

theorem mem_run {x : Nat} : x ∈ run start n ↔ start ≤ x ∧ x < start + n := by
  simp only [run, List.mem_map, List.mem_range]
  constructor
  · rintro ⟨i, hi, rfl⟩
    omega
  · rintro ⟨h, h'⟩
    exact ⟨x - start, by omega, by omega⟩

theorem translate_append (t t' : List Mapping) (a : Nat) :
    translate (t ++ t') a = (translate t a).or (translate t' a) := by
  simp [translate, List.findSome?_append]

theorem Places.at (h : Places t start bytes) (k : Nat) : translate t (start + k) = bytes[k]? := by
  rw [h, if_neg (by omega), Nat.add_sub_cancel_left]

theorem Places.nil (start : Nat) : Places [] start [] := by
  intro a
  simp [translate]

theorem Places.single (m : Mapping) : Places [m] m.addr (run m.phys m.size) := by
  intro a
  rw [translate, List.findSome?_singleton]
  rfl

theorem Places.apart (h : Places t start bytes) (h' : Places t' (start + n) bytes')
    (hn : bytes.length ≤ n) (k : Nat) :
    translate (t ++ t') (start + k) = if k < n then bytes[k]? else bytes'[k - n]? := by
  rw [translate_append, h.at, h']
  by_cases hk : k < n
  · rw [if_pos hk, if_pos (by omega), Option.or_none]
  · have hnone : bytes[k]? = none := List.getElem?_eq_none (by omega)
    have hsub : start + k - (start + n) = k - n := by omega
    rw [if_neg hk, if_neg (by omega), hnone, Option.none_or, hsub]

theorem Places.append (h : Places t start bytes) (h' : Places t' (start + bytes.length) bytes') :
    Places (t ++ t') start (bytes ++ bytes') := by
  intro a
  by_cases ha : a < start
  · rw [translate_append, h, h', if_pos ha, if_pos ha, if_pos (by omega), Option.or_none]
  · obtain ⟨k, rfl⟩ := Nat.exists_eq_add_of_le (Nat.not_lt.mp ha)
    rw [h.apart h' (Nat.le_refl _), if_neg ha, Nat.add_sub_cancel_left, List.getElem?_append]

theorem Places.cons {m : Mapping} {bytes : List Nat}
    (h : Places t (m.addr + m.size) bytes) : Places (m :: t) m.addr (run m.phys m.size ++ bytes) :=
  (Places.single m).append (by rwa [length_run])

end AddressMap

import Swip.Library.Pieces

/-! A list given as its parts, none of them empty, and the offsets at which they begin. -/
namespace Swip.Library.Parts

variable {α : Type*} {parts : List (List α)} {i j k : Nat}

def offsetOf (parts : List (List α)) (k : Nat) : Nat := (parts.take k).flatten.length

@[simp] theorem offsetOf_zero : offsetOf parts 0 = 0 := rfl

theorem offsetOf_succ {part : List α} (here : parts[k]? = some part) : offsetOf parts (k + 1) = offsetOf parts k + part.length := by
  unfold offsetOf
  rw [List.take_add_one,here,Option.toList_some,List.flatten_append,List.length_append,List.flatten_singleton]

theorem offsetOf_all (past : parts.length ≤ k) : offsetOf parts k = parts.flatten.length := by
  rw [offsetOf,List.take_of_length_le past]

theorem offsetOf_le (order : i ≤ j) : offsetOf parts i ≤ offsetOf parts j := by
  induction order with
  | refl => exact Nat.le_refl _
  | step _ ih =>
    rename_i m _
    cases here : parts[m]? with
    | none =>
      have past := List.getElem?_eq_none_iff.mp here
      rw [offsetOf_all (Nat.le_succ_of_le past),← offsetOf_all past]
      exact ih
    | some part =>
      rw [offsetOf_succ here]
      omega

theorem offsetOf_le_length : offsetOf parts k ≤ parts.flatten.length := by
  rcases Nat.le_total k parts.length with inside | past
  · rw [← offsetOf_all (Nat.le_refl parts.length)]
    exact offsetOf_le inside
  · exact Nat.le_of_eq (offsetOf_all past)

theorem lt_of_offsetOf_lt (order : offsetOf parts i < offsetOf parts j) : i < j := by
  rcases Nat.lt_or_ge i j with fine | other
  · exact fine
  · have back : offsetOf parts j ≤ offsetOf parts i := offsetOf_le other
    omega

section
variable (filled : ∀ part ∈ parts, part ≠ [])
include filled

theorem offsetOf_lt (inside : i < parts.length) (order : i < j) : offsetOf parts i < offsetOf parts j := by
  have here : parts[i]? = some parts[i] := List.getElem?_eq_getElem inside
  have positive := List.length_pos_iff.mpr (filled parts[i] (List.getElem_mem inside))
  have next := offsetOf_succ here
  have later : offsetOf parts (i + 1) ≤ offsetOf parts j := offsetOf_le order
  omega

theorem offsetOf_inj (first : i < parts.length) (second : j < parts.length) (same : offsetOf parts i = offsetOf parts j) : i = j := by
  rcases Nat.lt_trichotomy i j with order | equal | order
  · have := offsetOf_lt filled first order
    omega
  · exact equal
  · have := offsetOf_lt filled second order
    omega

end

theorem drop_take_succ {part : List α} {n : Nat} (here : parts[k]? = some part) :
    (parts.drop k).take (n + 1) = part :: (parts.drop (k + 1)).take n := by
  obtain ⟨inside,same⟩ := List.getElem?_eq_some_iff.mp here
  rw [List.drop_eq_getElem_cons inside,same,List.take_succ_cons]

/-! ### Parts of one size -/

theorem offsetOf_cut {size : Nat} {whole : List α} (cut : Pieces.Cut size whole parts) (inside : k < parts.length) :
    offsetOf parts k = k * size := by
  induction cut generalizing k with
  | last piece begun fits =>
    obtain rfl : k = 0 := by simpa using inside
    simp
  | more piece whole pieces full _ ih =>
    cases k with
    | zero => simp
    | succ k =>
      have earlier := ih (Nat.lt_of_succ_lt_succ inside)
      unfold offsetOf at earlier ⊢
      rw [List.take_succ_cons,List.flatten_cons,List.length_append,full,earlier,Nat.succ_mul,Nat.add_comm]

theorem parts_filled {size : Nat} {whole : List α} (positive : 0 < size) (cut : Pieces.Cut size whole parts) :
    ∀ part ∈ parts, part ≠ [] := by
  induction cut with
  | last piece begun fits => simpa using begun
  | more piece whole pieces full _ ih =>
    intro part member
    rcases List.mem_cons.mp member with rfl | later
    · rw [← List.length_pos_iff]
      omega
    · exact ih part later

end Swip.Library.Parts

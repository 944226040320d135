import Mathlib.Data.List.Basic

/-! A list cut into pieces of one size; the last piece may be shorter. -/
namespace Swip.Library.Pieces

variable {α : Type*} {size : Nat}

inductive Cut (size : Nat) : List α → List (List α) → Prop
  | last (piece : List α) (begun : piece ≠ []) (fits : piece.length ≤ size) : Cut size piece [piece]
  | more (piece whole : List α) (pieces : List (List α)) (full : piece.length = size) (rest : Cut size whole pieces) :
      Cut size (piece ++ whole) (piece :: pieces)

theorem Cut.flatten {whole : List α} {pieces : List (List α)} (cut : Cut size whole pieces) :
    pieces.flatten = whole := by
  induction cut with
  | last piece => exact List.flatten_singleton
  | more piece whole pieces _ _ ih => rw [List.flatten_cons,ih]

theorem Cut.count {whole : List α} {pieces : List (List α)} (cut : Cut size whole pieces) :
    size * pieces.length < whole.length + size ∧ whole.length ≤ size * pieces.length := by
  induction cut with
  | last piece begun fits =>
    have positive := List.length_pos_iff.mpr begun
    simp only [List.length_singleton,Nat.mul_one]
    omega
  | more piece whole pieces full _ ih =>
    rw [List.length_cons,List.length_append,Nat.mul_succ,full]
    omega

theorem Cut.of_map {β : Type*} {f : α → β} {whole : List α} {pieces : List (List β)}
    (cut : Cut size (whole.map f) pieces) : ∃ parts, pieces = parts.map (List.map f) ∧ Cut size whole parts := by
  generalize mapped : whole.map f = joined at cut
  induction cut generalizing whole with
  | last piece begun fits =>
    subst mapped
    exact ⟨[whole],rfl,.last whole (by simpa using begun) (by simpa using fits)⟩
  | more piece later pieces full _ ih =>
    obtain ⟨first,rest,rfl,rfl,same⟩ := List.map_eq_append_iff.mp mapped
    obtain ⟨parts,rfl,cut⟩ := ih same
    exact ⟨first :: parts,rfl,.more first rest parts (by simpa using full) cut⟩

theorem cut_filled (full : List (List α)) (last : List α) (sizes : ∀ piece ∈ full, piece.length = size)
    (begun : last ≠ []) (fits : last.length ≤ size) : Cut size (full.flatten ++ last) (full ++ [last]) := by
  induction full with
  | nil => exact .last last begun fits
  | cons piece full ih =>
    rw [List.flatten_cons,List.append_assoc,List.cons_append]
    exact .more piece _ _ (sizes piece (by simp)) (ih fun other member => sizes other (by simp [member]))

theorem cut_exists (positive : 0 < size) (whole : List α) (begun : whole ≠ []) : ∃ pieces, Cut size whole pieces := by
  induction length : whole.length using Nat.strongRecOn generalizing whole with
  | _ n ih =>
    rcases Nat.lt_or_ge size whole.length with long | fits
    · have left : whole.drop size ≠ [] := by
        rw [← List.length_pos_iff,List.length_drop]
        omega
      obtain ⟨pieces,cut⟩ := ih (whole.length - size) (by omega) (whole.drop size) left (List.length_drop ..)
      have joined := Cut.more (whole.take size) _ pieces (List.length_take_of_le (Nat.le_of_lt long)) cut
      rw [List.take_append_drop] at joined
      exact ⟨_,joined⟩
    · exact ⟨[whole],.last whole begun fits⟩

theorem Cut.pieces_fit {whole : List α} {pieces : List (List α)} (cut : Cut size whole pieces) :
    ∀ piece ∈ pieces, piece.length ≤ size := by
  induction cut with
  | last piece _ fits => simpa using fits
  | more piece whole pieces full _ ih =>
    intro other member
    rcases List.mem_cons.mp member with rfl | later
    · exact Nat.le_of_eq full
    · exact ih other later

/-- What a header at the front of the whole takes up is all in the first piece. -/
theorem Cut.behind {front rest : List α} {pieces : List (List α)} (cut : Cut size (front ++ rest) pieces)
    (short : front.length ≤ size) :
    ∃ first others, pieces = first :: others ∧ (first.drop front.length :: others).flatten = rest := by
  have flat := cut.flatten
  generalize whole : front ++ rest = joined at cut
  cases cut with
  | last piece =>
    subst whole
    exact ⟨_,[],rfl,by simp⟩
  | more piece later pieces full =>
    refine ⟨piece,pieces,rfl,?_⟩
    rw [List.flatten_cons] at flat ⊢
    rw [← List.drop_append_of_le_length (by omega),flat,List.drop_left]

end Swip.Library.Pieces

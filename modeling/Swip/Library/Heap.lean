import Mathlib.Data.List.Nodup
import Mathlib.Logic.Function.Basic
import Mathlib.Data.Fintype.Card

/-! Singly linked chains in a heap of cells. The heap is a partial map from addresses to
cells, `next` reads the link out of a cell, and `Chain` gives the addresses and cells
met on the way from a link to the end. -/
namespace Swip.Library.Heap

variable {ι κ : Type*} (next : κ → Option ι)

inductive Chain (heap : ι → Option κ) : Option ι → List (ι × κ) → Prop
  | nil : Chain heap none []
  | cons (address : ι) (cell : κ) (rest : List (ι × κ)) (read : heap address = some cell)
      (tail : Chain heap (next cell) rest) : Chain heap (some address) ((address,cell) :: rest)

variable {next} {heap : ι → Option κ}

theorem Chain.unique {link : Option ι} {first second : List (ι × κ)} (left : Chain next heap link first)
    (right : Chain next heap link second) : first = second := by
  induction left generalizing second with
  | nil => cases right; rfl
  | cons address cell rest read tail ih =>
    cases right with
    | cons _ other others readOther tailOther =>
      have same : cell = other := Option.some.inj (read.symm.trans readOther)
      subst same
      rw [ih tailOther]

theorem Chain.link_none {link : Option ι} (chain : Chain next heap link []) : link = none := by
  cases chain; rfl

theorem Chain.link_some {link : Option ι} {cells : List (ι × κ)} (chain : Chain next heap link cells)
    (nonempty : cells ≠ []) : ∃ address, link = some address := by
  cases chain with
  | nil => contradiction
  | cons address => exact ⟨address,rfl⟩

theorem Chain.read {link : Option ι} {cells : List (ι × κ)} (chain : Chain next heap link cells)
    {address : ι} {cell : κ} (member : (address,cell) ∈ cells) : heap address = some cell := by
  induction chain with
  | nil => simp at member
  | cons other found rest read tail ih =>
    rcases List.mem_cons.mp member with same | later
    · cases same; exact read
    · exact ih later

theorem Chain.of_append {link : Option ι} (before : List (ι × κ)) {address : ι} {cell : κ}
    {after : List (ι × κ)} (chain : Chain next heap link (before ++ (address,cell) :: after)) :
    Chain next heap (some address) ((address,cell) :: after) := by
  induction before generalizing link with
  | nil =>
    cases chain with
    | cons _ _ _ read tail => exact .cons _ _ _ read tail
  | cons head before ih =>
    cases chain with
    | cons _ _ _ _ tail => exact ih tail

theorem Chain.nodup {link : Option ι} {cells : List (ι × κ)} (chain : Chain next heap link cells) :
    (cells.map Prod.fst).Nodup := by
  induction chain with
  | nil => simp
  | cons address cell rest read tail ih =>
    refine List.nodup_cons.mpr ⟨?_,ih⟩
    intro member
    obtain ⟨⟨other,found⟩,inside,same⟩ := List.mem_map.mp member
    change other = address at same
    subst same
    obtain ⟨before,after,rfl⟩ := List.append_of_mem inside
    have here : Chain next heap (some other) _ := .cons other cell _ read tail
    have again := Chain.of_append before tail
    have lengths := congrArg List.length (here.unique again)
    simp at lengths
    omega

theorem Chain.length_le [Fintype ι] {link : Option ι} {cells : List (ι × κ)}
    (chain : Chain next heap link cells) : cells.length ≤ Fintype.card ι := by
  simpa using chain.nodup.length_le_card

theorem Chain.congr {other : ι → Option κ} {link : Option ι} {cells : List (ι × κ)}
    (chain : Chain next heap link cells)
    (agree : ∀ address ∈ cells.map Prod.fst, other address = heap address) :
    Chain next other link cells := by
  induction chain with
  | nil => exact .nil
  | cons address cell rest read tail ih =>
    exact .cons address cell rest ((agree address (by simp)).trans read)
      (ih (fun a member => agree a (by simp only [List.map_cons,List.mem_cons]; exact .inr member)))

variable [DecidableEq ι]

theorem Chain.update_outside {link : Option ι} {cells : List (ι × κ)} (chain : Chain next heap link cells)
    (address : ι) (value : Option κ) (outside : address ∉ cells.map Prod.fst) :
    Chain next (Function.update heap address value) link cells := by
  apply chain.congr
  intro a member
  apply Function.update_of_ne
  rintro rfl
  exact outside member

theorem Chain.relink {link : Option ι} {before after others : List (ι × κ)} {address : ι} {cell : κ}
    (chain : Chain next heap link (before ++ (address,cell) :: after)) (changed : κ)
    (linked : Chain next heap (next changed) others) (outside : address ∉ others.map Prod.fst) :
    Chain next (Function.update heap address (some changed)) link (before ++ (address,changed) :: others) := by
  induction before generalizing link with
  | nil =>
    cases chain with
    | cons _ _ _ read tail =>
      exact .cons _ _ _ (Function.update_self _ _ _) (linked.update_outside _ _ outside)
  | cons head before ih =>
    have distinct := chain.nodup
    cases chain with
    | cons found other _ read tail =>
      have different : found ≠ address := by
        simp only [List.cons_append,List.map_cons,List.nodup_cons] at distinct
        intro same
        exact distinct.1 (by simp [same])
      exact .cons _ _ _ ((Function.update_of_ne different _ _).trans read) (ih tail)

theorem Chain.rewrite {link : Option ι} {before after : List (ι × κ)} {address : ι} {cell : κ}
    (chain : Chain next heap link (before ++ (address,cell) :: after)) (changed : κ)
    (same : next changed = next cell) :
    Chain next (Function.update heap address (some changed)) link (before ++ (address,changed) :: after) := by
  have here := Chain.of_append before chain
  have distinct := here.nodup
  cases here with
  | cons _ _ _ _ tail =>
    refine chain.relink changed (same ▸ tail) ?_
    simpa using (List.nodup_cons.mp distinct).1

end Swip.Library.Heap

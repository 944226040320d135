import Mathlib.Data.List.Basic

/-! Delta lists: an entry holds its distance from the entry before it, and the first one its
distance from a common start. `absolute` gives the places themselves. -/
namespace Swip.Library.Delta

variable {α : Type*}

def absolute (start : Nat) : List (Nat × α) → List (Nat × α)
  | [] => []
  | (delta,item) :: rest => (start + delta,item) :: absolute (start + delta) rest

def span : List (Nat × α) → Nat
  | [] => 0
  | (delta,_) :: rest => delta + span rest

def shift (offset : Nat) (entry : Nat × α) : Nat × α := (entry.1 + offset,entry.2)

/-- The item is put at a distance from the start, behind the entries that are not later. -/
def insertAt (item : α) : Nat → List (Nat × α) → List (Nat × α)
  | place, [] => [(place,item)]
  | place, (delta,other) :: rest =>
    if delta > place then (place,item) :: (delta - place,other) :: rest
    else (delta,other) :: insertAt item (place - delta) rest

def widen (delta : Nat) : List (Nat × α) → List (Nat × α)
  | [] => []
  | (next,other) :: later => (next + delta,other) :: later

/-- The first matching entry goes, and its distance goes to the one behind it. -/
def removeFirst (found : α → Bool) : List (Nat × α) → List (Nat × α)
  | [] => []
  | (delta,item) :: rest => if found item then widen delta rest else (delta,item) :: removeFirst found rest

theorem absolute_shift (start offset : Nat) (entries : List (Nat × α)) :
    absolute (start + offset) entries = (absolute start entries).map (shift offset) := by
  induction entries generalizing start with
  | nil => rfl
  | cons entry rest ih =>
    obtain ⟨delta,item⟩ := entry
    simp only [absolute,List.map_cons,shift]
    rw [Nat.add_right_comm start offset delta,ih]

theorem absolute_concat (start : Nat) (entries : List (Nat × α)) (delta : Nat) (item : α) :
    absolute start (entries ++ [(delta,item)]) = absolute start entries ++ [(start + span entries + delta,item)] := by
  induction entries generalizing start with
  | nil => rfl
  | cons entry rest ih =>
    obtain ⟨first,other⟩ := entry
    simp only [List.cons_append,absolute,span,ih,Nat.add_assoc]

theorem le_absolute {start : Nat} {entries : List (Nat × α)} {entry : Nat × α} (member : entry ∈ absolute start entries) :
    start ≤ entry.1 := by
  induction entries generalizing start with
  | nil => simp [absolute] at member
  | cons head rest ih =>
    obtain ⟨delta,item⟩ := head
    rcases List.mem_cons.mp member with rfl | later
    · exact Nat.le_add_right _ _
    · exact Nat.le_trans (Nat.le_add_right _ _) (ih later)

theorem absolute_le {start : Nat} {entries : List (Nat × α)} {entry : Nat × α} (member : entry ∈ absolute start entries) :
    entry.1 ≤ start + span entries := by
  induction entries generalizing start with
  | nil => simp [absolute] at member
  | cons head rest ih =>
    obtain ⟨delta,item⟩ := head
    simp only [span]
    rcases List.mem_cons.mp member with rfl | later
    · simp only
      omega
    · have := ih later
      omega

theorem span_lt {start bound : Nat} {entries : List (Nat × α)} (low : start < bound)
    (all : ∀ entry ∈ absolute start entries, entry.1 < bound) : start + span entries < bound := by
  induction entries generalizing start with
  | nil => exact low
  | cons head rest ih =>
    obtain ⟨delta,item⟩ := head
    have next := ih (all (start + delta,item) (by simp [absolute])) (fun entry member => all entry (by simp [absolute,member]))
    simp only [span]
    omega

/-- The entries that are not later than the new one stay in front of it, and none moves. -/
theorem absolute_insertAt (start place : Nat) (item : α) (entries : List (Nat × α)) :
    absolute start (insertAt item place entries) =
      (absolute start entries).takeWhile (·.1 ≤ start + place) ++
        (start + place,item) :: (absolute start entries).dropWhile (·.1 ≤ start + place) := by
  induction entries generalizing start place with
  | nil => simp [insertAt,absolute]
  | cons head rest ih =>
    obtain ⟨delta,other⟩ := head
    rw [insertAt]
    split
    · rename_i later
      have back : start + place + (delta - place) = start + delta := by omega
      have stop : ¬ start + delta ≤ start + place := by omega
      simp [absolute,back,stop]
    · rename_i early
      have same : start + delta + (place - delta) = start + place := by omega
      have go : start + delta ≤ start + place := by omega
      simp only [absolute,ih,same]
      simp [go]

theorem absolute_widen (start delta : Nat) (entries : List (Nat × α)) :
    absolute start (widen delta entries) = absolute (start + delta) entries := by
  rcases entries with _ | ⟨⟨next,other⟩,later⟩
  · rfl
  · simp only [widen,absolute]
    rw [Nat.add_comm next delta,Nat.add_assoc]

theorem absolute_removeFirst (start : Nat) (found : α → Bool) (entries : List (Nat × α)) :
    absolute start (removeFirst found entries) = (absolute start entries).eraseP (found ·.2) := by
  induction entries generalizing start with
  | nil => rfl
  | cons head rest ih =>
    obtain ⟨delta,item⟩ := head
    rw [removeFirst]
    by_cases here : found item
    · simp [absolute,here,absolute_widen]
    · simp [absolute,here,ih]

theorem span_removeFirst (found : α → Bool) (entries : List (Nat × α)) :
    span (removeFirst found entries) ≤ span entries := by
  induction entries with
  | nil => exact Nat.le_refl 0
  | cons head rest ih =>
    obtain ⟨delta,item⟩ := head
    rw [removeFirst]
    split
    · rcases rest with _ | ⟨⟨next,other⟩,later⟩
      · exact Nat.zero_le _
      · simp only [widen,span]
        omega
    · simp only [span]
      omega

end Swip.Library.Delta

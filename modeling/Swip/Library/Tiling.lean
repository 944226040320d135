import Mathlib.Data.List.Chain

/-! A region cut into blocks that follow each other without gaps, each of them in use or
free. Neighbouring free blocks are joined, so that no two of them meet. -/
namespace Swip.Library.Tiling

structure Tile where
  extent : Nat
  used : Bool
deriving DecidableEq, Repr

def total : List Tile → Nat
  | [] => 0
  | tile :: rest => tile.extent + total rest

def occupied : List Tile → Nat
  | [] => 0
  | tile :: rest => (if tile.used then tile.extent else 0) + occupied rest

/-- Where the first free block begins, or where the region ends. -/
def firstFree : Nat → List Tile → Nat
  | start, [] => start
  | start, tile :: rest => if tile.used then firstFree (start + tile.extent) rest else start

/-- The blocks in use, with the places they begin at. -/
def spans : Nat → List Tile → List (Nat × Nat)
  | _, [] => []
  | start, tile :: rest =>
    if tile.used then (start,tile.extent) :: spans (start + tile.extent) rest else spans (start + tile.extent) rest

def Separated (tiles : List Tile) : Prop := tiles.IsChain fun left right => left.used = true ∨ right.used = true

def joinNext (extent : Nat) : List Tile → Tile
  | ⟨more,false⟩ :: _ => ⟨extent + more,false⟩
  | _ => ⟨extent,false⟩

def afterNext : List Tile → List Tile
  | ⟨_,false⟩ :: rest => rest
  | rest => rest

def joinPrev (before : List Tile) (extent : Nat) : List Tile :=
  match before.getLast? with
  | some ⟨less,false⟩ => before.dropLast ++ [⟨less + extent,false⟩]
  | _ => before ++ [⟨extent,false⟩]

/-- What becomes of the region when the block of this extent between the two parts is freed. -/
def release (before : List Tile) (extent : Nat) (after : List Tile) : List Tile :=
  joinPrev before (joinNext extent after).extent ++ afterNext after

@[simp] theorem total_nil : total [] = 0 := rfl

@[simp] theorem total_cons (tile : Tile) (rest : List Tile) : total (tile :: rest) = tile.extent + total rest := rfl

@[simp] theorem total_append (first second : List Tile) : total (first ++ second) = total first + total second := by
  induction first with
  | nil => simp
  | cons tile rest ih => simp only [List.cons_append,total_cons,ih,Nat.add_assoc]

@[simp] theorem occupied_append (first second : List Tile) :
    occupied (first ++ second) = occupied first + occupied second := by
  induction first with
  | nil => simp [occupied]
  | cons tile rest ih => simp only [List.cons_append,occupied,ih,Nat.add_assoc]

theorem spans_append (start : Nat) (first second : List Tile) :
    spans start (first ++ second) = spans start first ++ spans (start + total first) second := by
  induction first generalizing start with
  | nil => rfl
  | cons tile rest ih =>
    simp only [List.cons_append,spans,ih,total_cons,Nat.add_assoc]
    split <;> simp

theorem mem_spans {start : Nat} {tiles : List Tile} {span : Nat × Nat} (member : span ∈ spans start tiles) :
    ∃ before after, tiles = before ++ ⟨span.2,true⟩ :: after ∧ span.1 = start + total before := by
  induction tiles generalizing start with
  | nil => simp [spans] at member
  | cons tile rest ih =>
    obtain ⟨extent,used⟩ := tile
    cases used with
    | false =>
      obtain ⟨before,after,rfl,place⟩ := ih (by simpa [spans] using member)
      exact ⟨⟨extent,false⟩ :: before,after,rfl,by rw [place,total_cons,Nat.add_assoc]⟩
    | true =>
      rcases List.mem_cons.mp (by simpa [spans] using member : span ∈ (start,extent) :: _) with rfl | later
      · exact ⟨[],rest,rfl,rfl⟩
      · obtain ⟨before,after,rfl,place⟩ := ih later
        exact ⟨⟨extent,true⟩ :: before,after,rfl,by rw [place,total_cons,Nat.add_assoc]⟩

theorem spans_bounds {start : Nat} {tiles : List Tile} {span : Nat × Nat} (member : span ∈ spans start tiles) :
    start ≤ span.1 ∧ span.1 + span.2 ≤ start + total tiles := by
  obtain ⟨before,after,rfl,place⟩ := mem_spans member
  simp only [total_append,total_cons]
  omega

theorem spans_sorted (start : Nat) (tiles : List Tile) :
    (spans start tiles).Pairwise fun low high => low.1 + low.2 ≤ high.1 := by
  induction tiles generalizing start with
  | nil => exact List.Pairwise.nil
  | cons tile rest ih =>
    simp only [spans]
    split
    · exact List.pairwise_cons.mpr ⟨fun span member => (spans_bounds member).1,ih _⟩
    · exact ih _

theorem free_of_spans_nil {start : Nat} {tiles : List Tile} (none : spans start tiles = []) :
    ∀ tile ∈ tiles, tile.used = false := by
  intro tile member
  obtain ⟨before,after,rfl⟩ := List.append_of_mem member
  cases used : tile.used with
  | false => rfl
  | true => simp [spans_append,spans,used] at none

theorem spans_nodup (start : Nat) (tiles : List Tile) (positive : ∀ tile ∈ tiles, 0 < tile.extent) :
    ((spans start tiles).map Prod.fst).Nodup := by
  refine List.pairwise_map.mpr ((spans_sorted start tiles).imp_of_mem ?_)
  intro low high member _ order same
  obtain ⟨before,after,rfl,_⟩ := mem_spans member
  have room : 0 < low.2 := positive ⟨low.2,true⟩ (by simp)
  omega

theorem firstFree_append (start : Nat) (first second : List Tile) (full : ∀ tile ∈ first, tile.used = true) :
    firstFree start (first ++ second) = firstFree (start + total first) second := by
  induction first generalizing start with
  | nil => rfl
  | cons tile rest ih =>
    simp only [List.cons_append,firstFree,full tile (by simp),if_true,total_cons]
    rw [ih _ (fun other member => full other (by simp [member])),Nat.add_assoc]

theorem firstFree_le (start : Nat) (before : List Tile) (extent : Nat) (after : List Tile) :
    firstFree start (before ++ ⟨extent,false⟩ :: after) ≤ start + total before := by
  induction before generalizing start with
  | nil => simp [firstFree]
  | cons tile rest ih =>
    simp only [List.cons_append,firstFree,total_cons]
    split
    · have := ih (start + tile.extent)
      omega
    · omega

theorem le_firstFree (start : Nat) (tiles : List Tile) : start ≤ firstFree start tiles := by
  induction tiles generalizing start with
  | nil => exact Nat.le_refl start
  | cons tile rest ih =>
    simp only [firstFree]
    split
    · exact Nat.le_trans (Nat.le_add_right _ _) (ih _)
    · exact Nat.le_refl start

theorem firstFree_freed (start : Nat) (before : List Tile) (extent : Nat) (after : List Tile) :
    firstFree start (before ++ ⟨extent,false⟩ :: after) =
      min (start + total before) (firstFree start (before ++ ⟨extent,true⟩ :: after)) := by
  induction before generalizing start with
  | nil =>
    have := le_firstFree (start + extent) after
    simp only [List.nil_append,firstFree,if_true,Bool.false_eq_true,if_false,total_nil]
    omega
  | cons tile before ih =>
    simp only [List.cons_append,firstFree,ih,total_cons]
    split <;> omega

/-- The full part in front of the first free block. -/
theorem firstFree_split (start : Nat) (tiles : List Tile) :
    ∃ full rest, tiles = full ++ rest ∧ (∀ tile ∈ full, tile.used = true) ∧
      firstFree start tiles = start + total full ∧ (∀ tile ∈ rest.head?, tile.used = false) := by
  induction tiles generalizing start with
  | nil => exact ⟨[],[],rfl,by simp,by simp [firstFree],by simp⟩
  | cons tile rest ih =>
    cases taken : tile.used with
    | false => exact ⟨[],tile :: rest,rfl,by simp,by simp [firstFree,taken],by simpa using taken⟩
    | true =>
      obtain ⟨full,others,rfl,all,place,next⟩ := ih (start + tile.extent)
      refine ⟨tile :: full,others,rfl,?_,?_,next⟩
      · simpa [taken] using all
      · simp only [firstFree,taken,if_true,place,total_cons,Nat.add_assoc]

/-- A free block in the first part decides; a full first part is passed over. -/
theorem firstFree_front (start : Nat) (before : List Tile) (positive : ∀ tile ∈ before, 0 < tile.extent) :
    (∀ rest, firstFree start (before ++ rest) = firstFree (start + total before) rest) ∨
      ∃ place, place < start + total before ∧ ∀ rest, firstFree start (before ++ rest) = place := by
  obtain ⟨full,others,rfl,used,_,free⟩ := firstFree_split start before
  rcases others with _ | ⟨tile,others⟩
  · rw [List.append_nil]
    exact .inl fun rest => firstFree_append start full rest used
  · have room := positive tile (by simp)
    refine .inr ⟨start + total full,?_,?_⟩
    · simp only [total_append,total_cons]
      omega
    · intro rest
      rw [List.append_assoc,firstFree_append start full _ used]
      simp [firstFree,free tile (by simp)]

theorem separated_split (before : List Tile) (extent : Nat) (after : List Tile)
    (apart : Separated (before ++ ⟨extent,false⟩ :: after)) :
    (∀ tile ∈ before.getLast?, tile.used = true) ∧ (∀ tile ∈ after.head?, tile.used = true) := by
  obtain ⟨_,right,left⟩ := List.isChain_append.mp apart
  refine ⟨fun tile last => ?_,fun tile next => ?_⟩
  · simpa using left tile last ⟨extent,false⟩ (by simp)
  · simpa using (List.isChain_cons.mp right).1 tile next

theorem Separated.left {before after : List Tile} (apart : Separated (before ++ after)) : Separated before :=
  (List.isChain_append.mp apart).1

theorem Separated.right {before after : List Tile} (apart : Separated (before ++ after)) : Separated after :=
  (List.isChain_append.mp apart).2.1

/-- A region whose blocks are all free is a single block. -/
theorem Separated.single {tiles : List Tile} (apart : Separated tiles) (free : ∀ tile ∈ tiles, tile.used = false) :
    tiles = [] ∨ tiles = [⟨total tiles,false⟩] := by
  match tiles with
  | [] => exact .inl rfl
  | [⟨extent,used⟩] =>
    obtain rfl : used = false := free ⟨extent,used⟩ (by simp)
    exact .inr rfl
  | one :: two :: rest =>
    have met := (List.isChain_cons_cons.mp apart).1
    simp [free one (by simp),free two (by simp)] at met

/-! ### Freeing a block -/

/-- The free neighbours, at most one on each side, go into the freed block. -/
structure Released (before : List Tile) (extent : Nat) (after : List Tile) where
  front : List Tile
  low : List Tile
  high : List Tile
  rest : List Tile
  left : before = front ++ low
  right : after = high ++ rest
  result : release before extent after = front ++ ⟨total low + extent + total high,false⟩ :: rest
  lowFree : ∀ tile ∈ low, tile.used = false
  highFree : ∀ tile ∈ high, tile.used = false
  lowUsed : low = [] → ∀ tile ∈ front.getLast?, tile.used = true
  highUsed : high = [] → ∀ tile ∈ rest.head?, tile.used = true

theorem joinPrev_cases (before : List Tile) (extent : Nat) :
    (∃ front less, before = front ++ [⟨less,false⟩] ∧ joinPrev before extent = front ++ [⟨less + extent,false⟩]) ∨
      (∀ tile ∈ before.getLast?, tile.used = true) ∧ joinPrev before extent = before ++ [⟨extent,false⟩] := by
  rcases List.eq_nil_or_concat' before with rfl | ⟨front,⟨less,used⟩,rfl⟩
  · exact .inr ⟨by simp,rfl⟩
  · cases used with
    | false => exact .inl ⟨front,less,rfl,by simp [joinPrev]⟩
    | true => exact .inr ⟨by simp,by simp [joinPrev]⟩

theorem joinNext_cases (extent : Nat) (after : List Tile) :
    (∃ more rest, after = ⟨more,false⟩ :: rest ∧ joinNext extent after = ⟨extent + more,false⟩ ∧ afterNext after = rest) ∨
      (∀ tile ∈ after.head?, tile.used = true) ∧ joinNext extent after = ⟨extent,false⟩ ∧ afterNext after = after := by
  rcases after with _ | ⟨⟨more,used⟩,rest⟩
  · exact .inr ⟨by simp,rfl,rfl⟩
  · cases used with
    | false => exact .inl ⟨more,rest,rfl,rfl,rfl⟩
    | true => exact .inr ⟨by simp,rfl,rfl⟩

theorem released (before : List Tile) (extent : Nat) (after : List Tile) : Nonempty (Released before extent after) := by
  rcases joinNext_cases extent after with ⟨more,rest,rfl,joined,later⟩ | ⟨next,joined,later⟩
  · rcases joinPrev_cases before (extent + more) with ⟨front,less,rfl,whole⟩ | ⟨last,whole⟩
    · exact ⟨⟨front,[⟨less,false⟩],[⟨more,false⟩],rest,rfl,rfl,by simp [release,whole,joined,later,Nat.add_assoc],
        by simp,by simp,by simp,by simp⟩⟩
    · exact ⟨⟨before,[],[⟨more,false⟩],rest,by simp,rfl,by simp [release,whole,joined,later],by simp,by simp,
        fun _ => last,by simp⟩⟩
  · rcases joinPrev_cases before extent with ⟨front,less,rfl,whole⟩ | ⟨last,whole⟩
    · exact ⟨⟨front,[⟨less,false⟩],[],after,rfl,rfl,by simp [release,whole,joined,later],by simp,by simp,by simp,
        fun _ => next⟩⟩
    · exact ⟨⟨before,[],[],after,by simp,rfl,by simp [release,whole,joined,later],by simp,by simp,fun _ => last,
        fun _ => next⟩⟩

theorem occupied_free (tiles : List Tile) (free : ∀ tile ∈ tiles, tile.used = false) : occupied tiles = 0 := by
  induction tiles with
  | nil => rfl
  | cons tile rest ih =>
    simp only [occupied,free tile (by simp),Bool.false_eq_true,if_false,Nat.zero_add]
    exact ih (fun other member => free other (by simp [member]))

theorem spans_free (start : Nat) (tiles : List Tile) (free : ∀ tile ∈ tiles, tile.used = false) :
    spans start tiles = [] := by
  induction tiles generalizing start with
  | nil => rfl
  | cons tile rest ih =>
    simp only [spans,free tile (by simp),Bool.false_eq_true,if_false]
    exact ih _ (fun other member => free other (by simp [member]))

theorem occupied_release (before : List Tile) (extent : Nat) (after : List Tile) :
    occupied (release before extent after) = occupied before + occupied after := by
  obtain ⟨⟨front,low,high,rest,rfl,rfl,result,lowFree,highFree,_,_⟩⟩ := released before extent after
  rw [result]
  simp [occupied,occupied_free low lowFree,occupied_free high highFree]

theorem spans_release (start : Nat) (before : List Tile) (extent : Nat) (after : List Tile) :
    spans start (release before extent after) = spans start before ++ spans (start + total before + extent) after := by
  obtain ⟨⟨front,low,high,rest,rfl,rfl,result,lowFree,highFree,_,_⟩⟩ := released before extent after
  have places : start + total front + (total low + extent + total high) = start + (total front + total low) + extent + total high := by
    omega
  rw [result]
  simp only [spans_append,spans,Bool.false_eq_true,if_false,spans_free _ low lowFree,spans_free _ high highFree,
    total_append,places,List.append_nil,List.nil_append]

theorem firstFree_free (start : Nat) (before low : List Tile) (rest others : List Tile)
    (free : ∀ tile ∈ low, tile.used = false) (extent more : Nat) :
    firstFree start (before ++ ⟨more,false⟩ :: rest) =
      firstFree start (before ++ (low ++ ⟨extent,false⟩ :: others)) := by
  induction before generalizing start with
  | nil =>
    rcases low with _ | ⟨tile,low⟩
    · simp [firstFree]
    · simp [firstFree,free tile (by simp)]
  | cons tile before ih => simp only [List.cons_append,firstFree,ih]

theorem mem_release {before after : List Tile} {extent : Nat} {tile : Tile} (member : tile ∈ release before extent after) :
    tile ∈ before ∨ tile ∈ after ∨
      ∃ low high, (∀ part ∈ low, part ∈ before) ∧ (∀ part ∈ high, part ∈ after) ∧ tile = ⟨total low + extent + total high,false⟩ := by
  obtain ⟨⟨front,low,high,rest,rfl,rfl,result,_,_,_,_⟩⟩ := released before extent after
  rw [result] at member
  rcases List.mem_append.mp member with early | late
  · exact .inl (List.mem_append_left _ early)
  · rcases List.mem_cons.mp late with rfl | later
    · refine .inr (.inr ⟨low,high,fun part inside => ?_,fun part inside => ?_,rfl⟩)
      · exact List.mem_append_right _ inside
      · exact List.mem_append_left _ inside
    · exact .inr (.inl (List.mem_append_right _ later))

theorem Separated.release {before after : List Tile} (leftApart : Separated before) (rightApart : Separated after)
    (extent : Nat) : Separated (Tiling.release before extent after) := by
  obtain ⟨⟨front,low,high,rest,rfl,rfl,result,lowFree,highFree,lowUsed,highUsed⟩⟩ := released before extent after
  have last : ∀ tile ∈ front.getLast?, tile.used = true := by
    rcases low with _ | ⟨tile,low⟩
    · exact lowUsed rfl
    · obtain ⟨more,used⟩ := tile
      obtain rfl : used = false := lowFree ⟨more,used⟩ (by simp)
      exact (separated_split front more low leftApart).1
  have next : ∀ tile ∈ rest.head?, tile.used = true := by
    rcases List.eq_nil_or_concat' high with rfl | ⟨high,⟨more,used⟩,rfl⟩
    · exact highUsed rfl
    · obtain rfl : used = false := highFree ⟨more,used⟩ (by simp)
      rw [List.append_assoc] at rightApart
      exact (separated_split high more rest rightApart).2
  rw [result]
  refine List.isChain_append.mpr ⟨leftApart.left,List.isChain_cons.mpr ⟨?_,rightApart.right⟩,?_⟩
  · intro tile member
    exact .inr (next tile member)
  · intro tile member _ _
    exact .inl (last tile member)

end Swip.Library.Tiling

import Swip.Core.Mem
import Swip.Library.Tiling

/-! The heap as a list of blocks: the links of the `struct mem`s tile the heap, and each
function of `mem.c` does to the tiles what it is meant to. -/
namespace Swip.Core
open Library.Tiling Device

theorem sizes : memSizeAligned = 512 ∧ sizeofStructMem = 8 ∧ minSizeAligned = 12 ∧ memAlignment = 4 := by decide

/-- The structs from `ptr` on are those of the blocks, the first of them behind `prev`. -/
def Laid (mem : Nat → Mem) : Nat → Nat → List Tile → Prop
  | _, _, [] => True
  | prev, ptr, tile :: rest =>
    mem ptr = ⟨ptr + tile.extent,prev,tile.used⟩ ∧ Laid mem ptr (ptr + tile.extent) rest

def lastOf : Nat → Nat → List Tile → Nat
  | prev, _, [] => prev
  | _, ptr, tile :: rest => lastOf ptr (ptr + tile.extent) rest

theorem laid_append (mem : Nat → Mem) (prev ptr : Nat) (first second : List Tile) :
    Laid mem prev ptr (first ++ second) ↔
      Laid mem prev ptr first ∧ Laid mem (lastOf prev ptr first) (ptr + total first) second := by
  induction first generalizing prev ptr with
  | nil => simp [Laid,lastOf]
  | cons tile rest ih => simp only [List.cons_append,Laid,lastOf,ih,total_cons,Nat.add_assoc,and_assoc]

theorem Laid.here {mem : Nat → Mem} {before after : List Tile} {tile : Tile} (laid : Laid mem 0 0 (before ++ tile :: after)) :
    mem (total before) = ⟨total before + tile.extent,lastOf 0 0 before,tile.used⟩ := by
  have := ((laid_append _ _ _ _ _).mp laid).2.1
  rwa [Nat.zero_add] at this

theorem Laid.next {mem : Nat → Mem} {before after : List Tile} {tile next : Tile}
    (laid : Laid mem 0 0 (before ++ tile :: next :: after)) :
    mem (total before + tile.extent) = ⟨total before + tile.extent + next.extent,total before,next.used⟩ := by
  have := ((laid_append _ _ _ _ _).mp laid).2.2.1
  rwa [Nat.zero_add] at this

theorem lastOf_append (prev ptr : Nat) (first : List Tile) (tile : Tile) :
    lastOf prev ptr (first ++ [tile]) = ptr + total first := by
  induction first generalizing prev ptr with
  | nil => simp [lastOf]
  | cons head rest ih => simp only [List.cons_append,lastOf,ih,total_cons,Nat.add_assoc]

theorem laid_congr {mem other : Nat → Mem} {prev ptr : Nat} {tiles : List Tile} (laid : Laid mem prev ptr tiles)
    (positive : ∀ tile ∈ tiles, 0 < tile.extent)
    (agree : ∀ i, ptr ≤ i → i < ptr + total tiles → other i = mem i) : Laid other prev ptr tiles := by
  induction tiles generalizing prev ptr with
  | nil => trivial
  | cons tile rest ih =>
    have room := positive tile (by simp)
    simp only [total_cons] at agree
    refine ⟨(agree ptr (Nat.le_refl _) (by omega)).trans laid.1,ih laid.2 ?_ ?_⟩
    · intro other member
      exact positive other (by simp [member])
    · intro i low high
      exact agree i (by omega) (by omega)

/-- Some blocks in the middle are laid anew, and the struct behind them learns where the last
of them is. -/
theorem laid_splice {mem other : Nat → Mem} (before middle changed after : List Tile)
    (laid : Laid mem 0 0 (before ++ (middle ++ after)))
    (positive : ∀ tile ∈ before ++ (middle ++ after), 0 < tile.extent) (same : total changed = total middle)
    (low : ∀ i, i < total before → other i = mem i) (high : ∀ i, total before + total middle < i → other i = mem i)
    (joint : after ≠ [] → other (total before + total middle) =
      {mem (total before + total middle) with prev := lastOf (lastOf 0 0 before) (total before) changed})
    (inside : Laid other (lastOf 0 0 before) (total before) changed) : Laid other 0 0 (before ++ (changed ++ after)) := by
  rw [laid_append,laid_append,Nat.zero_add] at laid
  obtain ⟨front,_,back⟩ := laid
  rw [laid_append,laid_append,Nat.zero_add,same]
  refine ⟨laid_congr front ?_ ?_,inside,?_⟩
  · intro tile member
    exact positive tile (by simp [member])
  · intro i _ early
    exact low i (by omega)
  · rcases after with _ | ⟨tile,rest⟩
    · trivial
    · have room := positive tile (by simp)
      refine ⟨?_,laid_congr back.2 ?_ ?_⟩
      · rw [joint (by simp),back.1]
      · intro other member
        exact positive other (by simp [member])
      · intro i late _
        exact high i (by omega)

/-- Room for the struct and the smallest data, aligned. -/
def Sound (tile : Tile) : Prop := sizeofStructMem + minSizeAligned ≤ tile.extent ∧ tile.extent % memAlignment = 0

theorem Sound.positive {tiles : List Tile} (sound : ∀ tile ∈ tiles, Sound tile) : ∀ tile ∈ tiles, 0 < tile.extent := by
  intro tile member
  have := (sound tile member).1
  have := sizes
  omega

theorem Sound.total {tiles : List Tile} (sound : ∀ tile ∈ tiles, Sound tile) :
    total tiles % memAlignment = 0 := by
  induction tiles with
  | nil => rfl
  | cons tile rest ih =>
    have head := (sound tile (by simp)).2
    have tail := ih (fun other member => sound other (by simp [member]))
    rw [total_cons]
    change _ % 4 = 0 at head tail ⊢
    omega

/-- The heap as the functions leave it: every block is found from the one before it and, but
for the struct at the end, from the one behind it. -/
structure Represents (ram : Ram) (tiles : List Tile) : Prop where
  laid : Laid ram.mem 0 0 tiles
  whole : total tiles = memSizeAligned
  sound : ∀ tile ∈ tiles, Sound tile
  apart : Separated tiles
  lowest : ram.lfree = firstFree 0 tiles
  ended : (ram.mem memSizeAligned).used = true
  counted : ram.statsUsed = occupied tiles

@[simp] theorem put_self (ram : Ram) (ptr : Nat) (mem : Mem) : (ram.put ptr mem).mem ptr = mem :=
  Function.update_self _ _ _

theorem put_other (ram : Ram) (ptr i : Nat) (mem : Mem) (different : i ≠ ptr) : (ram.put ptr mem).mem i = ram.mem i :=
  Function.update_of_ne different _ _

@[simp] theorem put_lfree (ram : Ram) (ptr : Nat) (mem : Mem) : (ram.put ptr mem).lfree = ram.lfree := rfl

@[simp] theorem put_statsUsed (ram : Ram) (ptr : Nat) (mem : Mem) : (ram.put ptr mem).statsUsed = ram.statsUsed := rfl

theorem memInit_represents (before : Nat → Mem) : Represents (memInit before) [⟨memSizeAligned,false⟩] where
  laid := by simp [Laid,memInit,put_other _ _ _ _ (show 0 ≠ memSizeAligned by decide)]
  whole := rfl
  sound := by simpa [Sound] using by decide
  apart := List.isChain_singleton _
  lowest := rfl
  ended := by simp [memInit]
  counted := rfl

/-! ### Freeing -/

theorem link_mem (ram : Ram) (ptr next : Nat) (different : ptr ≠ next) :
    (ram.link ptr next).mem ptr = {ram.mem ptr with next := next} ∧
      (ram.link ptr next).mem next = {ram.mem next with prev := ptr} ∧
      ∀ i, i ≠ ptr → i ≠ next → (ram.link ptr next).mem i = ram.mem i := by
  refine ⟨?_,?_,?_⟩
  · rw [Ram.link,Ram.setPrev,put_other _ _ _ _ different,Ram.setNext,put_self]
  · rw [Ram.link,Ram.setPrev,put_self,Ram.setNext,put_other _ _ _ _ different.symm]
  · intro i one two
    rw [Ram.link,Ram.setPrev,put_other _ _ _ _ two,Ram.setNext,put_other _ _ _ _ one]

theorem setNext_used (ram : Ram) (ptr next i : Nat) : ((ram.setNext ptr next).mem i).used = (ram.mem i).used := by
  by_cases here : i = ptr
  · subst here
    rw [Ram.setNext,put_self]
  · rw [Ram.setNext,put_other _ _ _ _ here]

theorem setPrev_used (ram : Ram) (ptr prev i : Nat) : ((ram.setPrev ptr prev).mem i).used = (ram.mem i).used := by
  by_cases here : i = ptr
  · subst here
    rw [Ram.setPrev,put_self]
  · rw [Ram.setPrev,put_other _ _ _ _ here]

theorem link_used (ram : Ram) (ptr next i : Nat) : ((ram.link ptr next).mem i).used = (ram.mem i).used := by
  rw [Ram.link,setPrev_used,setNext_used]

/-- Two neighbouring free blocks become one. -/
theorem link_laid {ram : Ram} {before after : List Tile} {extent more : Nat} {used : Bool}
    (laid : Laid ram.mem 0 0 (before ++ (⟨extent,used⟩ :: ⟨more,false⟩ :: after)))
    (positive : ∀ tile ∈ before ++ (⟨extent,used⟩ :: ⟨more,false⟩ :: after), 0 < tile.extent) :
    Laid (ram.link (total before) (total before + extent + more)).mem 0 0 (before ++ (⟨extent + more,used⟩ :: after)) := by
  have room : 0 < extent := positive ⟨extent,used⟩ (by simp)
  obtain ⟨here,behind,others⟩ := link_mem ram (total before) (total before + extent + more) (by omega)
  have old := laid.here
  refine laid_splice before [⟨extent,used⟩,⟨more,false⟩] [⟨extent + more,used⟩] after (by simpa using laid)
    (by simpa using positive) (by simp) ?_ ?_ ?_ ?_
  · intro i low
    exact others i (by omega) (by omega)
  · intro i high
    simp only [total_cons,total_nil] at high
    exact others i (by omega) (by omega)
  · intro _
    simpa [lastOf,Nat.add_assoc] using behind
  · refine ⟨?_,trivial⟩
    rw [here,old]
    simp [Nat.add_assoc]

/-- What the two halves of `plug_holes` need and keep, while free blocks may still meet. -/
structure Holding (ram : Ram) (tiles : List Tile) : Prop where
  laid : Laid ram.mem 0 0 tiles
  whole : total tiles = memSizeAligned
  positive : ∀ tile ∈ tiles, 0 < tile.extent
  lowest : ram.lfree = firstFree 0 tiles
  ended : (ram.mem memSizeAligned).used = true

theorem plugForward_holding {ram : Ram} {before after : List Tile} {extent : Nat}
    (holding : Holding ram (before ++ ⟨extent,false⟩ :: after)) :
    Holding (plugForward ram (total before)) (before ++ joinNext extent after :: afterNext after) ∧
      (plugForward ram (total before)).statsUsed = ram.statsUsed := by
  have room : 0 < extent := holding.positive ⟨extent,false⟩ (by simp)
  have low : ram.lfree ≤ total before := by
    rw [holding.lowest]
    simpa using firstFree_le 0 before extent after
  have here := holding.laid.here
  unfold plugForward
  simp only [here]
  rcases joinNext_cases extent after with ⟨more,rest,rfl,joined,later⟩ | ⟨next,joined,later⟩
  · have behind := holding.laid.next
    have inner : total before + extent ≠ memSizeAligned := by
      have := holding.whole
      have := holding.positive ⟨more,false⟩ (by simp)
      simp only [total_append,total_cons] at *
      omega
    have other : ram.lfree ≠ total before + extent := by omega
    rw [joined,later]
    simp only [behind,inner,other,if_false,ne_eq,not_false_eq_true,and_true,Nat.left_eq_add,
      Nat.ne_of_gt room,if_true]
    refine ⟨⟨link_laid holding.laid holding.positive,?_,?_,?_,?_⟩,rfl⟩
    · rw [← holding.whole]
      simp [Nat.add_assoc]
    · intro tile member
      simp only [List.mem_append,List.mem_cons] at member
      rcases member with early | rfl | late
      · exact holding.positive tile (by simp [early])
      · exact Nat.lt_of_lt_of_le room (Nat.le_add_right _ _)
      · exact holding.positive tile (by simp [late])
    · rw [holding.lowest]
      exact (firstFree_free 0 before [] rest (⟨more,false⟩ :: rest) (by simp) extent (extent + more)).symm
    · rw [link_used]
      exact holding.ended
  · rw [joined,later,if_neg]
    · exact ⟨holding,rfl⟩
    · rintro ⟨_,free,inner⟩
      rcases after with _ | ⟨tile,rest⟩
      · apply inner
        rw [← holding.whole]
        simp
      · have behind := holding.laid.next
        rw [behind] at free
        simp [next tile (by simp)] at free

theorem plugBackward_holding {ram : Ram} {before after : List Tile} {extent : Nat}
    (holding : Holding ram (before ++ ⟨extent,false⟩ :: after)) :
    Holding (plugBackward ram (total before)) (joinPrev before extent ++ after) ∧
      (plugBackward ram (total before)).statsUsed = ram.statsUsed := by
  have here := holding.laid.here
  unfold plugBackward
  simp only [here]
  rcases joinPrev_cases before extent with ⟨front,less,rfl,whole⟩ | ⟨last,whole⟩
  · have room : 0 < less := holding.positive ⟨less,false⟩ (by simp)
    have split : (front ++ [⟨less,false⟩]) ++ ⟨extent,false⟩ :: after = front ++ ⟨less,false⟩ :: ⟨extent,false⟩ :: after := by
      simp
    rw [split] at holding
    have low : ram.lfree ≤ total front := by
      rw [holding.lowest]
      simpa using firstFree_le 0 front less (⟨extent,false⟩ :: after)
    have prev : lastOf 0 0 (front ++ [⟨less,false⟩]) = total front := by rw [lastOf_append,Nat.zero_add]
    have place : total (front ++ [⟨less,false⟩]) = total front + less := by simp
    have other : ram.lfree ≠ total front + less := by omega
    have before := holding.laid.here
    rw [whole,prev,place]
    simp only [before,other,if_false,ne_eq,Nat.left_eq_add,Nat.ne_of_gt room,not_false_eq_true,and_true,if_true]
    rw [List.append_assoc]
    refine ⟨⟨link_laid holding.laid holding.positive,?_,?_,?_,?_⟩,rfl⟩
    · rw [← holding.whole]
      simp [Nat.add_assoc]
    · intro tile member
      simp only [List.mem_append,List.mem_cons,List.not_mem_nil,or_false] at member
      rcases member with early | rfl | late
      · exact holding.positive tile (by simp [early])
      · exact Nat.lt_of_lt_of_le room (Nat.le_add_right _ _)
      · exact holding.positive tile (by simp [late])
    · rw [holding.lowest]
      exact (firstFree_free 0 front [] after (⟨extent,false⟩ :: after) (by simp) less (less + extent)).symm
    · rw [link_used]
      exact holding.ended
  · rw [whole,if_neg]
    · simpa using holding
    · rintro ⟨inner,free⟩
      rcases List.eq_nil_or_concat' before with rfl | ⟨front,⟨less,used⟩,rfl⟩
      · exact inner rfl
      · obtain rfl : used = true := last ⟨less,used⟩ (by simp)
        rw [lastOf_append,Nat.zero_add] at free
        rw [List.append_assoc] at holding
        have before := holding.laid.here
        rw [before] at free
        simp at free

theorem Represents.holding {ram : Ram} {tiles : List Tile} (rep : Represents ram tiles) : Holding ram tiles :=
  ⟨rep.laid,rep.whole,Sound.positive rep.sound,rep.lowest,rep.ended⟩

/-- A block is marked; the structs around it stay as they are. -/
theorem setUsed_laid {ram : Ram} {before after : List Tile} {extent : Nat} {used : Bool} (now : Bool)
    (laid : Laid ram.mem 0 0 (before ++ ⟨extent,used⟩ :: after))
    (positive : ∀ tile ∈ before ++ ⟨extent,used⟩ :: after, 0 < tile.extent) :
    Laid (ram.setUsed (total before) now).mem 0 0 (before ++ ⟨extent,now⟩ :: after) := by
  have room : 0 < extent := positive ⟨extent,used⟩ (by simp)
  refine laid_splice before [⟨extent,used⟩] [⟨extent,now⟩] after laid positive rfl ?_ ?_ ?_ ?_
  · intro i low
    exact put_other _ _ _ _ (by omega)
  · intro i high
    simp only [total_cons,total_nil] at high
    exact put_other _ _ _ _ (by omega)
  · intro more
    obtain ⟨tile,rest,rfl⟩ := List.exists_cons_of_ne_nil more
    have next := laid.next
    rw [Ram.setUsed,put_other _ _ _ _ (by simp; omega)]
    simp [next,lastOf]
  · refine ⟨?_,trivial⟩
    rw [Ram.setUsed,put_self,laid.here]

theorem setUsed_ended {ram : Ram} {ptr : Nat} {used : Bool} (inner : ptr < memSizeAligned)
    (ended : (ram.mem memSizeAligned).used = true) : ((ram.setUsed ptr used).mem memSizeAligned).used = true := by
  rw [Ram.setUsed,put_other _ _ _ _ (by omega)]
  exact ended

theorem vacate_holding {ram : Ram} {before after : List Tile} {extent : Nat}
    (holding : Holding ram (before ++ ⟨extent,true⟩ :: after)) :
    Holding (ram.vacate (total before)) (before ++ ⟨extent,false⟩ :: after) := by
  have whole := holding.whole
  simp only [total_append,total_cons] at whole
  have room : 0 < extent := holding.positive ⟨extent,true⟩ (by simp)
  refine ⟨setUsed_laid false holding.laid holding.positive,?_,?_,?_,setUsed_ended (by omega) holding.ended⟩
  · simpa using whole
  · intro tile member
    rcases List.mem_append.mp member with early | late
    · exact holding.positive tile (by simp [early])
    · rcases List.mem_cons.mp late with rfl | late
      · exact room
      · exact holding.positive tile (by simp [late])
  · rw [firstFree_freed,← holding.lowest,Nat.zero_add]
    simp only [Ram.vacate]
    split
    · exact (Nat.min_eq_left (by omega)).symm
    · exact (Nat.min_eq_right (by omega)).symm

theorem release_sound {before after : List Tile} {extent : Nat}
    (sound : ∀ tile ∈ before ++ ⟨extent,true⟩ :: after, Sound tile) : ∀ tile ∈ release before extent after, Sound tile := by
  intro tile member
  rcases mem_release member with early | late | ⟨low,high,lowSound,highSound,rfl⟩
  · exact sound tile (by simp [early])
  · exact sound tile (by simp [late])
  · obtain ⟨least,even⟩ : sizeofStructMem + minSizeAligned ≤ extent ∧ extent % 4 = 0 := sound ⟨extent,true⟩ (by simp)
    have one : total low % 4 = 0 := Sound.total fun part inside => sound part (by simp [lowSound part inside])
    have two : total high % 4 = 0 := Sound.total fun part inside => sound part (by simp [highSound part inside])
    refine ⟨Nat.le_trans least ?_,?_⟩
    · change extent ≤ total low + extent + total high
      omega
    · change (total low + extent + total high) % 4 = 0
      omega

theorem memFree_represents {ram : Ram} {before after : List Tile} {extent : Nat}
    (rep : Represents ram (before ++ ⟨extent,true⟩ :: after)) :
    ∃ freed, memFree ram (some (total before + sizeofStructMem)) = some freed ∧
      Represents freed (release before extent after) := by
  have holding := rep.holding
  obtain ⟨least,_⟩ : sizeofStructMem + minSizeAligned ≤ extent ∧ _ := rep.sound ⟨extent,true⟩ (by simp)
  have aligned : total before % 4 = 0 := Sound.total fun tile member => rep.sound tile (by simp [member])
  have whole := rep.whole
  simp only [total_append,total_cons] at whole
  have small := sizes
  have here := holding.laid.here
  have vacated : (ram.vacate (total before)).mem (total before) = ⟨total before + extent,lastOf 0 0 before,false⟩ :=
    (vacate_holding holding).laid.here
  obtain ⟨forward,sameForward⟩ := plugForward_holding (vacate_holding holding)
  have joined : joinNext extent after = ⟨(joinNext extent after).extent,false⟩ := by
    rcases joinNext_cases extent after with ⟨_,_,_,joined,_⟩ | ⟨_,joined,_⟩ <;> rw [joined]
  rw [joined] at forward
  obtain ⟨backward,sameBackward⟩ := plugBackward_holding forward
  refine ⟨_,?_,⟨backward.laid,backward.whole,release_sound rep.sound,?_,backward.lowest,backward.ended,?_⟩⟩
  · have legal : (total before + sizeofStructMem) % memAlignment = 0 ∧ sizeofStructMem ≤ total before + sizeofStructMem ∧
        total before + sizeofStructMem < memSizeAligned ∧ (ram.mem (total before)).used = true := by
      refine ⟨?_,Nat.le_add_left _ _,by omega,by rw [here]⟩
      change _ % 4 = 0
      omega
    simp only [memFree,Nat.add_sub_cancel,legal,and_self,if_true]
    exact if_pos ⟨by omega,by rw [vacated],by rw [vacated]; simp only; omega⟩
  · exact Separated.release rep.apart.left (List.isChain_cons.mp rep.apart.right).2 extent
  · rw [sameBackward,sameForward,occupied_release]
    simp only [Ram.vacate,here,rep.counted,occupied_append,occupied,if_true]
    omega

/-! ### A second struct inside a block -/

theorem insertFree_mem (ram : Ram) (ptr ptr2 next : Nat) (low : ptr < ptr2) (high : ptr2 < next) :
    (ram.insertFree ptr ptr2 next).mem ptr = {ram.mem ptr with next := ptr2} ∧
      (ram.insertFree ptr ptr2 next).mem ptr2 = ⟨next,ptr,false⟩ ∧
      (next ≠ memSizeAligned → (ram.insertFree ptr ptr2 next).mem next = {ram.mem next with prev := ptr2}) ∧
      ∀ i, i ≠ ptr → i ≠ ptr2 → i ≠ next → (ram.insertFree ptr ptr2 next).mem i = ram.mem i := by
  have inner : ∀ i, i ≠ ptr → i ≠ ptr2 → ((ram.put ptr2 ⟨next,ptr,false⟩).setNext ptr ptr2).mem i = ram.mem i := by
    intro i one two
    rw [Ram.setNext,put_other _ _ _ _ one,put_other _ _ _ _ two]
  have first : ((ram.put ptr2 ⟨next,ptr,false⟩).setNext ptr ptr2).mem ptr = {ram.mem ptr with next := ptr2} := by
    rw [Ram.setNext,put_self,put_other _ _ _ _ (by omega)]
  have second : ((ram.put ptr2 ⟨next,ptr,false⟩).setNext ptr ptr2).mem ptr2 = ⟨next,ptr,false⟩ := by
    rw [Ram.setNext,put_other _ _ _ _ (by omega),put_self]
  unfold Ram.insertFree
  by_cases last : next = memSizeAligned
  · simp only [last,ne_eq,not_true_eq_false,if_false,false_implies,true_and]
    rw [← last]
    exact ⟨first,second,fun i one two _ => inner i one two⟩
  · simp only [last,ne_eq,not_false_eq_true,if_true,true_implies]
    refine ⟨?_,?_,?_,?_⟩
    · rw [Ram.setPrev,put_other _ _ _ _ (by omega),first]
    · rw [Ram.setPrev,put_other _ _ _ _ (by omega),second]
    · rw [Ram.setPrev,put_self,inner next (by omega) (by omega)]
    · intro i one two three
      rw [Ram.setPrev,put_other _ _ _ _ three,inner i one two]

theorem insertFree_ended {ram : Ram} {ptr ptr2 next : Nat} (high : ptr2 < next)
    (inside : next ≤ memSizeAligned) (ended : (ram.mem memSizeAligned).used = true) :
    ((ram.insertFree ptr ptr2 next).mem memSizeAligned).used = true := by
  rw [Ram.insertFree]
  split
  · rw [setPrev_used,setNext_used,put_other _ _ _ _ (by omega),ended]
  · rw [setNext_used,put_other _ _ _ _ (by omega),ended]

theorem insertFree_laid {ram : Ram} {before others after : List Tile} {extent : Nat} {used : Bool} (kept : Nat)
    (holding : Holding ram (before ++ (⟨extent,used⟩ :: others ++ after))) (low : 0 < kept)
    (high : kept < extent + total others) :
    Laid (ram.insertFree (total before) (total before + kept) (total before + (extent + total others))).mem 0 0
      (before ++ (⟨kept,used⟩ :: ⟨extent + total others - kept,false⟩ :: after)) := by
  obtain ⟨first,second,behind,rest⟩ := insertFree_mem ram (total before) (total before + kept)
    (total before + (extent + total others)) (by omega) (by omega)
  have here := ((laid_append _ _ _ _ _).mp holding.laid).2.1
  rw [Nat.zero_add] at here
  refine laid_splice before (⟨extent,used⟩ :: others) [⟨kept,used⟩,⟨extent + total others - kept,false⟩] after holding.laid
    holding.positive ?_ ?_ ?_ ?_ ?_
  · simp only [total_cons,total_nil]
    omega
  · intro i small
    exact rest i (by omega) (by omega) (by omega)
  · intro i large
    simp only [total_cons] at large
    exact rest i (by omega) (by omega) (by omega)
  · intro more
    obtain ⟨tile,later,rfl⟩ := List.exists_cons_of_ne_nil more
    have room := holding.positive tile (by simp)
    have whole := holding.whole
    simp only [List.cons_append,total_append,total_cons] at whole
    exact behind (by omega)
  · refine ⟨?_,?_,trivial⟩
    · rw [first,here]
    · rw [second]
      simp only [Mem.mk.injEq,and_true]
      omega

end Swip.Core

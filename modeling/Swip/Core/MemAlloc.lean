import Swip.Core.MemLayout

/-! `mem_malloc` and `mem_trim` on the tiles. The scan begins at the lowest free block and
nevertheless finds the first block that fits. -/
namespace Swip.Core
open Library.Tiling Device

/-- A free block that can hold `size` bytes of data. -/
def Fits (size : Nat) (tile : Tile) : Prop := tile.used = false ∧ size + sizeofStructMem ≤ tile.extent

instance (size : Nat) (tile : Tile) : Decidable (Fits size tile) := inferInstanceAs (Decidable (_ ∧ _))

theorem requested_bounds (size : Nat) : minSizeAligned ≤ requested size ∧ requested size % 4 = 0 := by
  refine ⟨Nat.le_max_right _ _,?_⟩
  have aligned : lwipMemAlignSize size % 65536 % 4 = 0 := by
    change (size + 4 - 1) / 4 * 4 % 65536 % 4 = 0
    omega
  have least : minSizeAligned % 4 = 0 := by decide
  rw [requested,Nat.max_def]
  split <;> assumption

/-- Up to 65532 a request is never shortened. -/
theorem requested_le (size : Nat) (small : size ≤ 65532) : size ≤ requested size := by
  refine Nat.le_trans ?_ (Nat.le_max_left _ _)
  change size ≤ (size + 4 - 1) / 4 * 4 % 65536
  omega

theorem length_le_total (tiles : List Tile) (positive : ∀ tile ∈ tiles, 0 < tile.extent) :
    tiles.length ≤ total tiles := by
  induction tiles with
  | nil => exact Nat.le_refl 0
  | cons tile rest ih =>
    have room := positive tile (by simp)
    have more := ih (fun other member => positive other (by simp [member]))
    simp only [List.length_cons,total_cons]
    omega

theorem extent_le_total {tiles : List Tile} {tile : Tile} (member : tile ∈ tiles) : tile.extent ≤ total tiles := by
  obtain ⟨before,after,rfl⟩ := List.append_of_mem member
  simp only [total_append,total_cons]
  omega

/-! ### Walking the structs -/

theorem lowestFree_laid {ram : Ram} {prev ptr : Nat} {tiles : List Tile} (fuel : Nat)
    (laid : Laid ram.mem prev ptr tiles) (whole : ptr + total tiles = memSizeAligned)
    (positive : ∀ tile ∈ tiles, 0 < tile.extent) (enough : tiles.length < fuel) :
    lowestFree ram fuel ptr = some (firstFree ptr tiles) := by
  induction tiles generalizing prev ptr fuel with
  | nil =>
    obtain ⟨fuel,rfl⟩ := Nat.exists_eq_succ_of_ne_zero (Nat.ne_of_gt enough)
    obtain rfl : ptr = memSizeAligned := whole
    simp [lowestFree,firstFree]
  | cons tile rest ih =>
    obtain ⟨fuel,rfl⟩ := Nat.exists_eq_succ_of_ne_zero (Nat.ne_of_gt (Nat.zero_lt_of_lt enough))
    have room := positive tile (by simp)
    simp only [total_cons] at whole
    have inner : ptr ≠ memSizeAligned := by omega
    simp only [lowestFree,laid.1,firstFree,inner,ne_eq,not_false_eq_true,and_true]
    split
    · exact ih fuel laid.2 (by omega) (fun other member => positive other (by simp [member]))
        (by simpa using enough)
    · rfl

/-- The scan stops at the first block that fits, and gives up only when none does. -/
theorem scan_laid {ram : Ram} {prev ptr : Nat} {tiles : List Tile} (size fuel : Nat) (wanted : 0 < size)
    (laid : Laid ram.mem prev ptr tiles) (whole : ptr + total tiles = memSizeAligned)
    (positive : ∀ tile ∈ tiles, 0 < tile.extent) (enough : tiles.length < fuel) :
    (scan ram size fuel ptr = some none ∧ ∀ tile ∈ tiles, ¬ Fits size tile) ∨
      ∃ before extent after, tiles = before ++ ⟨extent,false⟩ :: after ∧ (∀ tile ∈ before, ¬ Fits size tile) ∧
        size + sizeofStructMem ≤ extent ∧ scan ram size fuel ptr = some (some (ptr + total before)) := by
  induction tiles generalizing prev ptr fuel with
  | nil =>
    obtain ⟨fuel,rfl⟩ := Nat.exists_eq_succ_of_ne_zero (Nat.ne_of_gt enough)
    have : ¬ ptr < memSizeAligned - size := by
      simp only [total_nil] at whole
      omega
    exact .inl ⟨by simp [scan,this],by simp⟩
  | cons tile rest ih =>
    obtain ⟨fuel,rfl⟩ := Nat.exists_eq_succ_of_ne_zero (Nat.ne_of_gt (Nat.zero_lt_of_lt enough))
    have struct := sizes
    have sum : ptr + (tile.extent + total rest) = memSizeAligned := whole
    by_cases near : ptr < memSizeAligned - size
    · by_cases fits : Fits size tile
      · obtain ⟨extent,used⟩ := tile
        obtain ⟨rfl,big⟩ : used = false ∧ size + sizeofStructMem ≤ extent := fits
        refine .inr ⟨[],extent,rest,rfl,by simp,big,?_⟩
        simp only [scan,near,if_true,laid.1,true_and,total_nil,Nat.add_zero]
        exact if_pos (by omega)
      · have skipped : scan ram size (fuel + 1) ptr = scan ram size fuel (ptr + tile.extent) := by
          simp only [scan,near,if_true,laid.1]
          apply if_neg
          rintro ⟨free,big⟩
          have room := positive tile (by simp)
          exact fits ⟨free,by omega⟩
        rw [skipped]
        rcases ih fuel laid.2 (by omega) (fun other member => positive other (by simp [member])) (by simpa using enough)
          with ⟨failed,none⟩ | ⟨before,extent,after,rfl,none,big,found⟩
        · exact .inl ⟨failed,by simpa [fits] using none⟩
        · refine .inr ⟨tile :: before,extent,after,rfl,by simpa [fits] using none,big,?_⟩
          rw [found,total_cons,Nat.add_assoc]
    · refine .inl ⟨by simp [scan,near],?_⟩
      intro other member fits
      have short := extent_le_total member
      have := fits.2
      simp only [total_cons] at short
      omega

/-! ### Taking a block -/

def carve (extent size : Nat) : List Tile :=
  if size + sizeofStructMem + minSizeAligned ≤ extent - sizeofStructMem then
    [⟨sizeofStructMem + size,true⟩,⟨extent - (sizeofStructMem + size),false⟩]
  else [⟨extent,true⟩]

theorem total_carve (extent size : Nat) : total (carve extent size) = extent := by
  rw [carve]
  split
  · simp only [total_cons,total_nil]
    omega
  · rfl

theorem carve_positive {extent size : Nat} (big : size + sizeofStructMem ≤ extent) :
    ∀ tile ∈ carve extent size, 0 < tile.extent := by
  have struct := sizes
  intro tile member
  rw [carve] at member
  split at member
  · rcases List.mem_cons.mp member with rfl | last
    · simp only; omega
    · obtain rfl := List.mem_singleton.mp last
      simp only; omega
  · obtain rfl := List.mem_singleton.mp member
    simp only; omega

theorem carve_sound {extent size : Nat} (sound : Sound ⟨extent,false⟩) (least : minSizeAligned ≤ size)
    (even : size % 4 = 0) : ∀ tile ∈ carve extent size, Sound tile := by
  have struct := sizes
  obtain ⟨big,aligned⟩ : sizeofStructMem + minSizeAligned ≤ extent ∧ extent % 4 = 0 := sound
  intro tile member
  rw [carve] at member
  split at member
  · rcases List.mem_cons.mp member with rfl | last
    · exact ⟨by simp only; omega,by change (sizeofStructMem + size) % 4 = 0; omega⟩
    · obtain rfl := List.mem_singleton.mp last
      exact ⟨by simp only; omega,by change (extent - (sizeofStructMem + size)) % 4 = 0; omega⟩
  · obtain rfl := List.mem_singleton.mp member
    exact ⟨big,aligned⟩

theorem carve_apart {before after : List Tile} {extent : Nat} (size : Nat)
    (apart : Separated (before ++ ⟨extent,false⟩ :: after)) : Separated (before ++ (carve extent size ++ after)) := by
  have next := (separated_split before extent after apart).2
  have behind : Separated after := (List.isChain_cons.mp apart.right).2
  have front : ∀ rest, Separated rest → (∀ tile ∈ rest.head?, tile.used = true) → Separated (before ++ rest) :=
    fun rest separate used => List.isChain_append.mpr
      ⟨apart.left,separate,fun _ _ tile member => .inr (used tile member)⟩
  rw [carve]
  split
  · refine front _ (List.isChain_cons_cons.mpr ⟨.inl rfl,List.isChain_cons.mpr ⟨?_,behind⟩⟩) (by simp)
    exact fun tile member => .inr (next tile member)
  · exact front _ (List.isChain_cons.mpr ⟨fun _ _ => .inl rfl,behind⟩) (by simp)

theorem occupied_carve (extent size : Nat) :
    occupied (carve extent size) =
      if size + sizeofStructMem + minSizeAligned ≤ extent - sizeofStructMem then size + sizeofStructMem else extent := by
  rw [carve]
  split <;> simp [occupied,Nat.add_comm]

theorem occupy_mem {ram : Ram} {before after : List Tile} {extent : Nat} (size : Nat)
    (holding : Holding ram (before ++ ⟨extent,false⟩ :: after)) (big : size + sizeofStructMem ≤ extent) :
    Laid (ram.occupy (total before) size).mem 0 0 (before ++ (carve extent size ++ after)) ∧
      ((ram.occupy (total before) size).mem memSizeAligned).used = true ∧
      (ram.occupy (total before) size).statsUsed = ram.statsUsed + occupied (carve extent size) := by
  have struct := sizes
  have whole := holding.whole
  simp only [total_append,total_cons] at whole
  have span : total before + extent - (total before + sizeofStructMem) = extent - sizeofStructMem := by omega
  rw [occupied_carve,carve]
  simp only [Ram.occupy,holding.laid.here,span]
  by_cases split : size + sizeofStructMem + minSizeAligned ≤ extent - sizeofStructMem
  · simp only [split,if_true]
    have cut : Laid (ram.insertFree (total before) (total before + sizeofStructMem + size) (total before + extent)).mem 0 0
        (before ++ ⟨sizeofStructMem + size,false⟩ :: ⟨extent - (sizeofStructMem + size),false⟩ :: after) := by
      rw [Nat.add_assoc (total before)]
      exact @insertFree_laid ram before [] after extent false (sizeofStructMem + size) holding (by omega)
        (by simp only [total_nil]; omega)
    have marked := setUsed_laid true cut (by
      intro tile member
      simp only [List.mem_append,List.mem_cons] at member
      rcases member with early | rfl | rfl | late
      · exact holding.positive tile (by simp [early])
      · simp only; omega
      · simp only; omega
      · exact holding.positive tile (by simp [late]))
    refine ⟨marked,?_,trivial⟩
    apply setUsed_ended (by omega)
    exact insertFree_ended (by omega) (by omega) holding.ended
  · simp only [split,if_false]
    refine ⟨setUsed_laid true holding.laid holding.positive,setUsed_ended (by omega) holding.ended,?_⟩
    omega

theorem Represents.occupy {ram : Ram} {before after : List Tile} {extent : Nat} (size lfree : Nat)
    (rep : Represents ram (before ++ ⟨extent,false⟩ :: after)) (big : size + sizeofStructMem ≤ extent)
    (least : minSizeAligned ≤ size) (even : size % 4 = 0)
    (lowest : lfree = firstFree 0 (before ++ (carve extent size ++ after))) :
    Represents {ram.occupy (total before) size with lfree := lfree} (before ++ (carve extent size ++ after)) := by
  obtain ⟨laid,ended,stats⟩ := occupy_mem size rep.holding big
  refine ⟨laid,?_,?_,carve_apart size rep.apart,lowest,ended,?_⟩
  · rw [← rep.whole]
    simp [total_carve]
  · intro tile member
    rcases List.mem_append.mp member with early | late
    · exact rep.sound tile (by simp [early])
    · rcases List.mem_append.mp late with inside | late
      · exact carve_sound (rep.sound ⟨extent,false⟩ (by simp)) least even tile inside
      · exact rep.sound tile (by simp [late])
  · change (ram.occupy (total before) size).statsUsed = _
    rw [stats,rep.counted]
    simp [occupied]
    omega

/-- Where `lfree` goes when a block is taken: to the next free block if it pointed to this one. -/
theorem lfree_adjusted {ram : Ram} {full before after : List Tile} {extent : Nat} (size : Nat)
    (used : ∀ tile ∈ full, tile.used = true) (next : ∀ tile ∈ (before ++ ⟨extent,false⟩ :: after).head?, tile.used = false)
    (rep : Represents ram ((full ++ before) ++ ⟨extent,false⟩ :: after)) (big : size + sizeofStructMem ≤ extent) :
    adjustLfree ram (ram.occupy (total (full ++ before)) size) (total (full ++ before)) =
      some (firstFree 0 ((full ++ before) ++ (carve extent size ++ after))) := by
  have positive := Sound.positive rep.sound
  obtain ⟨laid,_,_⟩ := occupy_mem size rep.holding big
  have lfree : ram.lfree = total full := by
    rw [rep.lowest,List.append_assoc,firstFree_append 0 full _ used,Nat.zero_add]
    rcases before with _ | ⟨tile,before⟩
    · simp [firstFree]
    · simp [firstFree,next tile (by simp)]
  unfold adjustLfree
  rcases before with _ | ⟨tile,before⟩
  · simp only [List.append_nil] at rep laid positive ⊢
    have whole := rep.whole
    rw [total_append,total_cons] at whole
    have behind := ((laid_append _ _ _ _ _).mp laid).2
    rw [Nat.zero_add] at behind
    have room : ∀ tile ∈ carve extent size ++ after, 0 < tile.extent := by
      intro tile member
      rcases List.mem_append.mp member with inside | late
      · exact carve_positive big tile inside
      · exact positive tile (by simp [late])
    have count := length_le_total (carve extent size ++ after) room
    rw [total_append,total_carve] at count
    simp only at whole
    rw [if_pos lfree.symm,lowestFree_laid _ behind (by rw [total_append,total_carve]; omega) room (by omega),
      firstFree_append 0 full _ used,Nat.zero_add]
  · have free : tile.used = false := next tile (by simp)
    have room := positive tile (by simp)
    rw [if_neg (by rw [lfree,total_append,total_cons]; omega),lfree,List.append_assoc,firstFree_append 0 full _ used]
    simp [firstFree,free]

/-- Either no free block is big enough, or the first that is gets taken. -/
theorem memMalloc_represents {ram : Ram} {tiles : List Tile} (rep : Represents ram tiles) (size : Nat) (wanted : size ≠ 0) :
    (memMalloc ram size = some (ram,none) ∧ ∀ tile ∈ tiles, ¬ Fits (requested size) tile) ∨
      ∃ before extent after taken, tiles = before ++ ⟨extent,false⟩ :: after ∧
        (∀ tile ∈ before, ¬ Fits (requested size) tile) ∧ requested size + sizeofStructMem ≤ extent ∧
        memMalloc ram size = some (taken,some (total before + sizeofStructMem)) ∧
        Represents taken (before ++ (carve extent (requested size) ++ after)) := by
  obtain ⟨least,even⟩ := requested_bounds size
  have struct := sizes
  by_cases huge : requested size > memSizeAligned
  · refine .inl ⟨by simp [memMalloc,huge],?_⟩
    intro tile member fits
    have short := extent_le_total member
    have := fits.2
    have := rep.whole
    omega
  · -- in front of `lfree` every block is in use, so that nothing there is missed
    obtain ⟨full,rest,rfl,used,place,next⟩ := firstFree_split 0 tiles
    have lfree : ram.lfree = total full := by rw [rep.lowest,place,Nat.zero_add]
    have positive := Sound.positive rep.sound
    have whole := rep.whole
    rw [total_append] at whole
    have laid := ((laid_append _ _ _ _ _).mp rep.laid).2
    rw [Nat.zero_add] at laid
    have count := length_le_total rest (fun tile member => positive tile (by simp [member]))
    have skipped : ∀ tile ∈ full, ¬ Fits (requested size) tile := by
      intro tile member fits
      rw [Fits,used tile member] at fits
      simp at fits
    rcases scan_laid (requested size) (memSizeAligned + 1) (by omega) laid whole
      (fun tile member => positive tile (by simp [member])) (by omega) with ⟨failed,none⟩ | ⟨before,extent,after,rfl,none,big,found⟩
    · refine .inl ⟨?_,?_⟩
      · simp [memMalloc,wanted,huge,lfree,failed]
      · intro tile member
        rcases List.mem_append.mp member with early | late
        · exact skipped tile early
        · exact none tile late
    · have rep' : Represents ram ((full ++ before) ++ ⟨extent,false⟩ :: after) := by simpa using rep
      have sum : total full + total before = total (full ++ before) := (total_append _ _).symm
      have adjusted := lfree_adjusted (requested size) used next rep' big
      refine .inr ⟨full ++ before,extent,after,_,by simp,?_,big,?_,rep'.occupy (requested size) _ big least even rfl⟩
      · intro tile member
        rcases List.mem_append.mp member with early | late
        · exact skipped tile early
        · exact none tile late
      · have fine : total (full ++ before) + sizeofStructMem + requested size ≤ memSizeAligned ∧
            (total (full ++ before) + sizeofStructMem) % memAlignment = 0 := by
          have aligned : total (full ++ before) % 4 = 0 := Sound.total fun tile member => rep'.sound tile (by
            rw [List.mem_append]
            exact .inl member)
          have sizes := rep'.whole
          rw [total_append,total_cons] at sizes
          simp only at sizes
          refine ⟨by omega,?_⟩
          change _ % 4 = 0
          omega
        rw [memMalloc,if_neg (by simp [wanted,huge]),lfree,found,sum]
        simp only [Option.bind_eq_bind,Option.bind_some,adjusted,fine,and_self,if_true]

/-! ### Shrinking a block -/

def trimmed (extent newsize : Nat) : List Tile → List Tile
  | ⟨more,false⟩ :: rest => ⟨sizeofStructMem + newsize,true⟩ :: ⟨extent + more - (sizeofStructMem + newsize),false⟩ :: rest
  | after =>
    if newsize + sizeofStructMem + minSizeAligned ≤ extent - sizeofStructMem then
      ⟨sizeofStructMem + newsize,true⟩ :: ⟨extent - (sizeofStructMem + newsize),false⟩ :: after
    else ⟨extent,true⟩ :: after

/-- Both ways of making room leave the block shorter and a free block behind it. -/
theorem Represents.shorten {ram : Ram} {before others after : List Tile} {extent : Nat} (kept lfree : Nat)
    (rep : Represents ram (before ++ (⟨extent,true⟩ :: others ++ after)))
    (least : sizeofStructMem + minSizeAligned ≤ kept) (even : kept % 4 = 0)
    (left : kept + sizeofStructMem + minSizeAligned ≤ extent + total others) (inside : kept ≤ extent)
    (free : occupied others = 0) (next : ∀ tile ∈ after.head?, tile.used = true)
    (lowest : lfree = firstFree 0 (before ++ (⟨kept,true⟩ :: ⟨extent + total others - kept,false⟩ :: after))) :
    Represents {ram.insertFree (total before) (total before + kept) (total before + (extent + total others)) with
        lfree := lfree, statsUsed := ram.statsUsed - (extent - kept)}
      (before ++ (⟨kept,true⟩ :: ⟨extent + total others - kept,false⟩ :: after)) := by
  have struct := sizes
  have whole := rep.whole
  have counted := rep.counted
  simp only [List.cons_append,total_append,total_cons,occupied_append,occupied,if_true] at whole counted
  have aligned : (extent + total others) % 4 = 0 := by
    have all : ∀ tile ∈ ⟨extent,true⟩ :: others, Sound tile := fun tile member => rep.sound tile (by
      rw [List.mem_append,List.mem_append]
      exact .inr (.inl member))
    exact Sound.total all
  refine ⟨insertFree_laid kept rep.holding (by omega) (by omega),?_,?_,?_,lowest,
    insertFree_ended (by omega) (by omega) rep.ended,?_⟩
  · simp only [total_append,total_cons]
    omega
  · intro tile member
    simp only [List.mem_append,List.mem_cons] at member
    rcases member with early | rfl | rfl | late
    · exact rep.sound tile (by simp [early])
    · exact ⟨least,even⟩
    · refine ⟨by simp only; omega,?_⟩
      change (extent + total others - kept) % 4 = 0
      omega
    · exact rep.sound tile (by simp [late])
  · have behind : Separated after := (rep.apart.right : Separated ((⟨extent,true⟩ :: others) ++ after)).right
    refine List.isChain_append.mpr ⟨rep.apart.left,List.isChain_cons_cons.mpr ⟨.inl rfl,List.isChain_cons.mpr ⟨?_,behind⟩⟩,?_⟩
    · exact fun tile member => .inr (next tile member)
    · intro _ _ tile member
      obtain rfl : ⟨kept,true⟩ = tile := by simpa using member
      exact .inr rfl
  · simp only [occupied_append,occupied,if_true,Bool.false_eq_true,if_false]
    omega

/-- `mem_trim` moves the free block behind down to the shorter block. -/
theorem memTrim_moved {ram : Ram} {before rest : List Tile} {extent more : Nat} (newsize : Nat)
    (rep : Represents ram (before ++ ⟨extent,true⟩ :: ⟨more,false⟩ :: rest))
    (shrinks : requested newsize + sizeofStructMem < extent) :
    ∃ shorter, memTrim ram (total before + sizeofStructMem) newsize =
        some (shorter,some (total before + sizeofStructMem)) ∧
      Represents shorter (before ++ trimmed extent (requested newsize) (⟨more,false⟩ :: rest)) := by
  have struct := sizes
  obtain ⟨least,even⟩ := requested_bounds newsize
  have positive := Sound.positive rep.sound
  obtain ⟨_,_⟩ : sizeofStructMem + minSizeAligned ≤ more ∧ _ := rep.sound ⟨more,false⟩ (by simp)
  have whole := rep.whole
  simp only [total_append,total_cons] at whole
  have here := rep.laid.here
  have behind := rep.laid.next
  simp only at here behind
  have size : total before + extent - total before - sizeofStructMem = extent - sizeofStructMem := by omega
  have place : total before + sizeofStructMem + requested newsize = total before + (sizeofStructMem + requested newsize) :=
    Nat.add_assoc _ _ _
  have stats : extent - sizeofStructMem - requested newsize = extent - (sizeofStructMem + requested newsize) := by omega
  have next : total before + extent + more = total before + (extent + more) := Nat.add_assoc _ _ _
  refine ⟨_,?_,@Represents.shorten ram before [⟨more,false⟩] rest extent (sizeofStructMem + requested newsize)
    (if ram.lfree = total before + extent then total before + (sizeofStructMem + requested newsize) else ram.lfree)
    rep (by omega) (by omega) (by simp only [total_cons,total_nil]; omega) (by omega) rfl ?_ ?_⟩
  · have legal : sizeofStructMem ≤ total before + sizeofStructMem ∧ total before + sizeofStructMem < memSizeAligned := by
      omega
    simp only [memTrim,Nat.add_sub_cancel,here,behind,legal,and_self,if_true,size,place,stats,next]
    rw [if_neg (by omega),if_neg (by omega),if_neg (by omega)]
    rfl
  · exact (separated_split (before ++ [⟨extent,true⟩]) more rest (by simpa using rep.apart)).2
  · rw [rep.lowest]
    rcases firstFree_front 0 before (fun tile member => positive tile (by simp [member])) with passed | ⟨spot,early,found⟩
    · rw [passed,passed]
      simp [firstFree]
    · rw [found,found,if_neg (by omega)]

/-- With a block in use behind it, what is cut off becomes a free block if it is large enough. -/
theorem memTrim_cut {ram : Ram} {before after : List Tile} {extent : Nat} (newsize : Nat)
    (rep : Represents ram (before ++ ⟨extent,true⟩ :: after)) (shrinks : requested newsize + sizeofStructMem < extent)
    (used : ∀ tile ∈ after.head?, tile.used = true) :
    ∃ shorter, memTrim ram (total before + sizeofStructMem) newsize =
        some (shorter,some (total before + sizeofStructMem)) ∧
      Represents shorter (before ++ trimmed extent (requested newsize) after) := by
  have struct := sizes
  obtain ⟨least,even⟩ := requested_bounds newsize
  have positive := Sound.positive rep.sound
  have whole := rep.whole
  simp only [total_append,total_cons] at whole
  have here := rep.laid.here
  have behind : (ram.mem (total before + extent)).used = true := by
    rcases after with _ | ⟨tile,rest⟩
    · rw [show total before + extent = memSizeAligned by simpa using whole]
      exact rep.ended
    · rw [rep.laid.next]
      exact used tile (by simp)
  have cut : trimmed extent (requested newsize) after =
      if requested newsize + sizeofStructMem + minSizeAligned ≤ extent - sizeofStructMem then
        ⟨sizeofStructMem + requested newsize,true⟩ :: ⟨extent - (sizeofStructMem + requested newsize),false⟩ :: after
      else ⟨extent,true⟩ :: after := by
    rcases after with _ | ⟨⟨more,taken⟩,rest⟩
    · rfl
    · obtain rfl : taken = true := used ⟨more,taken⟩ (by simp)
      rfl
  have size : total before + extent - total before - sizeofStructMem = extent - sizeofStructMem := by omega
  have place : total before + sizeofStructMem + requested newsize = total before + (sizeofStructMem + requested newsize) :=
    Nat.add_assoc _ _ _
  have stats : extent - sizeofStructMem - requested newsize = extent - (sizeofStructMem + requested newsize) := by omega
  have legal : sizeofStructMem ≤ total before + sizeofStructMem ∧ total before + sizeofStructMem < memSizeAligned := by
    omega
  have value : memTrim ram (total before + sizeofStructMem) newsize =
      if requested newsize + sizeofStructMem + minSizeAligned ≤ extent - sizeofStructMem then
        some ({ram.insertFree (total before) (total before + (sizeofStructMem + requested newsize)) (total before + extent) with
          lfree := if total before + (sizeofStructMem + requested newsize) < ram.lfree then
            total before + (sizeofStructMem + requested newsize) else ram.lfree
          statsUsed := ram.statsUsed - (extent - (sizeofStructMem + requested newsize))},
          some (total before + sizeofStructMem))
      else some (ram,some (total before + sizeofStructMem)) := by
    simp only [memTrim,Nat.add_sub_cancel,here,behind,legal,and_self,if_true,size,place,stats]
    rw [if_neg (by omega),if_neg (by omega),if_neg (by omega)]
    simp
  rw [value,cut]
  by_cases room : requested newsize + sizeofStructMem + minSizeAligned ≤ extent - sizeofStructMem
  · simp only [room,if_true]
    refine ⟨_,rfl,@Represents.shorten ram before [] after extent (sizeofStructMem + requested newsize) _ rep (by omega)
      (by omega) (by simp only [total_nil]; omega) (by omega) rfl used ?_⟩
    rw [rep.lowest]
    rcases firstFree_front 0 before (fun tile member => positive tile (by simp [member])) with passed | ⟨spot,early,found⟩
    · rw [passed,passed]
      have far := le_firstFree (0 + total before + extent) after
      simp only [firstFree,if_true,Bool.false_eq_true,if_false]
      rw [if_pos (by omega),Nat.zero_add]
    · rw [found,found,if_neg (by omega)]
  · simp only [room,if_false]
    exact ⟨ram,rfl,rep⟩

theorem memTrim_same {ram : Ram} {before after : List Tile} {extent : Nat} (newsize : Nat)
    (rep : Represents ram (before ++ ⟨extent,true⟩ :: after)) (same : requested newsize + sizeofStructMem = extent) :
    memTrim ram (total before + sizeofStructMem) newsize = some (ram,some (total before + sizeofStructMem)) := by
  have whole := rep.whole
  simp only [total_append,total_cons] at whole
  have struct := sizes
  have size : total before + extent - total before - sizeofStructMem = requested newsize := by omega
  have legal : sizeofStructMem ≤ total before + sizeofStructMem ∧ total before + sizeofStructMem < memSizeAligned := by
    have := requested_bounds newsize
    omega
  simp only [memTrim,Nat.add_sub_cancel,rep.laid.here,size,legal,and_self,if_true]
  rw [if_neg (by omega),if_neg (by omega)]

theorem memTrim_represents {ram : Ram} {before after : List Tile} {extent : Nat} (newsize : Nat)
    (rep : Represents ram (before ++ ⟨extent,true⟩ :: after)) (shrinks : requested newsize + sizeofStructMem < extent) :
    ∃ shorter, memTrim ram (total before + sizeofStructMem) newsize =
        some (shorter,some (total before + sizeofStructMem)) ∧
      Represents shorter (before ++ trimmed extent (requested newsize) after) := by
  rcases after with _ | ⟨⟨more,used⟩,rest⟩
  · exact memTrim_cut newsize rep shrinks (by simp)
  · cases used with
    | false => exact memTrim_moved newsize rep shrinks
    | true => exact memTrim_cut newsize rep shrinks (by simp)

end Swip.Core

import Swip.Core.MemAlloc
import Swip.Library.Run

/-! Any number of calls to the heap in any order, by callers that free and shrink what they
hold and nothing else. -/
namespace Swip.Core
open Library.Tiling Library.Run Device

inductive HeapCall
  | malloc (size : Nat)
  | free (rmem : Nat)
  | trim (rmem newsize : Nat)
deriving DecidableEq, Repr

/-- `live` has the pointers that are held, each with the size it was asked for with. -/
structure Arena where
  ram : Ram
  live : List (Nat × Nat)

def Arena.call (arena : Arena) : HeapCall → Option Arena
  | .malloc size => do
    let (ram,rmem) ← memMalloc arena.ram size
    return ⟨ram,(rmem.map (·,size)).toList ++ arena.live⟩
  | .free rmem =>
    if rmem ∈ arena.live.map Prod.fst then do
      let ram ← memFree arena.ram (some rmem)
      return ⟨ram,arena.live.filter (·.1 ≠ rmem)⟩
    else some arena
  | .trim rmem newsize =>
    if ∃ held ∈ arena.live, held.1 = rmem ∧ newsize ≤ held.2 then do
      let (ram,_) ← memTrim arena.ram rmem newsize
      return ⟨ram,(rmem,newsize) :: arena.live.filter (·.1 ≠ rmem)⟩
    else some arena

/-- `none` when a call ran into a failed assertion or into an endless loop. -/
def heapStep (arena : Option Arena) (call : HeapCall) : Option Arena := arena.bind (·.call call)

def heapRun (before : Nat → Mem) (calls : List HeapCall) : Option Arena :=
  run heapStep (some ⟨memInit before,[]⟩) calls

/-- Each pointer leads to a block of its own, which is large enough. -/
structure Held (live blocks : List (Nat × Nat)) : Prop where
  owners : (live.map Prod.fst).Perm (blocks.map fun block => block.1 + sizeofStructMem)
  room : ∀ held ∈ live, ∃ block ∈ blocks, held.1 = block.1 + sizeofStructMem ∧ held.2 + sizeofStructMem ≤ block.2

def Arena.Served (arena : Arena) : Prop := ∃ tiles, Represents arena.ram tiles ∧ Held arena.live (spans 0 tiles)

theorem Held.gain {live low high : List (Nat × Nat)} (held : Held live (low ++ high)) (start extent size : Nat)
    (enough : size + sizeofStructMem ≤ extent) :
    Held ((start + sizeofStructMem,size) :: live) (low ++ (start,extent) :: high) := by
  refine ⟨?_,?_⟩
  · have owners := held.owners
    simp only [List.map_append,List.map_cons] at owners ⊢
    exact (List.Perm.cons _ owners).trans List.perm_middle.symm
  · intro one member
    rcases List.mem_cons.mp member with rfl | older
    · exact ⟨(start,extent),by simp,rfl,enough⟩
    · obtain ⟨block,inside,place,room⟩ := held.room one older
      refine ⟨block,?_,place,room⟩
      rcases List.mem_append.mp inside with early | late
      · exact List.mem_append_left _ early
      · exact List.mem_append_right _ (List.mem_cons_of_mem _ late)

theorem Held.lose {live low high : List (Nat × Nat)} {start extent : Nat}
    (held : Held live (low ++ (start,extent) :: high)) (distinct : ((low ++ (start,extent) :: high).map Prod.fst).Nodup) :
    Held (live.filter (·.1 ≠ start + sizeofStructMem)) (low ++ high) := by
  simp only [List.map_append,List.map_cons,List.nodup_middle,List.nodup_cons,List.mem_append,not_or] at distinct
  have other : ∀ block ∈ low ++ high, block.1 ≠ start := by
    intro block member same
    rcases List.mem_append.mp member with early | late
    · exact distinct.1.1 (same ▸ List.mem_map_of_mem early)
    · exact distinct.1.2 (same ▸ List.mem_map_of_mem late)
  refine ⟨?_,?_⟩
  · have owners := held.owners
    simp only [List.map_append,List.map_cons] at owners
    have kept : ∀ place ∈ (low ++ high).map (fun block => block.1 + sizeofStructMem),
        decide (place ≠ start + sizeofStructMem) = true := by
      intro place member
      obtain ⟨block,inside,rfl⟩ := List.mem_map.mp member
      have := other block inside
      simp only [ne_eq,decide_eq_true_eq]
      omega
    have rest := (owners.trans List.perm_middle).filter (· ≠ start + sizeofStructMem)
    rw [List.filter_cons_of_neg (by simp),← List.map_append,List.filter_eq_self.mpr kept,List.filter_map] at rest
    exact rest
  · intro one member
    obtain ⟨member,different⟩ := List.mem_filter.mp member
    obtain ⟨block,inside,place,room⟩ := held.room one member
    refine ⟨block,?_,place,room⟩
    rcases List.mem_append.mp inside with early | late
    · exact List.mem_append_left _ early
    · rcases List.mem_cons.mp late with rfl | late
      · simp [place] at different
      · exact List.mem_append_right _ late

/-! ### One call -/

theorem spans_carve (start extent size : Nat) (big : size + sizeofStructMem ≤ extent) :
    ∃ taken, size + sizeofStructMem ≤ taken ∧ spans start (carve extent size) = [(start,taken)] := by
  rw [carve]
  split
  · exact ⟨sizeofStructMem + size,by omega,by simp [spans]⟩
  · exact ⟨extent,big,by simp [spans]⟩

theorem spans_trimmed (start extent newsize : Nat) (after : List Tile) (big : newsize + sizeofStructMem ≤ extent) :
    ∃ taken, newsize + sizeofStructMem ≤ taken ∧
      spans start (trimmed extent newsize after) = (start,taken) :: spans (start + extent) after := by
  have cut : start + (sizeofStructMem + newsize) + (extent - (sizeofStructMem + newsize)) = start + extent := by omega
  unfold trimmed
  split
  · rename_i more rest
    have moved : start + (sizeofStructMem + newsize) + (extent + more - (sizeofStructMem + newsize)) = start + extent + more := by
      omega
    exact ⟨sizeofStructMem + newsize,by omega,by simp [spans,moved]⟩
  · split
    · exact ⟨sizeofStructMem + newsize,by omega,by simp [spans,cut]⟩
    · exact ⟨extent,big,by simp [spans]⟩

theorem Arena.Served.malloc {arena : Arena} (served : arena.Served) (size : Nat) (asked : size ≤ 65532) :
    ∃ after, arena.call (.malloc size) = some after ∧ after.Served := by
  obtain ⟨tiles,rep,held⟩ := served
  by_cases none : size = 0
  · refine ⟨arena,?_,tiles,rep,held⟩
    simp [Arena.call,memMalloc,none]
  · rcases memMalloc_represents rep size none with ⟨failed,_⟩ | ⟨before,extent,after,taken,rfl,_,big,done,new⟩
    · refine ⟨arena,?_,tiles,rep,held⟩
      simp [Arena.call,failed]
    · obtain ⟨length,enough,single⟩ := spans_carve (0 + total before) extent (requested size) big
      have least := requested_le size asked
      have blocks : spans 0 (before ++ (carve extent (requested size) ++ after)) =
          spans 0 before ++ (0 + total before,length) :: spans (0 + total before + extent) after := by
        rw [spans_append,spans_append,single,total_carve]
        rfl
      refine ⟨⟨taken,(total before + sizeofStructMem,size) :: arena.live⟩,by simp [Arena.call,done],_,new,?_⟩
      rw [blocks,Nat.zero_add]
      rw [spans_append] at held
      simp only [spans,Bool.false_eq_true,if_false,Nat.zero_add] at held
      exact held.gain (total before) length size (by omega)

/-- Where the block behind a pointer lies. -/
theorem Held.find {live : List (Nat × Nat)} {tiles : List Tile} {rmem : Nat} (held : Held live (spans 0 tiles))
    (member : rmem ∈ live.map Prod.fst) :
    ∃ before extent after, tiles = before ++ ⟨extent,true⟩ :: after ∧ rmem = total before + sizeofStructMem := by
  obtain ⟨block,inside,rfl⟩ := List.mem_map.mp (held.owners.mem_iff.mp member)
  obtain ⟨before,after,split,place⟩ := mem_spans inside
  exact ⟨before,block.2,after,split,by rw [place,Nat.zero_add]⟩

theorem Arena.Served.free {arena : Arena} (served : arena.Served) (rmem : Nat) :
    ∃ after, arena.call (.free rmem) = some after ∧ after.Served := by
  by_cases mine : rmem ∈ arena.live.map Prod.fst
  · obtain ⟨tiles,rep,held⟩ := served
    obtain ⟨before,extent,after,rfl,rfl⟩ := held.find mine
    obtain ⟨freed,done,new⟩ := memFree_represents rep
    have distinct := spans_nodup 0 _ (Sound.positive rep.sound)
    refine ⟨⟨freed,arena.live.filter (·.1 ≠ total before + sizeofStructMem)⟩,by simp only [Arena.call,mine,if_true,done]; rfl,_,new,?_⟩
    rw [spans_append,spans,if_pos rfl,Nat.zero_add] at held distinct
    rw [spans_release,Nat.zero_add]
    exact held.lose distinct
  · exact ⟨arena,by simp only [Arena.call,mine,if_false],served⟩

/-- A size that fits the block fits it when it is rounded up, too. -/
theorem requested_fits {extent newsize : Nat} (sound : Sound ⟨extent,true⟩) (bound : extent ≤ memSizeAligned)
    (fits : newsize + sizeofStructMem ≤ extent) : requested newsize + sizeofStructMem ≤ extent := by
  have struct := sizes
  obtain ⟨least,even⟩ : sizeofStructMem + minSizeAligned ≤ extent ∧ extent % 4 = 0 := sound
  have aligned : lwipMemAlignSize newsize % 65536 + sizeofStructMem ≤ extent := by
    change (newsize + 4 - 1) / 4 * 4 % 65536 + sizeofStructMem ≤ extent
    omega
  rw [requested,Nat.max_def]
  split <;> omega

theorem memTrim_spans {ram : Ram} {before after : List Tile} {extent : Nat} (newsize : Nat)
    (rep : Represents ram (before ++ ⟨extent,true⟩ :: after)) (fits : requested newsize + sizeofStructMem ≤ extent) :
    ∃ shorter tiles taken, memTrim ram (total before + sizeofStructMem) newsize =
        some (shorter,some (total before + sizeofStructMem)) ∧ Represents shorter tiles ∧
      requested newsize + sizeofStructMem ≤ taken ∧
      spans 0 tiles = spans 0 before ++ (total before,taken) :: spans (total before + extent) after := by
  rcases Nat.lt_or_eq_of_le fits with shrinks | same
  · obtain ⟨shorter,done,new⟩ := memTrim_represents newsize rep shrinks
    obtain ⟨taken,enough,blocks⟩ := spans_trimmed (total before) extent (requested newsize) after fits
    exact ⟨shorter,_,taken,done,new,enough,by rw [spans_append,Nat.zero_add,blocks]⟩
  · exact ⟨ram,_,extent,memTrim_same newsize rep same,rep,fits,by rw [spans_append,spans,if_pos rfl,Nat.zero_add]⟩

theorem Arena.Served.trim {arena : Arena} (served : arena.Served) (rmem newsize : Nat) :
    ∃ after, arena.call (.trim rmem newsize) = some after ∧ after.Served := by
  by_cases mine : ∃ held ∈ arena.live, held.1 = rmem ∧ newsize ≤ held.2
  · obtain ⟨tiles,rep,held⟩ := served
    have allowed := mine
    obtain ⟨one,member,rfl,less⟩ := mine
    obtain ⟨before,extent,after,rfl,place⟩ := held.find (List.mem_map_of_mem member)
    have distinct := spans_nodup 0 _ (Sound.positive rep.sound)
    have blocks : spans 0 (before ++ ⟨extent,true⟩ :: after) =
        spans 0 before ++ (total before,extent) :: spans (total before + extent) after := by
      rw [spans_append,spans,if_pos rfl,Nat.zero_add]
    obtain ⟨block,inside,same,room⟩ := held.room one member
    obtain rfl : block = (total before,extent) := by
      refine List.inj_on_of_nodup_map distinct inside (by rw [blocks]; simp) ?_
      change block.1 = total before
      omega
    have bound := rep.whole
    rw [total_append,total_cons] at bound
    have whole := sizes
    simp only at bound room
    have fits : requested newsize + sizeofStructMem ≤ extent :=
      requested_fits (rep.sound ⟨extent,true⟩ (by simp)) (by omega) (by omega)
    obtain ⟨shorter,tiles,taken,done,new,enough,spanned⟩ := memTrim_spans newsize rep fits
    have least := requested_le newsize (by omega)
    rw [blocks] at held distinct
    have kept := (held.lose distinct).gain (total before) taken newsize (by omega)
    rw [← spanned,← place] at kept
    rw [← place] at done
    refine ⟨⟨shorter,(one.1,newsize) :: arena.live.filter (·.1 ≠ one.1)⟩,?_,tiles,new,kept⟩
    simp only [Arena.call,allowed,if_true,done]
    rfl
  · exact ⟨arena,by simp only [Arena.call,mine,if_false],served⟩

/-! ### Whole runs -/

/-- `mem_size_t` cannot hold the larger sizes rounded up. -/
def Asked : HeapCall → Prop
  | .malloc size => size ≤ 65532
  | _ => True

instance (call : HeapCall) : Decidable (Asked call) := by
  cases call <;> unfold Asked <;> infer_instance

theorem heapRun_served (before : Nat → Mem) (calls : List HeapCall) (asked : ∀ call ∈ calls, Asked call) :
    ∃ arena, heapRun before calls = some arena ∧ arena.Served := by
  refine invariant_along heapStep (fun _ call => Asked call) (fun state => ∃ arena, state = some arena ∧ arena.Served)
    ?_ _ calls ⟨_,rfl,_,memInit_represents before,⟨.refl _,by simp⟩⟩ (along_forall heapStep Asked _ calls asked)
  rintro _ call ⟨arena,rfl,served⟩ met
  cases call with
  | malloc size => exact served.malloc size met
  | free rmem => exact served.free rmem
  | trim rmem newsize => exact served.trim rmem newsize

theorem Arena.Served.placed {arena : Arena} (served : arena.Served) :
    ∀ held ∈ arena.live, held.1 % memAlignment = 0 ∧ sizeofStructMem ≤ held.1 ∧ held.1 + held.2 ≤ memSizeAligned := by
  obtain ⟨tiles,rep,owned⟩ := served
  intro held member
  obtain ⟨block,inside,place,room⟩ := owned.room held member
  obtain ⟨before,after,rfl,start⟩ := mem_spans inside
  have aligned : total before % 4 = 0 := Sound.total fun tile early => rep.sound tile (by simp [early])
  have whole := rep.whole
  simp only [total_append,total_cons] at whole
  have struct := sizes
  refine ⟨?_,by omega,by omega⟩
  change held.1 % 4 = 0
  omega

theorem Arena.Served.apart {arena : Arena} (served : arena.Served) :
    arena.live.Pairwise fun one two =>
      one.1 + one.2 + sizeofStructMem ≤ two.1 ∨ two.1 + two.2 + sizeofStructMem ≤ one.1 := by
  obtain ⟨tiles,rep,owned⟩ := served
  have struct := sizes
  have sorted : (spans 0 tiles).Pairwise fun low high => low.1 + low.2 ≤ high.1 ∨ high.1 + high.2 ≤ low.1 :=
    (spans_sorted 0 tiles).imp .inl
  have starts : ((spans 0 tiles).map fun block => block.1 + sizeofStructMem).Nodup := by
    have distinct := (spans_nodup 0 tiles (Sound.positive rep.sound)).map (f := (· + sizeofStructMem))
      (fun _ _ => Nat.add_right_cancel)
    rwa [List.map_map] at distinct
  have different : arena.live.Pairwise fun one two => one.1 ≠ two.1 :=
    List.pairwise_map.mp (owned.owners.nodup_iff.mpr starts)
  refine different.imp_of_mem ?_
  intro one two first second other
  obtain ⟨low,lowIn,lowPlace,lowRoom⟩ := owned.room one first
  obtain ⟨high,highIn,highPlace,highRoom⟩ := owned.room two second
  have symmetric : Std.Symm fun low high : Nat × Nat => low.1 + low.2 ≤ high.1 ∨ high.1 + high.2 ≤ low.1 :=
    ⟨fun _ _ => Or.symm⟩
  have order := sorted.forall lowIn highIn (by
    rintro rfl
    omega)
  omega

/-- No call fails an assertion or hangs, and what is held never overlaps anything else that is
held nor the `struct mem` in front of it. -/
theorem heap_blocks_disjoint (before : Nat → Mem) (calls : List HeapCall) (asked : ∀ call ∈ calls, Asked call) :
    ∃ arena, heapRun before calls = some arena ∧
      (∀ held ∈ arena.live, held.1 % memAlignment = 0 ∧ sizeofStructMem ≤ held.1 ∧ held.1 + held.2 ≤ memSizeAligned) ∧
      arena.live.Pairwise fun one two =>
        one.1 + one.2 + sizeofStructMem ≤ two.1 ∨ two.1 + two.2 + sizeofStructMem ≤ one.1 := by
  obtain ⟨arena,done,served⟩ := heapRun_served before calls asked
  exact ⟨arena,done,served.placed,served.apart⟩

/-- Three calls after `mem_init` over zeroes, and the middle block is freed again. -/
def exampleCalls : List HeapCall := [.malloc 10,.malloc 100,.malloc 30,.free 28]

theorem heap_blocks_disjoint_hole :
    ∃ arena, heapRun (fun _ => ⟨0,0,false⟩) exampleCalls = some arena ∧ arena.live = [(136,30),(8,10)] ∧
      (∀ held ∈ arena.live, held.1 % memAlignment = 0 ∧ sizeofStructMem ≤ held.1 ∧ held.1 + held.2 ≤ memSizeAligned) ∧
      arena.live.Pairwise fun one two =>
        one.1 + one.2 + sizeofStructMem ≤ two.1 ∨ two.1 + two.2 + sizeofStructMem ≤ one.1 := by
  have held : (heapRun (fun _ => ⟨0,0,false⟩) exampleCalls).map Arena.live = some [(136,30),(8,10)] := by decide
  obtain ⟨arena,reached,sound⟩ := heap_blocks_disjoint (fun _ => ⟨0,0,false⟩) exampleCalls (by decide)
  rw [reached] at held
  exact ⟨arena,reached,Option.some.inj held,sound⟩

/-- When everything has been freed, in whatever order, the heap is one free block again. -/
theorem heap_emptied (before : Nat → Mem) (calls : List HeapCall) (asked : ∀ call ∈ calls, Asked call) (arena : Arena)
    (reached : heapRun before calls = some arena) (empty : arena.live = []) :
    arena.ram.mem 0 = ⟨memSizeAligned,0,false⟩ ∧ arena.ram.lfree = 0 ∧ arena.ram.statsUsed = 0 := by
  obtain ⟨_,done,tiles,rep,held⟩ := heapRun_served before calls asked
  obtain rfl := Option.some.inj (reached.symm.trans done)
  have none : spans 0 tiles = [] := by
    have owners := held.owners
    rw [empty] at owners
    simpa using owners
  rcases rep.apart.single (free_of_spans_nil none) with rfl | single
  · have := rep.whole
    simp [sizes] at this
  · rw [rep.whole] at single
    subst single
    exact ⟨by simpa using rep.laid.1,rep.lowest,rep.counted⟩

theorem heap_emptied_hole :
    ∃ arena, heapRun (fun _ => ⟨0,0,false⟩) (exampleCalls ++ [.free 136,.free 8]) = some arena ∧ arena.live = [] ∧
      arena.ram.mem 0 = ⟨memSizeAligned,0,false⟩ ∧ arena.ram.lfree = 0 ∧ arena.ram.statsUsed = 0 := by
  have empty : (heapRun (fun _ => ⟨0,0,false⟩) (exampleCalls ++ [.free 136,.free 8])).map Arena.live = some [] := by
    decide
  obtain ⟨arena,reached,none⟩ := Option.map_eq_some_iff.mp empty
  exact ⟨arena,reached,none,heap_emptied _ _ (by decide) arena reached none⟩

/-! ### First fit -/

/-- The structs met on the way from `ptr` to `ram_end`. -/
def structs (ram : Ram) : Nat → Nat → List (Nat × Mem)
  | 0, _ => []
  | fuel + 1, ptr =>
    if ptr = memSizeAligned then [] else (ptr,ram.mem ptr) :: structs ram fuel (ram.mem ptr).next

def Room (size : Nat) (struct : Nat × Mem) : Prop :=
  struct.2.used = false ∧ size + sizeofStructMem ≤ struct.2.next - struct.1

instance (size : Nat) (struct : Nat × Mem) : Decidable (Room size struct) := inferInstanceAs (Decidable (_ ∧ _))

/-- The lowest free block of the whole heap with room for the data, found without `lfree`. -/
def firstFit (ram : Ram) (size : Nat) : Option Nat :=
  ((structs ram (memSizeAligned + 1) 0).find? (Room size ·)).map Prod.fst

theorem structs_cons {ram : Ram} {prev ptr : Nat} {tile : Tile} {rest : List Tile} (fuel : Nat)
    (laid : Laid ram.mem prev ptr (tile :: rest)) (inner : ptr < memSizeAligned) :
    structs ram (fuel + 1) ptr = (ptr,⟨ptr + tile.extent,prev,tile.used⟩) :: structs ram fuel (ptr + tile.extent) := by
  rw [structs,if_neg (by omega),laid.1]

theorem structs_skip {ram : Ram} {prev ptr : Nat} {before rest : List Tile} (size fuel : Nat)
    (laid : Laid ram.mem prev ptr (before ++ rest)) (inner : ptr + total before ≤ memSizeAligned)
    (positive : ∀ tile ∈ before, 0 < tile.extent) (none : ∀ tile ∈ before, ¬ Fits size tile) :
    (structs ram (before.length + fuel) ptr).find? (Room size ·) =
      (structs ram fuel (ptr + total before)).find? (Room size ·) := by
  induction before generalizing prev ptr with
  | nil => simp
  | cons tile before ih =>
    have room := positive tile (by simp)
    simp only [total_cons] at inner
    have passed : ¬ Room size (ptr,⟨ptr + tile.extent,prev,tile.used⟩) := by
      rintro ⟨free,big⟩
      simp only at free big
      exact none tile (by simp) ⟨free,by omega⟩
    rw [List.length_cons,Nat.add_right_comm,structs_cons _ laid (by omega),List.find?_cons_of_neg (by simpa using passed),
      ih laid.2 (by omega) (fun other member => positive other (by simp [member]))
        (fun other member => none other (by simp [member])),total_cons,Nat.add_assoc]

/-- The scan from `lfree` gives what a scan of the whole heap would: the lowest block with
room, or NULL when there is none. -/
theorem heap_first_fit (before : Nat → Mem) (calls : List HeapCall) (asked : ∀ call ∈ calls, Asked call)
    (size : Nat) (wanted : size ≠ 0) :
    ∃ arena taken, heapRun before calls = some arena ∧
      memMalloc arena.ram size = some (taken,(firstFit arena.ram (requested size)).map (· + sizeofStructMem)) := by
  obtain ⟨arena,done,tiles,rep,_⟩ := heapRun_served before calls asked
  have positive := Sound.positive rep.sound
  have count := length_le_total tiles positive
  have whole := rep.whole
  rcases memMalloc_represents rep size wanted with ⟨failed,none⟩ | ⟨low,extent,high,taken,rfl,none,big,found,_⟩
  · refine ⟨arena,arena.ram,done,?_⟩
    obtain ⟨fuel,enough⟩ : ∃ fuel, memSizeAligned + 1 = tiles.length + (fuel + 1) := ⟨memSizeAligned - tiles.length,by omega⟩
    have laid : Laid arena.ram.mem 0 0 (tiles ++ []) := by simpa using rep.laid
    have skipped := structs_skip (requested size) (fuel + 1) laid (by omega) positive none
    rw [failed,firstFit,enough,skipped,structs,if_pos (by omega)]
    rfl
  · refine ⟨arena,taken,done,?_⟩
    have total_eq : total low + (extent + total high) = memSizeAligned := by simpa using whole
    rw [List.length_append,List.length_cons,whole] at count
    obtain ⟨fuel,enough⟩ : ∃ fuel, memSizeAligned + 1 = low.length + (fuel + 1) := ⟨memSizeAligned - low.length,by omega⟩
    have skipped := structs_skip (requested size) (fuel + 1) rep.laid (by omega)
      (fun tile member => positive tile (by simp [member])) none
    have laid := ((laid_append _ _ _ _ _).mp rep.laid).2
    have struct := sizes
    rw [found,firstFit,enough,skipped,structs_cons fuel laid (by omega),List.find?_cons_of_pos]
    · simp
    · simp only [Room,decide_eq_true_eq,true_and,Nat.zero_add]
      omega

/-- The hole that was left is used again. -/
theorem heap_first_fit_hole :
    ∃ arena taken, heapRun (fun _ => ⟨0,0,false⟩) exampleCalls = some arena ∧ memMalloc arena.ram 60 = some (taken,some 28) ∧
      (firstFit arena.ram (requested 60)).map (· + sizeofStructMem) = some 28 := by
  have hole : (heapRun (fun _ => ⟨0,0,false⟩) exampleCalls).bind (fun arena => (memMalloc arena.ram 60).map Prod.snd) =
      some (some 28) := by decide
  obtain ⟨arena,taken,reached,result⟩ := heap_first_fit (fun _ => ⟨0,0,false⟩) exampleCalls (by decide) 60 (by decide)
  rw [reached,Option.bind_some,result] at hole
  have place := Option.some.inj hole
  exact ⟨arena,taken,reached,by rw [result,← place],place⟩

end Swip.Core

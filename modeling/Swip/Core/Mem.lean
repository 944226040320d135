import Swip.Device.Pbuf
import Mathlib.Data.Option.Basic

/-! The heap: `mem.c` with the sizes of `lwipopts.h`. A pointer is its distance from `ram`,
so that `ram_end` is `MEM_SIZE_ALIGNED`, and a function returns `none` where an `LWIP_ASSERT`
fails or a loop goes on for more turns than the heap has bytes. Of the statistics there is
the number of bytes in use. -/
namespace Swip.Core
open Device

def memSize : Nat := 512
def memSizeAligned : Nat := lwipMemAlignSize memSize
def minSizeAligned : Nat := lwipMemAlignSize 12
def sizeofStructMem : Nat := lwipMemAlignSize 6

/-- `struct mem` -/
structure Mem where
  next : Nat
  prev : Nat
  used : Bool
deriving DecidableEq, Repr

/-- `mem` has the struct that lies at a place of the heap, which means something only where
one was put. -/
structure Ram where
  mem : Nat → Mem
  lfree : Nat
  statsUsed : Nat

def Ram.put (ram : Ram) (ptr : Nat) (mem : Mem) : Ram := {ram with mem := Function.update ram.mem ptr mem}

def Ram.setNext (ram : Ram) (ptr next : Nat) : Ram := ram.put ptr {ram.mem ptr with next := next}
def Ram.setPrev (ram : Ram) (ptr prev : Nat) : Ram := ram.put ptr {ram.mem ptr with prev := prev}
def Ram.setUsed (ram : Ram) (ptr : Nat) (used : Bool) : Ram := ram.put ptr {ram.mem ptr with used := used}

/-- The structs at `ptr` and `next` become neighbours. -/
def Ram.link (ram : Ram) (ptr next : Nat) : Ram := (ram.setNext ptr next).setPrev next ptr

/-- `mem_init` over what the memory held before. -/
def memInit (before : Nat → Mem) : Ram :=
  let ram := (Ram.mk before 0 0).put 0 ⟨memSizeAligned,0,false⟩
  ram.put memSizeAligned ⟨memSizeAligned,memSizeAligned,true⟩

def plugForward (ram : Ram) (mem : Nat) : Ram :=
  let nmem := (ram.mem mem).next
  if mem ≠ nmem ∧ (ram.mem nmem).used = false ∧ nmem ≠ memSizeAligned then
    {ram.link mem (ram.mem nmem).next with lfree := if ram.lfree = nmem then mem else ram.lfree}
  else ram

def plugBackward (ram : Ram) (mem : Nat) : Ram :=
  let pmem := (ram.mem mem).prev
  if pmem ≠ mem ∧ (ram.mem pmem).used = false then
    {ram.link pmem (ram.mem mem).next with lfree := if ram.lfree = mem then pmem else ram.lfree}
  else ram

def plugHoles (ram : Ram) (mem : Nat) : Option Ram :=
  if mem < memSizeAligned ∧ (ram.mem mem).used = false ∧ (ram.mem mem).next ≤ memSizeAligned then
    some (plugBackward (plugForward ram mem) mem)
  else none

/-- The struct is marked as unused, with what goes with it. -/
def Ram.vacate (ram : Ram) (mem : Nat) : Ram :=
  {ram.setUsed mem false with
    lfree := if mem < ram.lfree then mem else ram.lfree
    statsUsed := ram.statsUsed - ((ram.mem mem).next - mem)}

def memFree (ram : Ram) : Option Nat → Option Ram
  | none => some ram
  | some rmem =>
    let mem := rmem - sizeofStructMem
    if rmem % memAlignment = 0 ∧ sizeofStructMem ≤ rmem ∧ rmem < memSizeAligned ∧ (ram.mem mem).used = true then
      plugHoles (ram.vacate mem) mem
    else none

/-- The size of the block a request is served with. `mem_size_t` has 16 bits, so that the
alignment of the three largest sizes wraps to zero. -/
def requested (size : Nat) : Nat := max (lwipMemAlignSize size % 65536) minSizeAligned

/-- A second `struct mem` at `ptr2`, between the one at `ptr` and its successor `next`. -/
def Ram.insertFree (ram : Ram) (ptr ptr2 next : Nat) : Ram :=
  let ram := (ram.put ptr2 ⟨next,ptr,false⟩).setNext ptr ptr2
  if next ≠ memSizeAligned then ram.setPrev next ptr2 else ram

def memTrim (ram : Ram) (rmem newsize : Nat) : Option (Ram × Option Nat) :=
  let newsize := requested newsize
  if newsize > memSizeAligned then some (ram,none)
  else if sizeofStructMem ≤ rmem ∧ rmem < memSizeAligned then
    let ptr := rmem - sizeofStructMem
    let next := (ram.mem ptr).next
    let size := next - ptr - sizeofStructMem
    let ptr2 := ptr + sizeofStructMem + newsize
    if newsize > size then none
    else if newsize = size then some (ram,some rmem)
    else if (ram.mem next).used = false then
      -- the free block behind is moved down
      some ({ram.insertFree ptr ptr2 (ram.mem next).next with
        lfree := if ram.lfree = next then ptr2 else ram.lfree
        statsUsed := ram.statsUsed - (size - newsize)},some rmem)
    else if newsize + sizeofStructMem + minSizeAligned ≤ size then
      some ({ram.insertFree ptr ptr2 next with
        lfree := if ptr2 < ram.lfree then ptr2 else ram.lfree
        statsUsed := ram.statsUsed - (size - newsize)},some rmem)
    else some (ram,some rmem)
  else none

/-- The scan for a free block that is big enough, from `ptr` on. -/
def scan (ram : Ram) (size : Nat) : Nat → Nat → Option (Option Nat)
  | 0, _ => none
  | fuel + 1, ptr =>
    if ptr < memSizeAligned - size then
      let mem := ram.mem ptr
      if mem.used = false ∧ size ≤ mem.next - (ptr + sizeofStructMem) then some (some ptr)
      else scan ram size fuel mem.next
    else some none

def lowestFree (ram : Ram) : Nat → Nat → Option Nat
  | 0, _ => none
  | fuel + 1, cur =>
    if (ram.mem cur).used = true ∧ cur ≠ memSizeAligned then lowestFree ram fuel (ram.mem cur).next
    else some cur

/-- The block at `ptr` is taken, and split if what is left makes a block of its own. -/
def Ram.occupy (ram : Ram) (ptr size : Nat) : Ram :=
  let next := (ram.mem ptr).next
  if size + sizeofStructMem + minSizeAligned ≤ next - (ptr + sizeofStructMem) then
    {(ram.insertFree ptr (ptr + sizeofStructMem + size) next).setUsed ptr true with
      statsUsed := ram.statsUsed + (size + sizeofStructMem)}
  else {ram.setUsed ptr true with statsUsed := ram.statsUsed + (next - ptr)}

def adjustLfree (ram taken : Ram) (ptr : Nat) : Option Nat :=
  if ptr = ram.lfree then lowestFree taken (memSizeAligned + 1) ptr else some ram.lfree

def memMalloc (ram : Ram) (size : Nat) : Option (Ram × Option Nat) :=
  if size = 0 ∨ requested size > memSizeAligned then some (ram,none)
  else do
    match ← scan ram (requested size) (memSizeAligned + 1) ram.lfree with
    | none => some (ram,none)
    | some ptr =>
      let taken := ram.occupy ptr (requested size)
      let lfree ← adjustLfree ram taken ptr
      if ptr + sizeofStructMem + requested size ≤ memSizeAligned ∧ (ptr + sizeofStructMem) % memAlignment = 0 then
        some ({taken with lfree := lfree},some (ptr + sizeofStructMem))
      else none

end Swip.Core

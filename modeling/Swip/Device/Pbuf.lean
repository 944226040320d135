import Swip.Library.Heap

/-! Packet buffers: `pbuf.c`, with the free list of `MEMP_PBUF_POOL` from `memp.c`. A
pointer is one of `n` addresses, NULL is `none`, and a function returns `none` where the
C code runs into a failed `LWIP_ASSERT` or follows a pointer to no live pbuf. The type `β`
of payload symbols is left open. Custom pbufs do not occur among received ones. -/
namespace Swip.Device
open Library.Heap

inductive PbufType
  | ram | rom | ref | pool
deriving DecidableEq, Repr

inductive PbufLayer
  | transport | ip | link | rawTx | raw
deriving DecidableEq, Repr

/-- `payload` is the memory the payload pointer leads to, `len` the part in use. -/
structure Pbuf (n : Nat) (β : Type) where
  next : Option (Fin n)
  payload : List β
  totLen : Nat
  len : Nat
  type : PbufType
  ref : Nat

/-- `tab` is the pool's list of free elements; `freed` logs every deallocation. -/
structure Memory (n : Nat) (β : Type) where
  cell : Fin n → Option (Pbuf n β)
  tab : List (Fin n)
  freed : List (Fin n)

def pbufPoolBufsize : Nat := 128
def pbufLinkHlen : Nat := 32
def pbufLinkEncapsulationHlen : Nat := 0
def pbufIpHlen : Nat := 20
def pbufTransportHlen : Nat := 20
def memAlignment : Nat := 4

def lwipMemAlignSize (size : Nat) : Nat := (size + memAlignment - 1) / memAlignment * memAlignment

def PbufLayer.offset : PbufLayer → Nat
  | .transport => pbufLinkEncapsulationHlen + pbufLinkHlen + pbufIpHlen + pbufTransportHlen
  | .ip => pbufLinkEncapsulationHlen + pbufLinkHlen + pbufIpHlen
  | .link => pbufLinkEncapsulationHlen + pbufLinkHlen
  | .rawTx => pbufLinkEncapsulationHlen
  | .raw => 0

variable {n : Nat} {β : Type}

def Memory.write (mem : Memory n β) (p : Fin n) (cell : Pbuf n β) : Memory n β :=
  {mem with cell := Function.update mem.cell p (some cell)}

/-- `memp_free` of a pool element puts it at the head of the free list; the other types go
back to the heap or to `MEMP_PBUF`. -/
def Memory.dealloc (mem : Memory n β) (p : Fin n) (type : PbufType) : Memory n β where
  cell := Function.update mem.cell p none
  tab := if type = .pool then p :: mem.tab else mem.tab
  freed := mem.freed ++ [p]

/-- The loop of `pbuf_free`; `count` is a `u8_t`. -/
def freeLoop : Nat → Memory n β → Option (Fin n) → Nat → Option (Memory n β × Nat)
  | _, mem, none, count => some (mem,count)
  | 0, _, some _, _ => none
  | fuel + 1, mem, some p, count => do
    let cell ← mem.cell p
    if cell.ref = 0 then none
    else if cell.ref - 1 = 0 then freeLoop fuel (mem.dealloc p cell.type) cell.next ((count + 1) % 256)
    else some (mem.write p {cell with ref := cell.ref - 1},count)

def pbufFree (mem : Memory n β) : Option (Fin n) → Option (Memory n β × Nat)
  | none => none
  | some p => freeLoop (n + 1) mem (some p) 0

def pbufRef (mem : Memory n β) : Option (Fin n) → Option (Memory n β)
  | none => some mem
  | some p => do
    let cell ← mem.cell p
    some (mem.write p {cell with ref := (cell.ref + 1) % 65536})

def catLoop (total : Nat) : Nat → Memory n β → Fin n → Option (Memory n β × Fin n)
  | 0, _, _ => none
  | fuel + 1, mem, p => do
    let cell ← mem.cell p
    match cell.next with
    | none => some (mem,p)
    | some q => catLoop total fuel (mem.write p {cell with totLen := (cell.totLen + total) % 65536}) q

def pbufCat (mem : Memory n β) (h t : Fin n) : Option (Memory n β) := do
  let tail ← mem.cell t
  let (mem,p) ← catLoop tail.totLen n mem h
  let cell ← mem.cell p
  if cell.totLen = cell.len then
    some (mem.write p {cell with totLen := (cell.totLen + tail.totLen) % 65536, next := some t})
  else none

def pbufChain (mem : Memory n β) (h t : Fin n) : Option (Memory n β) := do
  let mem ← pbufCat mem h t
  pbufRef mem (some t)

/-- The loop of `pbuf_realloc` and what follows it. `grow` is the `u16_t` added to the
total lengths on the way; trimming a RAM pbuf moves nothing. -/
def reallocLoop (grow : Nat) : Nat → Memory n β → Fin n → Nat → Option (Memory n β)
  | 0, _, _, _ => none
  | fuel + 1, mem, q, remLen => do
    let cell ← mem.cell q
    if remLen > cell.len then
      let mem := mem.write q {cell with totLen := (cell.totLen + grow) % 65536}
      match cell.next with
      | none => none
      | some q => reallocLoop grow fuel mem q (remLen - cell.len)
    else
      let last := {cell with len := remLen, totLen := remLen}
      let mem := mem.write q last
      let mem ← match cell.next with
        | none => some mem
        | some rest => (pbufFree mem (some rest)).map Prod.fst
      some (mem.write q {last with next := none})

def pbufRealloc (mem : Memory n β) : Option (Fin n) → Nat → Option (Memory n β)
  | none, _ => none
  | some p, newLen => do
    let cell ← mem.cell p
    if newLen ≥ cell.totLen then some mem
    else reallocLoop (65536 - (cell.totLen - newLen)) n mem p newLen

/-- `memp_malloc(MEMP_PBUF_POOL)` and the fields of the pbuf it is made into. The payload
memory holds `blank`, whatever that stands for, until it is written. -/
def Memory.take (mem : Memory n β) (blank : β) (room length totLen : Nat) : Option (Memory n β × Fin n) :=
  match mem.tab with
  | [] => none
  | p :: tab =>
    let cell := ⟨none,List.replicate room blank,totLen,min length room,.pool,1⟩
    some (Memory.write {mem with tab := tab} p cell,p)

def allocLoop (blank : β) (p : Fin n) : Nat → Memory n β → Fin n → Nat → Option (Memory n β × Option (Fin n))
  | 0, _, _, _ => none
  | fuel + 1, mem, r, remLen =>
    if remLen = 0 then some (mem,some p)
    else match mem.take blank pbufPoolBufsize remLen remLen with
      | none => (pbufFree mem (some p)).map fun (mem,_) => (mem,none)
      | some (mem,q) => do
        let cell ← mem.cell r
        allocLoop blank p fuel (mem.write r {cell with next := some q}) q
          (remLen - min remLen pbufPoolBufsize)

/-- `pbuf_alloc(layer, length, PBUF_POOL)`. The outer `none` is a fault, the inner one the
NULL that is returned when the pool is empty. -/
def pbufAlloc (mem : Memory n β) (blank : β) (layer : PbufLayer) (length : Nat) :
    Option (Memory n β × Option (Fin n)) :=
  let room := pbufPoolBufsize - lwipMemAlignSize layer.offset
  match mem.take blank room length length with
  | none => some (mem,none)
  | some (mem,p) => allocLoop blank p (n + 1) mem p (length - min length room)

end Swip.Device

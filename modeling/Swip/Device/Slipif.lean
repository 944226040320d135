import Swip.Wire
import Swip.Device.PbufChain

/-! Receiving on the device: `slipif_rxbyte` and `slipif_rxbyte_input` of `slipif.c`. A
payload byte is `none` until it is written, so that a packet handed on with a byte nobody
received would show. `none` from a function is a fault, as in `pbuf.c`. -/
namespace Swip.Device

inductive SlipifRecvState
  | normal | escape
deriving DecidableEq, Repr

/-- `q` is the whole chain of the packet, `p` the pbuf being filled. -/
structure SlipifPriv (n : Nat) where
  p : Option (Fin n)
  q : Option (Fin n)
  state : SlipifRecvState
  i : Nat
  recved : Nat

structure Netif (n : Nat) where
  priv : SlipifPriv n
  mem : Memory n (Option Byte)
  linkRecv : Nat
  linkDrop : Nat

variable {n : Nat}

def slipMaxSize : Nat := 1500

def slipifPbufSize : Nat := pbufPoolBufsize - pbufLinkHlen - pbufLinkEncapsulationHlen

/-- The store at the end of `slipif_rxbyte`, into the pbuf `p`. -/
def slipifStore (net : Netif n) (p : Fin n) (c : Byte) : Option (Netif n) :=
  if net.priv.recved ≤ slipMaxSize then do
    let cell ← net.mem.cell p
    if net.priv.i < cell.payload.length then
      let mem := net.mem.write p {cell with payload := cell.payload.set net.priv.i (some c)}
      let recved := (net.priv.recved + 1) % 65536
      let i := (net.priv.i + 1) % 65536
      if i ≥ cell.len then
        match cell.next with
        | none => some {net with mem := mem, priv := {net.priv with p := none, i := 0, recved := recved}}
        | some r => do
          let following ← mem.cell r
          let p := if following.len > 0 then some r else none
          some {net with mem := mem, priv := {net.priv with p := p, i := 0, recved := recved}}
      else some {net with mem := mem, priv := {net.priv with p := some p, i := i, recved := recved}}
    else none
  else some {net with priv := {net.priv with p := some p}}

/-- From `if (priv->p == NULL)` on: a byte that belongs to the packet. -/
def slipifTake (net : Netif n) (c : Byte) : Option (Netif n) :=
  match net.priv.p with
  | some p => slipifStore net p c
  | none => do
    let (mem,allocated) ← pbufAlloc net.mem none .link slipifPbufSize
    match allocated with
    | none => some {net with mem := mem, linkDrop := net.linkDrop + 1}
    | some p =>
      match net.priv.q with
      | some q => do
        let mem ← pbufCat mem q p
        slipifStore {net with mem := mem} p c
      | none => slipifStore {net with mem := mem, priv := {net.priv with q := some p}} p c

def slipifRxbyte (net : Netif n) (c : Byte) : Option (Netif n × Option (Fin n)) :=
  match net.priv.state with
  | .normal =>
    if c = slipEnd then
      if net.priv.recved > 0 then do
        let mem ← pbufRealloc net.mem net.priv.q net.priv.recved
        let priv := {net.priv with p := none, q := none, i := 0, recved := 0}
        some ({net with mem := mem, priv := priv, linkRecv := net.linkRecv + 1},net.priv.q)
      else some (net,none)
    else if c = slipEsc then some ({net with priv := {net.priv with state := .escape}},none)
    else (slipifTake net c).map fun net => (net,none)
  | .escape =>
    let c := if c = slipEscEnd then slipEnd else if c = slipEscEsc then slipEsc else c
    (slipifTake {net with priv := {net.priv with state := .normal}} c).map fun net => (net,none)

/-- The receive side seen from above: the interface, and the chains `netif->input` accepted
that have not been freed yet, oldest first. -/
structure Reception (n : Nat) where
  net : Netif n
  held : List (Fin n)

/-- `accepted` tells whether `netif->input` returns `ERR_OK`. The result has the payload
`netif->input` was called with, if it was. -/
def slipifRxbyteInput (rx : Reception n) (c : Byte) (accepted : Bool) :
    Option (Reception n × Option (List (Option Byte))) := do
  let (net,packet) ← slipifRxbyte rx.net c
  match packet with
  | none => some (⟨net,rx.held⟩,none)
  | some p =>
    let payload := payloadFrom net.mem n (some p)
    if accepted then some (⟨net,rx.held ++ [p]⟩,some payload)
    else do
      let (mem,_) ← pbufFree net.mem (some p)
      some (⟨{net with mem := mem},rx.held⟩,some payload)

def releaseHeld (rx : Reception n) (k : Nat) : Option (Reception n) :=
  match rx.held[k]? with
  | none => some rx
  | some p => do
    let (mem,_) ← pbufFree rx.net.mem (some p)
    some ⟨{rx.net with mem := mem},rx.held.eraseIdx k⟩

/-- `slipif_init`, over a pool of `n` elements as `memp_init` links them. -/
def slipifInit (n : Nat) : Reception n where
  net := {
    priv := ⟨none,none,.normal,0,0⟩
    mem := ⟨fun _ => none,(List.finRange n).reverse,[]⟩
    linkRecv := 0
    linkDrop := 0 }
  held := []

end Swip.Device

import Swip.Core.Icmp
import Swip.Library.Run

/-! Reassembly of `ip4_frag.c`. A failed assertion stops the device; the model then has no state. -/
namespace Swip.Core

def ipReassMaxage : Nat := 3
def ipReassMaxPbufs : Nat := 10
def mempNumReassdata : Nat := 10

/-- `len`, `id` and `offset` are in host order; the others are as they lie in memory. -/
structure IpHdr where
  vHl : Byte
  tos : Byte
  len : UInt16
  id : UInt16
  offset : UInt16
  ttl : Byte
  proto : Byte
  chksum : UInt16
  src : UInt32
  dest : UInt32
  deriving DecidableEq

def IpHdr.hl (iphdr : IpHdr) : Nat := iphdr.vHl.toNat % 16
/-- The offset in units of 8 bytes. -/
def IpHdr.off (iphdr : IpHdr) : Nat := iphdr.offset.toNat % 8192
def IpHdr.mf (iphdr : IpHdr) : Bool := iphdr.offset.toNat / 8192 % 2 = 1

/-- The bytes in front of the checksum. -/
def IpHdr.front (iphdr : IpHdr) : List Byte :=
  [iphdr.vHl,iphdr.tos] ++ wordBytes (lwipHtons iphdr.len.toNat) ++ wordBytes (lwipHtons iphdr.id.toNat) ++
    wordBytes (lwipHtons iphdr.offset.toNat) ++ [iphdr.ttl,iphdr.proto]

def IpHdr.addresses (iphdr : IpHdr) : List Byte :=
  wordBytes iphdr.src.toNat ++ wordBytes (iphdr.src.toNat / 65536) ++ (wordBytes iphdr.dest.toNat ++ wordBytes (iphdr.dest.toNat / 65536))

def IpHdr.bytes (iphdr : IpHdr) : List Byte := iphdr.front ++ (wordBytes iphdr.chksum.toNat ++ iphdr.addresses)

/-- The checksum of the header at `address` is filled in. -/
def IpHdr.withChksum (iphdr : IpHdr) (address : Nat) : IpHdr := {iphdr with chksum := .ofNat (inetChksum address iphdr.bytes)}

def ipAddressesAndIdMatch (iphdrA iphdrB : IpHdr) : Bool :=
  iphdrA.src = iphdrB.src && iphdrA.dest = iphdrB.dest && iphdrA.id = iphdrB.id

/-- A pbuf chain that `ip4_input` found to be a fragment and cut to the length in its header:
the header at `address`, what follows it in the first pbuf, and the other pbufs. -/
structure Fragment where
  address : Nat
  iphdr : IpHdr
  first : List Byte
  next : List (List Byte)
  trimmed : first.length + next.flatten.length + iphdr.hl * 4 = iphdr.len.toNat
  cut : iphdr.off ≠ 0 ∨ iphdr.mf

def Fragment.data (f : Fragment) : List Byte := f.first ++ f.next.flatten
def Fragment.clen (f : Fragment) : Nat := f.next.length + 1
def Fragment.start (f : Fragment) : Nat := f.iphdr.off * 8
def Fragment.finish (f : Fragment) : Nat := (f.start + (f.iphdr.len.toNat - f.iphdr.hl * 4)) % 65536

structure IpReassdata where
  p : List Fragment
  iphdr : IpHdr
  datagramLen : Nat
  lastfrag : Bool
  timer : Nat

def pbufClen : List Fragment → Nat
  | [] => 0
  | f :: next => f.clen + pbufClen next

def IpReassdata.clen (ipr : IpReassdata) : Nat := pbufClen ipr.p

structure Reass where
  reassdatagrams : List IpReassdata
  ipReassPbufcount : Nat
  /-- The pbufs given to `icmp_time_exceeded`. -/
  timeExceeded : List (IpHdr × List Byte)

def Reass.empty : Reass := ⟨[],0,[]⟩

/-! ### Dropping a datagram -/

/-- The messages for `ipr`: one if its first fragment is there. -/
def timeExceeded (ipr : IpReassdata) : List (IpHdr × List Byte) :=
  match ipr.p with
  | [] => []
  | f :: _ => if f.start = 0 then [(ipr.iphdr,f.data)] else []

/-- The pbufs are freed; the caller takes `ipr` off the list. -/
def ipReassFreeCompleteDatagram (ipr : IpReassdata) (s : Reass) : Option Reass :=
  if ipr.clen ≤ 65535 ∧ ipr.clen ≤ s.ipReassPbufcount then
    some ⟨s.reassdatagrams,s.ipReassPbufcount - ipr.clen,s.timeExceeded ++ timeExceeded ipr⟩
  else none

/-- The loop of `ip_reass_tmr`. The datagrams that stay are collected. -/
def tmrLoop : List IpReassdata → Reass → Option Reass
  | [], s => some s
  | r :: next, s =>
    if 0 < r.timer then
      tmrLoop next {s with reassdatagrams := s.reassdatagrams ++ [{r with timer := r.timer - 1}]}
    else (ipReassFreeCompleteDatagram r s).bind (tmrLoop next)

def ipReassTmr (s : Reass) : Option Reass := tmrLoop s.reassdatagrams {s with reassdatagrams := []}

/-- The later one of two with the same timer. -/
def older (r : Nat × IpReassdata) : Option (Nat × IpReassdata) → Nat × IpReassdata
  | none => r
  | some oldest => if r.2.timer ≤ oldest.2.timer then r else oldest

/-- The oldest of the datagrams that are not `fraghdr`'s, with its place. -/
def oldestLoop (fraghdr : IpHdr) : Nat → List IpReassdata → Option (Nat × IpReassdata) → Option (Nat × IpReassdata)
  | _, [], oldest => oldest
  | i, r :: next, oldest =>
    if ipAddressesAndIdMatch r.iphdr fraghdr then oldestLoop fraghdr (i + 1) next oldest
    else oldestLoop fraghdr (i + 1) next (some (older (i,r) oldest))

def otherDatagrams (fraghdr : IpHdr) (s : Reass) : Nat :=
  s.reassdatagrams.countP fun r => !ipAddressesAndIdMatch r.iphdr fraghdr

/-- The do-while loop. One datagram goes in each turn, so that as many turns as there are
datagrams are enough. -/
def removeLoop (fraghdr : IpHdr) (pbufsNeeded : Nat) : Nat → Reass → Nat → Option (Reass × Nat)
  | 0, s, pbufsFreed => some (s,pbufsFreed)
  | turns + 1, s, pbufsFreed =>
    match oldestLoop fraghdr 0 s.reassdatagrams none with
    | none => some (s,pbufsFreed)
    | some (place,oldest) =>
      (ipReassFreeCompleteDatagram oldest {s with reassdatagrams := s.reassdatagrams.eraseIdx place}).bind fun rest =>
        if pbufsFreed + oldest.clen < pbufsNeeded ∧ otherDatagrams fraghdr s > 1 then
          removeLoop fraghdr pbufsNeeded turns rest (pbufsFreed + oldest.clen)
        else some (rest,pbufsFreed + oldest.clen)

def ipReassRemoveOldestDatagram (fraghdr : IpHdr) (pbufsNeeded : Nat) (s : Reass) : Option (Reass × Nat) :=
  removeLoop fraghdr pbufsNeeded s.reassdatagrams.length s 0

/-! ### The queue of one datagram -/

/-- What became of a fragment: an assertion failed; `freepbuf`; or it stands between `before` and
`after`, and no hole was seen up to there. -/
inductive Chained
  | stopped
  | freepbuf
  | put (before after : List Fragment) (valid : Bool)

def Chained.behind (q : Fragment) : Chained → Chained
  | put before after valid => put (q :: before) after valid
  | other => other

/-- `valid`, and no hole between `prev` and `q`. -/
def noHole (valid : Bool) (q : Fragment) : Option Fragment → Bool
  | none => valid
  | some prev => valid && prev.finish = q.start

def insertLoop (new : Fragment) : Option Fragment → Bool → List Fragment → Chained
  | prev, valid, [] =>
    match prev with
    | none => .put [] [] valid
    | some prev => if prev.finish ≤ new.start then .put [] [] (noHole valid new (some prev)) else .stopped
  | prev, valid, q :: next =>
    if new.start < q.start then
      match prev with
      | none => .put [] (q :: next) valid
      | some prev =>
        -- the hole that may be in front of `new` is not looked at
        if new.start < prev.finish ∨ new.finish > q.start then .freepbuf else .put [] (q :: next) valid
    else if new.start = q.start then .freepbuf
    else if new.start < q.finish then .freepbuf
    else (insertLoop new (some q) (noHole valid q prev) next).behind q

/-- There are no holes from `prev` on; the result has the last fragment. -/
def holeLoop : Fragment → List Fragment → Option Fragment
  | prev, [] => some prev
  | prev, q :: next => if prev.finish = q.start then holeLoop q next else none

inductive Validated
  | stopped
  | freepbuf
  | waits (p : List Fragment)
  | complete (p : List Fragment)

def ipReassChainFragIntoDatagramAndValidate (ipr : IpReassdata) (new : Fragment) : Validated :=
  match insertLoop new none true ipr.p with
  | .stopped => .stopped
  | .freepbuf => .freepbuf
  | .put before after valid =>
    let p := before ++ new :: after
    if ipr.lastfrag ∧ valid ∧ (p.headD new).start = 0 then
      match holeLoop new after with
      | none => .waits p
      | some last =>
        -- the first fragment is not the last one
        if p.length = 1 then .stopped
        else if last.finish = ipr.datagramLen then .complete p else .stopped
    else .waits p

/-! ### A fragment comes in -/

/-- A datagram that `ip4_reass` returns. -/
structure Datagram where
  iphdr : IpHdr
  data : List Byte

def reassembled (ipr : IpReassdata) (address : Nat) : IpHdr :=
  ({ipr.iphdr with len := .ofNat (ipr.datagramLen + ipHlen), offset := 0, chksum := 0} : IpHdr).withChksum address

/-- The header of the first fragment is kept. -/
def IpReassdata.headed (f : Fragment) (ipr : IpReassdata) : IpReassdata :=
  if f.iphdr.off = 0 ∧ ipr.iphdr.off ≠ 0 then {ipr with iphdr := f.iphdr} else ipr

def IpReassdata.flagged (f : Fragment) (ipr : IpReassdata) : IpReassdata :=
  if f.iphdr.mf then ipr else {ipr with lastfrag := true, datagramLen := f.finish}

/-- `ipr` is at `place` in the list; the fragment is counted. -/
def reassInto (f : Fragment) (place : Nat) (ipr : IpReassdata) (s : Reass) : Option (Reass × Option Datagram) :=
  let ipr := ipr.flagged f
  match ipReassChainFragIntoDatagramAndValidate ipr f with
  | .stopped => none
  | .freepbuf =>
    some ({s with reassdatagrams := s.reassdatagrams.set place ipr, ipReassPbufcount := s.ipReassPbufcount - f.clen},none)
  | .waits p => some ({s with reassdatagrams := s.reassdatagrams.set place {ipr with p := p}},none)
  | .complete p =>
    some ({s with reassdatagrams := s.reassdatagrams.eraseIdx place, ipReassPbufcount := s.ipReassPbufcount - pbufClen p},
      some ⟨reassembled ipr (p.headD f).address,p.flatMap Fragment.data⟩)

def newDatagram (fraghdr : IpHdr) : IpReassdata := ⟨[],fraghdr,0,false,ipReassMaxage⟩

/-- The new entry is put in front of the list. -/
def ipReassEnqueueNewDatagram (fraghdr : IpHdr) (clen : Nat) (s : Reass) : Option (Reass × Option IpReassdata) :=
  let ipr := newDatagram fraghdr
  if s.reassdatagrams.length < mempNumReassdata then some ({s with reassdatagrams := ipr :: s.reassdatagrams},some ipr)
  else (ipReassRemoveOldestDatagram fraghdr clen s).bind fun (s,freed) =>
    if freed ≥ clen ∧ s.reassdatagrams.length < mempNumReassdata then
      some ({s with reassdatagrams := ipr :: s.reassdatagrams},some ipr)
    else some (s,none)

/-- The part of `ip4_reass` behind the check of the pbuf count. -/
def reassQueue (f : Fragment) (s : Reass) : Option (Reass × Option Datagram) :=
  match s.reassdatagrams.findIdx? fun ipr => ipAddressesAndIdMatch ipr.iphdr f.iphdr with
  | none =>
    (ipReassEnqueueNewDatagram f.iphdr f.clen s).bind fun (s,ipr) =>
      match ipr with
      | none => some (s,none)
      | some ipr => reassInto f 0 ipr {s with ipReassPbufcount := s.ipReassPbufcount + f.clen}
  | some place =>
    match s.reassdatagrams[place]? with
    | none => none
    | some ipr =>
      reassInto f place (ipr.headed f) {s with ipReassPbufcount := s.ipReassPbufcount + f.clen}

def ip4Reass (f : Fragment) (s : Reass) : Option (Reass × Option Datagram) :=
  if f.iphdr.hl * 4 ≠ ipHlen then some (s,none)
  else if s.ipReassPbufcount + f.clen > ipReassMaxPbufs then
    (ipReassRemoveOldestDatagram f.iphdr f.clen s).bind fun (s,freed) =>
      if freed = 0 ∨ s.ipReassPbufcount + f.clen > ipReassMaxPbufs then some (s,none) else reassQueue f s
  else reassQueue f s

/-! ### The receiver -/

inductive ReassEvent
  | fragment (f : Fragment)
  | tick

/-- Each datagram goes up together with the fragment that completed it. -/
structure Receiver where
  reass : Reass
  delivered : List (Fragment × Datagram)

def Receiver.reset : Receiver := ⟨.empty,[]⟩

def Receiver.step (r : Receiver) : ReassEvent → Option Receiver
  | .fragment f => (ip4Reass f r.reass).map fun (reass,d) => ⟨reass,r.delivered ++ d.toList.map (f,·)⟩
  | .tick => (ipReassTmr r.reass).map ({r with reass := ·})

def receiverStep (r : Option Receiver) (event : ReassEvent) : Option Receiver := r.bind (·.step event)

end Swip.Core

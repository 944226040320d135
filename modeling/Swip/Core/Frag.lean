import Swip.Core.ReassComplete
import Swip.Library.Pieces

/-! Fragmentation, `ip4_frag` of `ip4_frag.c`, without `LWIP_NETIF_TX_SINGLE_PBUF`. -/
namespace Swip.Core
open Library.Run Library.Parts Library.Pieces

inductive FragErr
  | ok
  | mem
  | val
  deriving DecidableEq

/-- A packet to send: its header, what follows it in the first pbuf, and the other pbufs. -/
structure Packet where
  iphdr : IpHdr
  first : List Byte
  next : List (List Byte)
  short : ipHlen + first.length + next.flatten.length ≤ 65535

def Packet.data (p : Packet) : List Byte := p.first ++ p.next.flatten

/-- A fragment given to `netif->output`: a pbuf with the header, and the references. -/
structure Sent where
  iphdr : IpHdr
  next : List (List Byte)

/-- What an allocation returns: the addresses in order, `none` for no memory. -/
abbrev Allocs := List (Option Nat)

/-- The loop over the pbufs of a fragment, with the position it ends at. `none` is no memory. -/
def copyLoop : List (List Byte) → Nat → Nat → Allocs → Option (List (List Byte) × List (List Byte) × Nat) × Allocs
  | [], _, _, allocs => (none,allocs)
  | q :: next, poff, leftToCopy, allocs =>
    let newpbuflen := min leftToCopy (q.length - poff)
    if newpbuflen = 0 then copyLoop next 0 leftToCopy allocs
    else match allocs.headD (some 0) with
      | none => (none,allocs.tail)
      | some _ =>
        let piece := (q.drop poff).take newpbuflen
        if leftToCopy - newpbuflen = 0 then (some ([piece],q :: next,poff + newpbuflen),allocs.tail)
        else
          let (result,allocs) := copyLoop next 0 (leftToCopy - newpbuflen) allocs.tail
          (result.map fun (pieces,p,poff) => (piece :: pieces,p,poff),allocs)

def fragHdr (iphdr : IpHdr) (address mtu left fragsize ofo : Nat) : IpHdr :=
  let last := left ≤ mtu - ipHlen
  ({iphdr with offset := .ofNat (if last then ofo % 8192 else ofo % 8192 + 8192), len := .ofNat (fragsize + ipHlen), chksum := 0} :
    IpHdr).withChksum address

/-- The loop of `ip4_frag`, at most `turns` times. -/
def fragLoop (iphdr : IpHdr) (mtu : Nat) : Nat → List (List Byte) → Nat → Nat → Nat → Allocs → List Sent × FragErr
  | 0, _, _, _, _, _ => ([],.ok)
  | turns + 1, p, poff, left, ofo, allocs =>
    if left = 0 then ([],.ok)
    else
      let nfb := (mtu - ipHlen) / 8
      let fragsize := min left (nfb * 8)
      match allocs.headD (some 0) with
      | none => ([],.mem)
      | some address =>
        match copyLoop p poff fragsize allocs.tail with
        | (none,_) => ([],.mem)
        | (some (pieces,p,poff),allocs) =>
          let (sent,err) := fragLoop iphdr mtu turns p poff (left - fragsize) ((ofo + nfb) % 65536) allocs
          (⟨fragHdr iphdr address mtu left fragsize ofo,pieces⟩ :: sent,err)

/-- A turn sends a byte at least, if `mtu` has room for 8. -/
def ip4Frag (p : Packet) (mtu : Nat) (allocs : Allocs) : List Sent × FragErr :=
  if p.iphdr.hl * 4 ≠ ipHlen then ([],.val)
  else if p.iphdr.mf then ([],.val)
  else fragLoop p.iphdr mtu p.data.length ((p.iphdr.bytes ++ p.first) :: p.next) ipHlen p.data.length p.iphdr.off allocs

/-! ### What a fragment holds -/

/-- The bytes from the position on. -/
def rest (p : List (List Byte)) (poff : Nat) : List Byte := (p.headD []).drop poff ++ p.tail.flatten

theorem rest_next (q : List Byte) (next : List (List Byte)) (poff : Nat) : rest (q :: next) poff = q.drop poff ++ rest next 0 := by
  cases next with
  | nil => simp [rest]
  | cons r next => simp [rest]

theorem copyLoop_spec (p : List (List Byte)) (poff left : Nat) (allocs : Allocs) (begun : 0 < left) (enough : left ≤ (rest p poff).length)
    {pieces p' : List (List Byte)} {poff' : Nat} {later : Allocs} (copied : copyLoop p poff left allocs = (some (pieces,p',poff'),later)) :
    pieces.flatten = (rest p poff).take left ∧ rest p' poff' = (rest p poff).drop left := by
  induction p generalizing poff left allocs pieces p' poff' later with
  | nil => simp [copyLoop] at copied
  | cons q next ih =>
    rw [copyLoop] at copied
    rw [rest_next] at enough ⊢
    have size : (q.drop poff).length = q.length - poff := List.length_drop
    split_ifs at copied with used finished
    · have nothing : q.drop poff = [] := List.length_eq_zero_iff.mp (by omega)
      rw [nothing,List.nil_append] at enough ⊢
      exact ih 0 left allocs begun enough copied
    · split at copied
      · simp at copied
      · simp only [Prod.mk.injEq,Option.some.injEq] at copied
        obtain ⟨⟨rfl,rfl,rfl⟩,-⟩ := copied
        have whole : min left (q.length - poff) = left := by omega
        refine ⟨?_,?_⟩
        · rw [List.flatten_singleton,whole,List.take_append_of_le_length (by omega)]
        · rw [rest_next,whole,← List.drop_drop,List.drop_append_of_le_length (by omega)]
    · split at copied
      · simp at copied
      · generalize deeper : copyLoop next 0 _ allocs.tail = result at copied
        obtain ⟨outcome,allocs'⟩ := result
        cases outcome with
        | none => simp at copied
        | some triple =>
          obtain ⟨pieces',p'',poff''⟩ := triple
          simp only [Option.map_some,Prod.mk.injEq,Option.some.injEq] at copied
          obtain ⟨⟨rfl,rfl,rfl⟩,-⟩ := copied
          have short : min left (q.length - poff) = q.length - poff := by omega
          rw [List.length_append] at enough
          rw [short] at deeper
          obtain ⟨data,position⟩ := ih 0 (left - (q.length - poff)) allocs.tail (by omega) (by omega) deeper
          refine ⟨?_,?_⟩
          · rw [List.flatten_cons,data,short,List.take_append,List.take_of_length_le (Nat.le_of_eq size),
              List.take_of_length_le (by omega : (q.drop poff).length ≤ left),size]
          · rw [position,List.drop_append,List.drop_of_length_le (by omega : (q.drop poff).length ≤ left),List.nil_append,size]

/-- `s` carries `part` at the offset `ofo`, in units of 8 bytes. -/
structure Carries (iphdr : IpHdr) (ofo : Nat) (more : Bool) (part : List Byte) (s : Sent) : Prop where
  data : s.next.flatten = part
  off : s.iphdr.off = ofo
  mf : s.iphdr.mf = more
  len : s.iphdr.len.toNat = part.length + ipHlen
  other : ∃ len offset chksum, s.iphdr = {iphdr with len := len, offset := offset, chksum := chksum}
  checksum : internetSum s.iphdr.bytes = 65535

/-- The first of the `parts` are sent, all but the last one with `IP_MF`. -/
inductive Parted (iphdr : IpHdr) (nfb : Nat) : Nat → List (List Byte) → List Sent → Prop
  | nil (ofo : Nat) (parts : List (List Byte)) : Parted iphdr nfb ofo parts []
  | cons {ofo : Nat} {part : List Byte} {parts : List (List Byte)} {s : Sent} {sent : List Sent}
      (carries : Carries iphdr ofo (!parts.isEmpty) part s) (later : Parted iphdr nfb (ofo + nfb) parts sent) :
      Parted iphdr nfb ofo (part :: parts) (s :: sent)

theorem fragHdr_carries (iphdr : IpHdr) (address mtu left ofo : Nat) (part : List Byte) (pieces : List (List Byte)) (more : Bool)
    (data : pieces.flatten = part) (fits : part.length + ipHlen ≤ 65535) (small : ofo < 8192) (last : left ≤ mtu - ipHlen ↔ more = false) :
    Carries iphdr ofo more part ⟨fragHdr iphdr address mtu left part.length ofo,pieces⟩ := by
  have offset : (fragHdr iphdr address mtu left part.length ofo).offset = .ofNat (if left ≤ mtu - ipHlen then ofo % 8192 else ofo % 8192 + 8192) := rfl
  have value : (fragHdr iphdr address mtu left part.length ofo).offset.toNat = if more then ofo + 8192 else ofo := by
    rw [offset,UInt16.toNat_ofNat']
    cases more with
    | false =>
      rw [if_pos (last.mpr rfl)]
      simp only [Bool.false_eq_true,if_false]
      omega
    | true =>
      rw [if_neg (fun short => by simpa using last.mp short)]
      simp only [if_true]
      omega
  refine ⟨data,?_,?_,?_,⟨_,_,_,rfl⟩,withChksum_full _ _ rfl⟩
  · rw [IpHdr.off,value]
    split <;> omega
  · rw [IpHdr.mf,value]
    cases more with
    | false => simp; omega
    | true => simp; omega
  · change (UInt16.ofNat (part.length + ipHlen)).toNat = part.length + ipHlen
    rw [UInt16.toNat_ofNat']
    exact Nat.mod_eq_of_lt (by omega)

section
variable (iphdr : IpHdr) (mtu : Nat) (room : ipHlen + 8 ≤ mtu) (aligned : 8 ∣ mtu - ipHlen)

/-- What became of the bytes from a position on. -/
def Sends (ofo : Nat) (data : List Byte) (sent : List Sent) (err : FragErr) : Prop :=
  ∃ parts, Cut (mtu - ipHlen) data parts ∧ Parted iphdr ((mtu - ipHlen) / 8) ofo parts sent ∧ (err = .ok ↔ sent.length = parts.length)

include room

theorem sends_nothing (ofo : Nat) (data : List Byte) (begun : data ≠ []) : Sends iphdr mtu ofo data [] .mem := by
  obtain ⟨parts,cut⟩ : ∃ parts, Cut (mtu - ipHlen) data parts := cut_exists (by omega) data begun
  refine ⟨parts,cut,.nil ofo parts,by simp,?_⟩
  intro nothing
  obtain rfl := List.length_eq_zero_iff.mp nothing.symm
  exact absurd cut.flatten.symm begun

include aligned

theorem fragLoop_spec (turns : Nat) (p : List (List Byte)) (poff left ofo : Nat) (allocs : Allocs) (enough : left ≤ turns)
    (whole : (rest p poff).length = left) (begun : 0 < left) (short : ofo * 8 + left + ipHlen ≤ 65535) :
    Sends iphdr mtu ofo (rest p poff) (fragLoop iphdr mtu turns p poff left ofo allocs).1
      (fragLoop iphdr mtu turns p poff left ofo allocs).2 := by
  have step : (mtu - ipHlen) / 8 * 8 = mtu - ipHlen := Nat.div_mul_cancel aligned
  induction turns generalizing p poff left ofo allocs with
  | zero => omega
  | succ turns ih =>
    have nonempty : rest p poff ≠ [] := by
      rw [← List.length_pos_iff]
      omega
    rw [fragLoop,if_neg (by omega)]
    simp only [step]
    cases allocs.headD (some 0) with
    | none => exact sends_nothing iphdr mtu room ofo _ nonempty
    | some address =>
      generalize copied : copyLoop p poff (min left (mtu - ipHlen)) allocs.tail = result
      obtain ⟨outcome,later⟩ := result
      cases outcome with
      | none => exact sends_nothing iphdr mtu room ofo _ nonempty
      | some triple =>
        obtain ⟨pieces,p',poff'⟩ := triple
        obtain ⟨data,position⟩ := copyLoop_spec p poff _ allocs.tail (by omega) (by omega) copied
        have size : ((rest p poff).take (min left (mtu - ipHlen))).length = min left (mtu - ipHlen) := by
          rw [List.length_take]
          omega
        have carries := fun more => fragHdr_carries iphdr address mtu left ofo _ pieces more data (by omega) (by omega)
        rw [size] at carries
        simp only
        rcases Nat.lt_or_ge (mtu - ipHlen) left with long | last
        · have cutting : min left (mtu - ipHlen) = mtu - ipHlen := by omega
          rw [cutting] at carries position size ⊢
          have next : (ofo + (mtu - ipHlen) / 8) % 65536 = ofo + (mtu - ipHlen) / 8 := Nat.mod_eq_of_lt (by omega)
          obtain ⟨parts,cut,parted,finished⟩ := ih p' poff' (left - (mtu - ipHlen)) ((ofo + (mtu - ipHlen) / 8) % 65536) later
            (by omega) (by rw [position,List.length_drop]; omega) (by omega) (by omega)
          have filled : parts.isEmpty = false := by
            cases parts with
            | nil =>
              have empty := cut.flatten
              rw [position] at empty
              have := congrArg List.length empty
              rw [List.length_drop] at this
              simp at this
              omega
            | cons => rfl
          refine ⟨(rest p poff).take (mtu - ipHlen) :: parts,?_,?_,?_⟩
          · have joined := Cut.more _ _ parts size cut
            rwa [position,List.take_append_drop] at joined
          · rw [next] at parted ⊢
            refine .cons ?_ parted
            rw [filled]
            exact carries true (by simp; omega)
          · rw [List.length_cons,List.length_cons,finished]
            omega
        · have all : min left (mtu - ipHlen) = left := by omega
          rw [all] at carries position size ⊢
          have ended : fragLoop iphdr mtu turns p' poff' (left - left) ((ofo + (mtu - ipHlen) / 8) % 65536) later = ([],.ok) := by
            rw [Nat.sub_self]
            cases turns with
            | zero => rfl
            | succ turns => rw [fragLoop,if_pos rfl]
          rw [List.take_of_length_le (by omega)] at carries
          rw [ended]
          refine ⟨[rest p poff],.last _ nonempty (by omega),.cons ?_ (.nil _ _),by simp⟩
          exact carries false (by simp; omega)

end

theorem rest_packet (p : Packet) : rest ((p.iphdr.bytes ++ p.first) :: p.next) ipHlen = p.data := by
  have header : p.iphdr.bytes.length = ipHlen := by simp [IpHdr.bytes,IpHdr.front,IpHdr.addresses,wordBytes,ipHlen]
  unfold rest Packet.data
  rw [List.headD_cons,List.drop_left' header,List.tail_cons]

theorem ip4Frag_sends (p : Packet) (mtu : Nat) (allocs : Allocs) (room : ipHlen + 8 ≤ mtu) (aligned : 8 ∣ mtu - ipHlen)
    (plain : p.iphdr.hl * 4 = ipHlen) (last : p.iphdr.mf = false) (begun : p.data ≠ [])
    (short : p.iphdr.off * 8 + p.data.length + ipHlen ≤ 65535) :
    Sends p.iphdr mtu p.iphdr.off p.data (ip4Frag p mtu allocs).1 (ip4Frag p mtu allocs).2 := by
  have sends := fragLoop_spec p.iphdr mtu room aligned p.data.length ((p.iphdr.bytes ++ p.first) :: p.next) ipHlen p.data.length
    p.iphdr.off allocs (Nat.le_refl _) (by rw [rest_packet]) (List.length_pos_iff.mpr begun) short
  rw [rest_packet] at sends
  rw [ip4Frag,if_neg (by simpa using plain),if_neg (by simp [last])]
  exact sends

theorem Parted.get {iphdr : IpHdr} {nfb ofo : Nat} {parts : List (List Byte)} {sent : List Sent} (parted : Parted iphdr nfb ofo parts sent)
    {k : Nat} {s : Sent} (here : sent[k]? = some s) :
    ∃ part, parts[k]? = some part ∧ Carries iphdr (ofo + k * nfb) (decide (k + 1 < parts.length)) part s := by
  induction parted generalizing k with
  | nil ofo parts => simp at here
  | cons carries later ih =>
    rename_i ofo part parts first sent
    cases k with
    | zero =>
      obtain rfl : first = s := by simpa using here
      refine ⟨part,rfl,?_⟩
      have more : (!parts.isEmpty) = decide (0 + 1 < (part :: parts).length) := by
        cases parts with
        | nil => rfl
        | cons => simp
      rw [← more,Nat.zero_mul,Nat.add_zero]
      exact carries
    | succ k =>
      obtain ⟨part',place,carries'⟩ := ih (by simpa using here)
      refine ⟨part',by simpa using place,?_⟩
      rw [List.length_cons,Nat.succ_mul,← Nat.add_assoc,Nat.add_right_comm]
      simpa using carries'

theorem samplePacket_short : ipHlen + [(1 : Byte),1,1,1].length + [[],[(2 : Byte),3,4,5],[6,7,8,9]].flatten.length ≤ 65535 := by decide

def samplePacket : Packet := ⟨⟨0x45,0,32,7,0x4000,64,17,0,1,2⟩,[1,1,1,1],[[],[2,3,4,5],[6,7,8,9]],samplePacket_short⟩

/-- The fragment as it comes in, in whatever pbufs. -/
structure Received (s : Sent) (f : Fragment) : Prop where
  iphdr : f.iphdr = s.iphdr
  data : f.data = s.next.flatten

theorem Received.piece {iphdr : IpHdr} {mtu : Nat} {whole : List Byte} {parts : List (List Byte)} {s : Sent} {f : Fragment} {k : Nat}
    (received : Received s f) (aligned : 8 ∣ mtu - ipHlen) (cut : Cut (mtu - ipHlen) whole parts) (plain : iphdr.hl * 4 = ipHlen)
    {part : List Byte} (place : parts[k]? = some part)
    (carries : Carries iphdr (0 + k * ((mtu - ipHlen) / 8)) (decide (k + 1 < parts.length)) part s) :
    Piece parts f k ∧ ∃ len offset chksum, f.iphdr = {iphdr with len := len, offset := offset, chksum := chksum} := by
  obtain ⟨len,offset,chksum,header⟩ := carries.other
  have inside : k < parts.length := (List.getElem?_eq_some_iff.mp place).1
  refine ⟨⟨?_,?_,?_,?_⟩,len,offset,chksum,received.iphdr.trans header⟩
  · rw [place,received.data,carries.data]
  · rw [Fragment.start,received.iphdr,carries.off,offsetOf_cut cut inside,Nat.zero_add,Nat.mul_assoc,Nat.div_mul_cancel aligned]
  · rw [received.iphdr,carries.mf,decide_eq_true_eq]
  · rw [received.iphdr,header]
    exact plain

theorem received_get {sent : List Sent} {fs : List Fragment} (received : List.Forall₂ Received sent fs) {k : Nat} {f : Fragment}
    (here : fs[k]? = some f) : ∃ s, sent[k]? = some s ∧ Received s f := by
  induction received generalizing k with
  | nil => simp at here
  | cons one _ ih =>
    cases k with
    | zero =>
      obtain rfl := Option.some.inj here
      exact ⟨_,rfl,one⟩
    | succ k => exact ih here

/-- The fragments of a packet, received in order, are the pieces of its data. -/
theorem received_pieces (p : Packet) (mtu : Nat) (allocs : Allocs) (sent : List Sent) (fs : List Fragment) (room : ipHlen + 8 ≤ mtu)
    (aligned : 8 ∣ mtu - ipHlen) (plain : p.iphdr.hl * 4 = ipHlen) (unfragmented : p.iphdr.off = 0 ∧ p.iphdr.mf = false)
    (long : mtu < p.data.length + ipHlen) (done : ip4Frag p mtu allocs = (sent,.ok)) (received : List.Forall₂ Received sent fs) :
    ∃ parts, parts.flatten = p.data ∧ WellCut parts ∧ parts.length = fs.length ∧
      ∀ (k : Nat) (f : Fragment), fs[k]? = some f → Piece parts f k ∧
        ∃ len offset chksum, f.iphdr = {p.iphdr with len := len, offset := offset, chksum := chksum} := by
  have size : ipHlen + p.data.length ≤ 65535 := by
    have := p.short
    rw [Packet.data,List.length_append]
    omega
  have begun : p.data ≠ [] := by
    rw [← List.length_pos_iff]
    omega
  obtain ⟨parts,cut,parted,finished⟩ := ip4Frag_sends p mtu allocs room aligned plain unfragmented.2 begun (by omega)
  rw [done] at parted finished
  have count : sent.length = parts.length := finished.mp rfl
  have two : 2 ≤ parts.length := by
    have bound := cut.count.2
    rcases Nat.lt_or_ge parts.length 2 with few | fine
    · have most : (mtu - ipHlen) * parts.length ≤ (mtu - ipHlen) * 1 := Nat.mul_le_mul_left _ (by omega)
      omega
    · exact fine
  refine ⟨parts,cut.flatten,⟨two,parts_filled (by omega) cut,by rw [cut.flatten]; omega⟩,by rw [← count,received.length_eq],?_⟩
  intro k f here
  obtain ⟨s,place,got⟩ := received_get received here
  obtain ⟨part,inside,carries⟩ := parted.get place
  rw [unfragmented.1] at carries
  exact got.piece aligned cut plain inside carries

/-- A fragment can come in as it was sent. -/
theorem Carries.received {iphdr : IpHdr} {ofo : Nat} {more : Bool} {part : List Byte} {s : Sent} (carries : Carries iphdr ofo more part s)
    (plain : iphdr.hl * 4 = ipHlen) (cut : ofo ≠ 0 ∨ more) : ∃ f, Received s f ∧ f.clen = s.next.length + 1 := by
  obtain ⟨len,offset,chksum,header⟩ := carries.other
  have trimmed : ([] : List Byte).length + s.next.flatten.length + s.iphdr.hl * 4 = s.iphdr.len.toNat := by
    have same : s.iphdr.hl = iphdr.hl := by rw [header]; rfl
    rw [carries.len,carries.data,same,plain,List.length_nil,Nat.zero_add]
  refine ⟨⟨0,s.iphdr,[],s.next,trimmed,?_⟩,⟨rfl,rfl⟩,rfl⟩
  rw [carries.off,carries.mf]
  exact cut

end Swip.Core

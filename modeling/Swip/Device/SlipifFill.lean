import Swip.Device.Slipif
import Swip.Library.Pieces
import Mathlib.Data.List.FinRange
import Mathlib.Data.List.Forall2

/-! How `slipif_rxbyte` fills a chain of pool pbufs. `Filling` relates the pointers `p` and
`q` and the index `i` to the bytes received so far: all pbufs of the chain are full, or
all but the last one, and that one is full up to `i`. -/
namespace Swip.Device
open Library.Pieces

variable {n : Nat}

def payloads (cells : Cells n (Option Byte)) : List (Option Byte) := cells.flatMap (·.2.payload)

@[simp] theorem payloads_nil : payloads ([] : Cells n (Option Byte)) = [] := rfl

@[simp] theorem payloads_cons (address : Fin n) (cell : Pbuf n (Option Byte)) (rest : Cells n (Option Byte)) :
    payloads ((address,cell) :: rest) = cell.payload ++ payloads rest := rfl

@[simp] theorem payloads_append (first second : Cells n (Option Byte)) :
    payloads (first ++ second) = payloads first ++ payloads second :=
  List.flatMap_append

/-- A chain of unshared pool pbufs of 96 bytes each, with their total lengths. -/
def Shaped : Cells n (Option Byte) → Prop
  | [] => True
  | (_,cell) :: rest =>
    (cell.len = 96 ∧ cell.payload.length = 96 ∧ cell.ref = 1 ∧ cell.type = .pool ∧
      cell.totLen = 96 * (rest.length + 1)) ∧ Shaped rest

def Uniform (cells : Cells n (Option Byte)) : Prop :=
  ∀ c ∈ cells, c.2.len = 96 ∧ c.2.payload.length = 96 ∧ c.2.ref = 1 ∧ c.2.type = .pool

theorem Uniform.tail {head : Fin n × Pbuf n (Option Byte)} {rest : Cells n (Option Byte)}
    (uniform : Uniform (head :: rest)) : Uniform rest := fun c member => uniform c (by simp [member])

theorem Uniform.left {first second : Cells n (Option Byte)} (uniform : Uniform (first ++ second)) :
    Uniform first := fun c member => uniform c (by simp [member])

theorem Uniform.cell {cells : Cells n (Option Byte)} (uniform : Uniform cells) {address : Fin n}
    {cell : Pbuf n (Option Byte)} (member : (address,cell) ∈ cells) : cell.len = 96 ∧ cell.payload.length = 96 :=
  ⟨(uniform _ member).1,(uniform _ member).2.1⟩

theorem Uniform.payloads_length {cells : Cells n (Option Byte)} (uniform : Uniform cells) :
    (payloads cells).length = 96 * cells.length := by
  induction cells with
  | nil => rfl
  | cons head rest ih =>
    obtain ⟨address,cell⟩ := head
    rw [payloads_cons,List.length_append,(uniform.cell List.mem_cons_self).2,ih uniform.tail,List.length_cons]
    omega

theorem Uniform.bytes {cells : Cells n (Option Byte)} (uniform : Uniform cells) :
    bytes cells = payloads cells := by
  induction cells with
  | nil => rfl
  | cons head rest ih =>
    obtain ⟨address,cell⟩ := head
    obtain ⟨len,payload⟩ := uniform.cell List.mem_cons_self
    rw [bytes_cons,payloads_cons,ih uniform.tail,List.take_of_length_le (by omega)]

theorem Uniform.cut {full : Cells n (Option Byte)} (uniform : Uniform full) (last : List (Option Byte))
    (begun : last ≠ []) (fits : last.length ≤ 96) : Cut 96 (payloads full ++ last) (contents full ++ [last]) := by
  rw [← uniform.bytes,← contents_flatten]
  apply cut_filled _ last _ begun fits
  intro piece member
  obtain ⟨⟨address,cell⟩,inside,rfl⟩ := List.mem_map.mp member
  obtain ⟨len,payload⟩ := uniform.cell inside
  rw [List.length_take_of_le (by omega),len]

theorem Uniform.lens {cells : Cells n (Option Byte)} (uniform : Uniform cells) :
    lens cells = 96 * cells.length := by
  induction cells with
  | nil => rfl
  | cons head rest ih =>
    obtain ⟨address,cell⟩ := head
    rw [lens_cons,(uniform.cell List.mem_cons_self).1,ih uniform.tail,List.length_cons]
    omega

theorem Shaped.uniform {cells : Cells n (Option Byte)} (shaped : Shaped cells) : Uniform cells := by
  induction cells with
  | nil => simp [Uniform]
  | cons head rest ih =>
    obtain ⟨len,payload,ref,type,_⟩ := shaped.1
    intro c member
    rcases List.mem_cons.mp member with rfl | later
    · exact ⟨len,payload,ref,type⟩
    · exact ih shaped.2 c later

theorem Shaped.head {mem : Memory n (Option Byte)} {q : Fin n} {cells : Cells n (Option Byte)}
    (shaped : Shaped cells) (chain : mem.Chain (some q) cells) :
    ∃ first, mem.cell q = some first ∧ first.totLen = 96 * cells.length := by
  cases chain with
  | cons _ cell rest read _ => exact ⟨cell,read,shaped.1.2.2.2.2⟩

theorem Shaped.last {full : Cells n (Option Byte)} {l : Fin n} {last : Pbuf n (Option Byte)}
    (shaped : Shaped (full ++ [(l,last)])) : last.len = 96 ∧ last.totLen = 96 := by
  induction full with
  | nil => exact ⟨shaped.1.1,shaped.1.2.2.2.2⟩
  | cons head full ih => exact ih shaped.2

theorem shaped_rewrite (full : Cells n (Option Byte)) (l : Fin n) (last changed : Pbuf n (Option Byte))
    (shaped : Shaped (full ++ [(l,last)])) (len : changed.len = last.len)
    (payload : changed.payload.length = last.payload.length) (ref : changed.ref = last.ref)
    (type : changed.type = last.type) (totLen : changed.totLen = last.totLen) :
    Shaped (full ++ [(l,changed)]) := by
  induction full with
  | nil =>
    obtain ⟨⟨a,b,c,d,e⟩,_⟩ := shaped
    exact ⟨⟨len.trans a,payload.trans b,ref.trans c,type.trans d,totLen.trans e⟩,trivial⟩
  | cons head full ih => exact ⟨by simpa using shaped.1,ih shaped.2⟩

theorem shaped_grow (before : Cells n (Option Byte)) (l t : Fin n) (last tail : Pbuf n (Option Byte))
    (shaped : Shaped (before ++ [(l,last)])) (alone : Shaped [(t,tail)])
    (small : 96 * (before.length + 2) < 65536) :
    Shaped (before.map (Prod.map id (bump 96)) ++
      (l,{bump 96 last with next := some t}) :: [(t,tail)]) := by
  induction before with
  | nil =>
    obtain ⟨⟨len,payload,ref,type,total⟩,_⟩ := shaped
    refine ⟨⟨len,payload,ref,type,?_⟩,alone⟩
    simp only [bump,total,List.length_nil,List.length_cons]
  | cons head before ih =>
    obtain ⟨address,cell⟩ := head
    obtain ⟨len,payload,ref,type,total⟩ := shaped.1
    simp only [List.length_cons] at small
    refine ⟨⟨len,payload,ref,type,?_⟩,ih shaped.2 (by omega)⟩
    change cell.totLen = 96 * ((before ++ [(l,last)]).length + 1) at total
    change (cell.totLen + 96) % 65536 = 96 * ((before.map _ ++ (l,_) :: [(t,tail)]).length + 1)
    simp only [List.length_append,List.length_cons,List.length_nil,List.length_map] at total ⊢
    omega

theorem bump_payloads (grow : Nat) (cells : Cells n (Option Byte)) :
    payloads (cells.map (Prod.map id (bump grow))) = payloads cells := by
  induction cells with
  | nil => rfl
  | cons head rest ih =>
    obtain ⟨address,cell⟩ := head
    simp only [List.map_cons,Prod.map,payloads_cons,ih]
    rfl

inductive Filling (mem : Memory n (Option Byte)) (q : Option (Fin n)) :
    Option (Fin n) → Nat → List Byte → Cells n (Option Byte) → Prop
  | filled (cells : Cells n (Option Byte)) (received : List Byte) (chain : mem.Chain q cells)
      (shaped : Shaped cells) (content : payloads cells = received.map some) :
      Filling mem q none 0 received cells
  | filling (full : Cells n (Option Byte)) (l : Fin n) (last : Pbuf n (Option Byte)) (before current : List Byte)
      (chain : mem.Chain q (full ++ [(l,last)])) (shaped : Shaped (full ++ [(l,last)]))
      (content : payloads full = before.map some)
      (written : last.payload = current.map some ++ List.replicate (96 - current.length) none)
      (begun : current ≠ []) (room : current.length < 96) :
      Filling mem q (some l) current.length (before ++ current) (full ++ [(l,last)])

private theorem set_next (current : List Byte) (c : Byte) (room : current.length < 96) :
    (current.map some ++ List.replicate (96 - current.length) none).set current.length (some c) =
      (current ++ [c]).map some ++ List.replicate (96 - (current.length + 1)) none := by
  obtain ⟨k,split⟩ : ∃ k, 96 - current.length = k + 1 := ⟨95 - current.length,by omega⟩
  have rest : 96 - (current.length + 1) = k := by omega
  rw [split,rest,List.set_append_right _ _ (by simp)]
  simp [List.replicate_succ]

theorem slipifStore_filling (net : Netif n) (full : Cells n (Option Byte)) (l : Fin n)
    (last : Pbuf n (Option Byte)) (before current : List Byte) (c : Byte)
    (chain : net.mem.Chain net.priv.q (full ++ [(l,last)])) (shaped : Shaped (full ++ [(l,last)]))
    (content : payloads full = before.map some)
    (written : last.payload = current.map some ++ List.replicate (96 - current.length) none)
    (room : current.length < 96) (index : net.priv.i = current.length)
    (count : net.priv.recved = before.length + current.length) (limit : net.priv.recved ≤ slipMaxSize) :
    ∃ after changed, slipifStore net l c = some after ∧
      Filling after.mem after.priv.q after.priv.p after.priv.i (before ++ current ++ [c]) (full ++ [(l,changed)]) ∧
      after.priv.recved = net.priv.recved + 1 ∧
      after.priv.state = net.priv.state ∧ after.linkDrop = net.linkDrop ∧
      SameOutside net.mem after.mem [l] ∧ after.mem.tab = net.mem.tab := by
  have read : net.mem.cell l = some last := Library.Heap.Chain.read chain (by simp)
  have ended : last.next = none := by
    have tail := Library.Heap.Chain.of_append full chain
    cases tail with
    | cons _ _ _ _ tail => exact tail.link_none
  obtain ⟨len,payload⟩ := shaped.uniform.cell (List.mem_append_right full List.mem_cons_self)
  let changed : Pbuf n (Option Byte) := {last with payload := last.payload.set net.priv.i (some c)}
  have relinked : (net.mem.write l changed).Chain net.priv.q (full ++ [(l,changed)]) :=
    Library.Heap.Chain.rewrite chain changed rfl
  have reshaped : Shaped (full ++ [(l,changed)]) :=
    shaped_rewrite full l last changed shaped rfl (by simp [changed]) rfl rfl rfl
  have rewritten : changed.payload =
      (current ++ [c]).map some ++ List.replicate (96 - (current.length + 1)) none := by
    change last.payload.set net.priv.i (some c) = _
    rw [written,index,set_next current c room]
  have same : SameOutside net.mem (net.mem.write l changed) [l] := by
    intro a absent
    exact write_other _ _ _ _ (by simpa using absent)
  have small : net.priv.recved + 1 < 65536 := by unfold slipMaxSize at limit; omega
  have inside : net.priv.i < last.payload.length := by omega
  by_cases complete : current.length + 1 = 96
  · let priv : SlipifPriv n := {net.priv with p := none, i := 0, recved := net.priv.recved + 1}
    refine ⟨{net with mem := net.mem.write l changed, priv := priv},changed,?_,?_,
      rfl,rfl,rfl,same,rfl⟩
    · have passed : (net.priv.i + 1) % 65536 ≥ last.len := by omega
      simp only [slipifStore,if_pos limit,read,Option.bind_eq_bind,Option.bind_some,if_pos inside,if_pos passed,
        ended,Nat.mod_eq_of_lt small]
      simp only [changed,ended]
      rfl
    · refine .filled _ _ relinked reshaped ?_
      simp [content,rewritten,complete]
  · let priv : SlipifPriv n := {net.priv with p := some l, i := net.priv.i + 1, recved := net.priv.recved + 1}
    refine ⟨{net with mem := net.mem.write l changed, priv := priv},changed,?_,?_,
      rfl,rfl,rfl,same,rfl⟩
    · have next : (net.priv.i + 1) % 65536 = net.priv.i + 1 := by omega
      have under : ¬ net.priv.i + 1 ≥ last.len := by omega
      simp only [slipifStore,if_pos limit,read,Option.bind_eq_bind,Option.bind_some,if_pos inside,next,if_neg under,
        Nat.mod_eq_of_lt small]
      rfl
    · have filling : Filling (net.mem.write l changed) net.priv.q _ _ _ _ := .filling full l changed before
        (current ++ [c]) relinked reshaped content (by simpa using rewritten) (by simp)
        (by simp; omega)
      simpa [index,priv] using filling

structure Collecting (net : Netif n) (received : List Byte) (cells : Cells n (Option Byte)) : Prop where
  filling : Filling net.mem net.priv.q net.priv.p net.priv.i received cells
  count : net.priv.recved = received.length
  bounded : received.length ≤ slipMaxSize + 1

/-- The pbufs taken for the packet come out of the pool, everything else stays as it was. -/
structure Extended (net after : Netif n) (cells others : Cells n (Option Byte)) : Prop where
  state : after.priv.state = net.priv.state
  drop : after.linkDrop = net.linkDrop
  same : SameOutside net.mem after.mem (net.mem.tab ++ ids cells)
  owned : (after.mem.tab ++ ids others).Perm (net.mem.tab ++ ids cells)

def freshPbuf : Pbuf n (Option Byte) := ⟨none,List.replicate 96 none,96,96,.pool,1⟩

theorem freshPbuf_shaped (a : Fin n) : Shaped [(a,freshPbuf)] := ⟨⟨rfl,by simp [freshPbuf],rfl,rfl,rfl⟩,trivial⟩

theorem slipifAlloc (mem : Memory n (Option Byte)) (a : Fin n) (tab : List (Fin n)) (free : mem.tab = a :: tab) :
    pbufAlloc mem none .link slipifPbufSize = some (Memory.write {mem with tab := tab} a freshPbuf,some a) := by
  rw [pbufAlloc_single mem none .link slipifPbufSize (by decide),free]
  rfl

theorem slipifTake_first (net : Netif n) (c : Byte) (a : Fin n) (tab : List (Fin n))
    (free : net.mem.tab = a :: tab) (p : net.priv.p = none) (q : net.priv.q = none) (index : net.priv.i = 0)
    (count : net.priv.recved = 0) :
    ∃ after cells, slipifTake net c = some after ∧ Collecting after [c] cells ∧ Extended net after [] cells := by
  let mem := Memory.write {net.mem with tab := tab} a freshPbuf
  let start : Netif n := {net with mem := mem, priv := {net.priv with q := some a}}
  have chain : start.mem.Chain start.priv.q ([] ++ [(a,freshPbuf)]) := .cons _ _ _ (by simp [start,mem]) .nil
  obtain ⟨after,changed,stored,filling,recved,state,drop,same,pool⟩ := slipifStore_filling start [] a freshPbuf
    [] [] c chain (freshPbuf_shaped a) rfl rfl (by simp) index count (by simp [start,count,slipMaxSize])
  refine ⟨after,[(a,changed)],?_,⟨filling,by simp [recved,start,count],by simp [slipMaxSize]⟩,
    ⟨state,drop,?_,?_⟩⟩
  · simp only [slipifTake,p,slipifAlloc net.mem a tab free,Option.bind_eq_bind,Option.bind_some,q]
    exact stored
  · intro b absent
    have other : b ≠ a := by
      rintro rfl
      exact absent (by simp [free])
    rw [same b (by simpa using other)]
    exact write_other _ _ _ _ other
  · rw [pool,free]
    change (tab ++ [a]).Perm (a :: tab ++ [])
    rw [List.append_nil]
    exact List.perm_append_singleton a tab

theorem slipifTake_next (net : Netif n) (c : Byte) (a : Fin n) (tab : List (Fin n)) (received : List Byte)
    (full : Cells n (Option Byte)) (l : Fin n) (last : Pbuf n (Option Byte)) (free : net.mem.tab = a :: tab)
    (fresh : a ∉ ids (full ++ [(l,last)])) (p : net.priv.p = none) (index : net.priv.i = 0)
    (chain : net.mem.Chain net.priv.q (full ++ [(l,last)])) (shaped : Shaped (full ++ [(l,last)]))
    (content : payloads (full ++ [(l,last)]) = received.map some) (count : net.priv.recved = received.length)
    (limit : received.length ≤ slipMaxSize) :
    ∃ after cells, slipifTake net c = some after ∧ Collecting after (received ++ [c]) cells ∧
      Extended net after (full ++ [(l,last)]) cells := by
  obtain ⟨h,q⟩ := chain.link_some (by simp)
  have size : 96 * (full.length + 1) = received.length := by
    have length := shaped.uniform.payloads_length
    rw [content] at length
    simpa using length.symm
  have small : 96 * (full.length + 2) < 65536 := by unfold slipMaxSize at limit; omega
  let mem := Memory.write {net.mem with tab := tab} a freshPbuf
  have kept : mem.Chain (some h) (full ++ [(l,last)]) := by
    rw [← q]
    exact Library.Heap.Chain.update_outside chain a _ fresh
  have ended : last.totLen = last.len := shaped.last.2.trans shaped.last.1.symm
  obtain ⟨joined,catted,linked,outside,pool,_⟩ := pbufCat_chain mem h a full l last freshPbuf [] kept
    (.cons _ _ _ (by simp [mem]) .nil) (by
      intro b member single
      obtain rfl : b = a := by simpa using single
      exact fresh member) ended
  let start : Netif n := {net with mem := joined}
  let longer : Cells n (Option Byte) := full.map (Prod.map id (bump 96)) ++ [(l,{bump 96 last with next := some a})]
  have split : longer ++ [(a,freshPbuf)] = full.map (Prod.map id (bump 96)) ++
      (l,{bump 96 last with next := some a}) :: [(a,freshPbuf)] := by simp [longer]
  have grown : Shaped (longer ++ [(a,freshPbuf)]) := by
    rw [split]
    exact shaped_grow full l a last freshPbuf shaped (freshPbuf_shaped a) small
  have content : payloads longer = received.map some := by
    rw [← content]
    simp only [longer,payloads_append,bump_payloads]
    rfl
  obtain ⟨after,changed,stored,filling,recved,state,drop,same,tabs⟩ := slipifStore_filling start longer a freshPbuf
    received [] c (by rw [split,q]; exact linked) grown content rfl (by simp) index
    (by simp [start,count]) (by simpa [start,count] using limit)
  refine ⟨after,longer ++ [(a,changed)],?_,⟨by simpa using filling,?_,?_⟩,⟨state,drop,?_,?_⟩⟩
  · simp only [slipifTake,p,slipifAlloc net.mem a tab free,Option.bind_eq_bind,Option.bind_some,q,mem] at catted ⊢
    simp only [catted,Option.bind_some]
    exact stored
  · simp [recved,start,count]
  · simpa using limit
  · intro b absent
    simp only [free,List.cons_append,List.mem_cons,List.mem_append,not_or] at absent
    rw [same b (by simpa using absent.1),outside b absent.2.2]
    exact write_other _ _ _ _ absent.1
  · rw [tabs,free]
    change (joined.tab ++ ids (longer ++ [(a,changed)])).Perm _
    rw [pool]
    simp only [mem,write_tab,longer,ids_append,bump_ids,ids_cons,ids_nil]
    rw [← List.append_assoc tab]
    exact List.perm_append_singleton a _

/-- One payload byte: it is appended, or dropped past the limit, and a pbuf is taken from the
pool exactly when the packet has none with room. -/
theorem slipifTake_collecting (net : Netif n) (c : Byte) (received : List Byte) (cells : Cells n (Option Byte))
    (collecting : Collecting net received cells) (apart : (net.mem.tab ++ ids cells).Nodup)
    (available : net.priv.p = none → net.mem.tab ≠ []) :
    ∃ after others, slipifTake net c = some after ∧
      Collecting after ((received ++ [c]).take (slipMaxSize + 1)) others ∧ Extended net after cells others := by
  obtain ⟨filling,count,bounded⟩ := collecting
  generalize pointer : net.priv.p = p at filling available
  generalize index : net.priv.i = i at filling
  cases filling with
  | filled cells received chain shaped content =>
    obtain ⟨a,tab,free⟩ := List.exists_cons_of_ne_nil (available rfl)
    have length : 96 * cells.length = received.length := by
      rw [← shaped.uniform.payloads_length,content,List.length_map]
    have limit : received.length ≤ slipMaxSize := by unfold slipMaxSize at *; omega
    rw [List.take_of_length_le (by simpa using limit)]
    rcases List.eq_nil_or_concat cells with rfl | ⟨full,⟨l,last⟩,rfl⟩
    · obtain rfl : received = [] := List.eq_nil_of_length_eq_zero (by simpa using length.symm)
      exact slipifTake_first net c a tab free pointer chain.link_none index count
    · rw [List.concat_eq_append] at *
      have fresh : a ∉ ids (full ++ [(l,last)]) := by
        rw [free] at apart
        intro member
        exact (List.nodup_cons.mp apart).1 (List.mem_append_right _ member)
      exact slipifTake_next net c a tab received full l last free fresh pointer index chain shaped content
        count limit
  | filling full l last before current chain shaped content written begun room =>
    have taken : slipifTake net c = slipifStore net l c := by simp [slipifTake,pointer]
    rw [taken]
    rcases Nat.lt_or_ge slipMaxSize net.priv.recved with beyond | limit
    · have full' : (before ++ current).length = slipMaxSize + 1 := by omega
      refine ⟨net,_,?_,?_,⟨rfl,rfl,fun _ _ => rfl,List.Perm.refl _⟩⟩
      · simp [slipifStore,Nat.not_le.mpr beyond,← pointer]
      · rw [List.take_append_of_le_length (by omega),List.take_of_length_le (by omega)]
        refine ⟨?_,count,bounded⟩
        rw [pointer,index]
        exact .filling full l last before current chain shaped content written begun room
    · obtain ⟨after,changed,stored,filling,recved,state,drop,same,tab⟩ := slipifStore_filling net full l last
        before current c chain shaped content written room index (by simpa using count) limit
      refine ⟨after,full ++ [(l,changed)],stored,⟨?_,?_,?_⟩,⟨state,drop,?_,?_⟩⟩
      · rw [List.take_of_length_le (by simp at count ⊢; omega)]
        exact filling
      · simp at count ⊢
        omega
      · exact List.length_take_le _ _
      · intro b absent
        apply same
        intro member
        exact absent (by simp at member; simp [member])
      · simp [tab]

theorem pbufRealloc_collected (net : Netif n) (received : List Byte) (cells : Cells n (Option Byte))
    (collecting : Collecting net received cells) (nonempty : received ≠ []) :
    ∃ mem packet, pbufRealloc net.mem net.priv.q net.priv.recved = some mem ∧ mem.Chain net.priv.q packet ∧
      Cut 96 (received.map some) (contents packet) ∧ ids packet = ids cells ∧
      (∀ c ∈ packet, c.2.ref = 1 ∧ c.2.type = .pool) ∧
      mem.tab = net.mem.tab ∧ SameOutside net.mem mem (ids cells) := by
  obtain ⟨filling,count,bounded⟩ := collecting
  generalize net.priv.p = p at filling
  generalize net.priv.i = i at filling
  cases filling with
  | filled cells received chain shaped content =>
    have length : 96 * cells.length = received.length := by
      rw [← shaped.uniform.payloads_length,content,List.length_map]
    have taken : cells ≠ [] := by
      rintro rfl
      exact nonempty (List.eq_nil_of_length_eq_zero (by simpa using length.symm))
    refine ⟨net.mem,cells,?_,chain,?_,rfl,?_,rfl,fun _ _ => rfl⟩
    · obtain ⟨q,link⟩ := chain.link_some taken
      rw [link] at chain ⊢
      obtain ⟨first,read,total⟩ := shaped.head chain
      have enough : net.priv.recved ≥ first.totLen := by omega
      simp [pbufRealloc,read,enough]
    · obtain ⟨full,⟨l,last⟩,rfl⟩ := (List.eq_nil_or_concat cells).resolve_left taken
      rw [List.concat_eq_append] at shaped content ⊢
      obtain ⟨len,payload⟩ := shaped.uniform.cell (List.mem_append_right full List.mem_cons_self)
      have filled := shaped.uniform.left.cut last.payload (by rw [← List.length_pos_iff]; omega) (by omega)
      rw [← content,payloads_append,contents_append,contents_single,List.take_of_length_le (by omega)]
      simpa using filled
    · intro c member
      exact (shaped.uniform c member).2.2
  | filling full l last before current chain shaped content written begun room =>
    obtain ⟨q,link⟩ := chain.link_some (by simp)
    rw [link] at chain
    have whole := shaped.uniform.left
    have size : lens full = before.length := by
      rw [whole.lens,← whole.payloads_length,content,List.length_map]
    obtain ⟨first,head,total⟩ := shaped.head chain
    have fullSize : lens full = 96 * full.length := whole.lens
    have positive : 0 < current.length := List.length_pos_iff.mpr begun
    obtain ⟨len,_⟩ := shaped.last
    simp only [List.length_append,List.length_singleton] at count total
    obtain ⟨grow,after,done,trimmed,same,tab,_⟩ := pbufRealloc_last net.mem q full l last first net.priv.recved
      chain head (by omega) (by omega) (by omega)
    rw [link]
    refine ⟨after,_,done,trimmed,?_,?_,?_,tab,same⟩
    · have rest : net.priv.recved - lens full = current.length := by omega
      have ended : last.payload.take current.length = current.map some := by
        rw [written,List.take_append_of_le_length (by simp),List.take_of_length_le (by simp)]
      rw [contents_append,bump_contents,contents_single,rest,ended,List.map_append,← content]
      exact whole.cut (current.map some) (by simpa using begun) (by simpa using room.le)
    · simp only [ids_append,bump_ids,ids_cons,ids_nil]
    · intro c member
      rw [List.mem_append,List.mem_map,List.mem_singleton] at member
      rcases member with ⟨before,inside,rfl⟩ | rfl
      · exact (whole before inside).2.2
      · exact (shaped.uniform (l,last) (by simp)).2.2

end Swip.Device

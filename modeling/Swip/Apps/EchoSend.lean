import Swip.Apps.Echo

/-! The echo server's queue: what chopping its first pbuf, sending from it and chaining
another packet to it do. -/
namespace Swip.Apps
open Device

variable {n : Nat}

/-- A pbuf of the queue: one reference from the pbuf before it, and one more if it was the
first of an appended packet. -/
def QueuedCell (cell : Pbuf n Byte) : Prop :=
  1 ≤ cell.ref ∧ cell.ref ≤ 2 ∧ cell.len ≤ cell.payload.length

private theorem dealloc_write (mem : Memory n Byte) (ptr : Fin n) (cell : Pbuf n Byte) (type : PbufType) :
    (mem.write ptr cell).dealloc ptr type = mem.dealloc ptr type := by
  simp [Memory.dealloc,Memory.write]

theorem freeHard_last (mem : Memory n Byte) (ptr : Fin n) (cell : Pbuf n Byte) (read : mem.cell ptr = some cell)
    (last : cell.next = none) (fuel : Nat) (positive : 1 ≤ cell.ref) (enough : cell.ref ≤ fuel) :
    freeHard fuel mem ptr = some (mem.dealloc ptr cell.type) := by
  induction fuel generalizing mem cell with
  | zero => omega
  | succ fuel ih =>
    by_cases one : cell.ref = 1
    · simp [freeHard,pbufFree,freeLoop,read,one,last]
    · have shared : ¬ cell.ref - 1 = 0 := by omega
      have nonzero : ¬ cell.ref = 0 := by omega
      have again := ih (mem.write ptr {cell with ref := cell.ref - 1}) {cell with ref := cell.ref - 1} (by simp) last
        (by simp; omega) (by simp; omega)
      simp only [dealloc_write] at again
      simp [freeHard,pbufFree,freeLoop,read,nonzero,shared,again]

theorem freeHard_more (mem : Memory n Byte) (ptr q : Fin n) (cell following : Pbuf n Byte)
    (read : mem.cell ptr = some cell) (next : cell.next = some q) (other : q ≠ ptr) (found : mem.cell q = some following)
    (shared : 2 ≤ following.ref) (fuel : Nat) (positive : 1 ≤ cell.ref) (enough : cell.ref ≤ fuel) :
    freeHard fuel mem ptr =
      some ((mem.dealloc ptr cell.type).write q {following with ref := following.ref - 1}) := by
  induction fuel generalizing mem cell with
  | zero => omega
  | succ fuel ih =>
    by_cases one : cell.ref = 1
    · have kept : (mem.dealloc ptr cell.type).cell q = some following := by
        rw [← found]
        exact Function.update_of_ne other _ _
      have nonzero : ¬ following.ref = 0 := by omega
      have more : ¬ following.ref - 1 = 0 := by omega
      have walk : freeLoop n (mem.dealloc ptr cell.type) (some q) 1 =
          some ((mem.dealloc ptr cell.type).write q {following with ref := following.ref - 1},1) := by
        cases n with
        | zero => exact q.elim0
        | succ n => simp [freeLoop,kept,nonzero,more]
      simp [freeHard,pbufFree,freeLoop,read,one,next,walk]
    · have shared : ¬ cell.ref - 1 = 0 := by omega
      have nonzero : ¬ cell.ref = 0 := by omega
      have again := ih (mem.write ptr {cell with ref := cell.ref - 1}) {cell with ref := cell.ref - 1} (by simp) next
        (by rw [write_other _ _ _ _ other,found]) (by simp; omega) (by simp; omega)
      simp only [dealloc_write] at again
      simp [freeHard,pbufFree,freeLoop,read,nonzero,shared,again]

/-- Chopping deallocates the first pbuf and leaves everything else as it was. -/
theorem chop_first (mem : Memory n Byte) (ptr : Fin n) (cell : Pbuf n Byte) (rest : Cells n Byte)
    (chain : mem.Chain (some ptr) ((ptr,cell) :: rest)) (valid : ∀ c ∈ (ptr,cell) :: rest, QueuedCell c.2) :
    chop mem ptr cell.next = some (mem.dealloc ptr cell.type) := by
  have distinct := Library.Heap.Chain.nodup chain
  obtain ⟨positive,few,_⟩ := valid (ptr,cell) (by simp)
  cases chain with
  | cons _ _ _ read tail =>
    cases rest with
    | nil =>
      have last := tail.link_none
      simp only [chop,last,pbufRef,Option.bind_eq_bind,Option.bind_some]
      exact freeHard_last mem ptr cell read last 65536 positive (by simp at few; omega)
    | cons head rest =>
      obtain ⟨q,following⟩ := head
      obtain ⟨least,most,_⟩ := valid (q,following) (by simp)
      obtain ⟨r,link⟩ := tail.link_some (by simp)
      rw [link] at tail
      cases tail with
      | cons _ _ _ found _ =>
        have other : q ≠ ptr := by
          rintro rfl
          simp at distinct
        change following.ref ≤ 2 at most
        change 1 ≤ following.ref at least
        have count : (following.ref + 1) % 65536 = following.ref + 1 := by omega
        have freed := freeHard_more (mem.write q {following with ref := following.ref + 1}) ptr q cell
          {following with ref := following.ref + 1} (by rw [write_other _ _ _ _ other.symm,read]) link other (by simp)
          (by simp; omega) 65536 positive (by simp at few; omega)
        simp only [chop,link,pbufRef,found,Option.bind_eq_bind,Option.bind_some,count]
        rw [freed,Option.some.injEq]
        have back : Function.update (Function.update (Function.update mem.cell q
            (some {following with ref := following.ref + 1})) ptr none) q (some following) =
            Function.update mem.cell ptr none := by
          funext a
          by_cases here : a = q
          · subst here
            rw [Function.update_self,Function.update_of_ne other,found]
          · rw [Function.update_of_ne here]
            by_cases there : a = ptr
            · rw [there,Function.update_self,Function.update_self]
            · rw [Function.update_of_ne there,Function.update_of_ne here,Function.update_of_ne there]
        simp only [Memory.dealloc,Memory.write,Nat.add_sub_cancel,back]

theorem echoSendTurn_first (mem : Memory n Byte) (p : Option (Fin n)) (written : List Byte) (credited : Nat)
    (write : Nat × ErrT) (ptr : Fin n) (cell : Pbuf n Byte) (rest : Cells n Byte)
    (chain : mem.Chain p ((ptr,cell) :: rest)) (valid : ∀ c ∈ (ptr,cell) :: rest, QueuedCell c.2) :
    echoSendTurn ⟨mem,p,written,credited⟩ write = some (if cell.len ≤ write.1 ∧ write.2 = .ok then
      some ⟨mem.dealloc ptr cell.type,cell.next,written ++ cell.payload.take cell.len,credited + cell.len⟩
      else none) := by
  have read := Library.Heap.Chain.read chain (List.mem_cons_self ..)
  obtain ⟨q,link⟩ := chain.link_some (by simp)
  rw [link] at chain
  obtain rfl : q = ptr := by cases chain; rfl
  have chopped := chop_first mem q cell rest chain valid
  simp only [echoSendTurn,link,read,Option.bind_eq_bind,Option.bind_some,chopped]
  split_ifs <;> rfl

theorem echoSendLoop_queue (fuel : Nat) (mem : Memory n Byte) (p : Option (Fin n)) (written : List Byte) (credited : Nat)
    (writes : List (Nat × ErrT)) (cells : Cells n Byte) (chain : mem.Chain p cells)
    (valid : ∀ c ∈ cells, QueuedCell c.2) (enough : cells.length < fuel) :
    ∃ after q sent rest, echoSendLoop fuel ⟨mem,p,written,credited⟩ writes =
        some ⟨after,q,written ++ bytes sent,credited + (bytes sent).length⟩ ∧
      cells = sent ++ rest ∧ after.Chain q rest ∧ after.freed = mem.freed ++ ids sent ∧
      SameOutside mem after (ids sent) ∧ ∀ a ∈ ids sent, after.cell a = none := by
  induction cells generalizing fuel mem p written credited writes with
  | nil =>
    cases chain
    cases fuel with
    | zero => simp at enough
    | succ fuel =>
      exact ⟨mem,none,[],[],by simp [echoSendLoop,echoSendTurn],rfl,.nil,by simp,fun _ _ => rfl,by simp⟩
  | cons head rest ih =>
    obtain ⟨ptr,cell⟩ := head
    cases fuel with
    | zero => simp at enough
    | succ fuel =>
      have turn := echoSendTurn_first mem p written credited (nextWrite writes) ptr cell rest chain valid
      split_ifs at turn with sends
      · have distinct := Library.Heap.Chain.nodup chain
        have outside : ptr ∉ ids rest := (List.nodup_cons.mp distinct).1
        have tail : (mem.dealloc ptr cell.type).Chain cell.next rest := by
          cases chain with
          | cons _ _ _ _ tail => exact Library.Heap.Chain.update_outside tail ptr none outside
        obtain ⟨after,q,sent,left,done,rfl,linked,freed,same,gone⟩ := ih fuel (mem.dealloc ptr cell.type) cell.next
          (written ++ cell.payload.take cell.len) (credited + cell.len) writes.tail tail
          (fun c member => valid c (by simp [member])) (by simpa using enough)
        obtain ⟨_,_,long⟩ := valid (ptr,cell) (by simp)
        change cell.len ≤ cell.payload.length at long
        refine ⟨after,q,(ptr,cell) :: sent,left,?_,rfl,linked,?_,?_,?_⟩
        · simp only [echoSendLoop,turn,Option.bind_eq_bind,Option.bind_some,done,bytes_cons,List.length_append,
            List.length_take_of_le long,List.append_assoc,Nat.add_assoc]
        · simp [freed,Memory.dealloc]
        · intro a absent
          simp only [ids_cons,List.mem_cons,not_or] at absent
          rw [same a absent.2]
          exact Function.update_of_ne absent.1 _ _
        · intro a member
          rcases List.mem_cons.mp member with rfl | later
          · rw [same a (fun inside => outside (by simp [inside]))]
            exact Function.update_self _ _ _
          · exact gone a later
      · refine ⟨mem,p,[],(ptr,cell) :: rest,?_,rfl,chain,by simp,fun _ _ => rfl,by simp⟩
        simp [echoSendLoop,turn]

/-- The chain `es->p`: its last pbuf's total length is its own, as `pbuf_cat` demands. -/
structure Queue (mem : Memory n Byte) (p : Option (Fin n)) (cells : Cells n Byte) : Prop where
  chain : mem.Chain p cells
  valid : ∀ c ∈ cells, QueuedCell c.2
  ended : ∀ before l last, cells = before ++ [(l,last)] → last.totLen = last.len

theorem Queue.empty (mem : Memory n Byte) : Queue mem none [] := ⟨.nil,by simp,by simp⟩

theorem Queue.frame {mem other : Memory n Byte} {p : Option (Fin n)} {cells : Cells n Byte} (queue : Queue mem p cells)
    (agree : ∀ a ∈ ids cells, other.cell a = mem.cell a) : Queue other p cells :=
  ⟨queue.chain.frame agree,queue.valid,queue.ended⟩

theorem Queue.rest {mem after : Memory n Byte} {p q : Option (Fin n)} {sent rest : Cells n Byte}
    (queue : Queue mem p (sent ++ rest)) (chain : after.Chain q rest) : Queue after q rest :=
  ⟨chain,fun c member => queue.valid c (by simp [member]),fun before l last split =>
    queue.ended (sent ++ before) l last (by simp [split])⟩

theorem Queue.append {mem : Memory n Byte} {ptr p : Fin n} {cells more : Cells n Byte}
    (queue : Queue mem (some ptr) cells) (packet : Queue mem (some p) more) (unshared : ∀ c ∈ more, c.2.ref = 1)
    (apart : ∀ a ∈ ids cells, a ∉ ids more) :
    ∃ after joined, pbufChain mem ptr p = some after ∧ Queue after (some ptr) joined ∧
      bytes joined = bytes cells ++ bytes more ∧ ids joined = ids cells ++ ids more ∧
      SameOutside mem after (ids cells ++ ids more) ∧ after.freed = mem.freed := by
  have nonempty : cells ≠ [] := by
    rintro rfl
    cases queue.chain
  obtain ⟨before,⟨l,last⟩,rfl⟩ := (List.eq_nil_or_concat cells).resolve_left nonempty
  rw [List.concat_eq_append] at *
  obtain ⟨⟨t,tail⟩,others,rfl⟩ := List.exists_cons_of_ne_nil (show more ≠ [] by rintro rfl; cases packet.chain)
  obtain rfl : p = t := by cases packet.chain; rfl
  obtain ⟨middle,catted,linked,same,_,freed⟩ := pbufCat_chain mem ptr p before l last tail others queue.chain
    packet.chain apart (queue.ended before l last rfl)
  have found : middle.cell p = some tail := linked.read (by simp)
  have one : tail.ref = 1 := unshared (p,tail) (by simp)
  let front : Cells n Byte := before.map (Prod.map id (bump tail.totLen)) ++ [(l,{bump tail.totLen last with next := some p})]
  have shape : before.map (Prod.map id (bump tail.totLen)) ++
      (l,{bump tail.totLen last with next := some p}) :: (p,tail) :: others = front ++ (p,tail) :: others := by
    simp [front]
  rw [shape] at linked
  refine ⟨middle.write p {tail with ref := 2},front ++ (p,{tail with ref := 2}) :: others,?_,⟨?_,?_,?_⟩,?_,?_,?_,freed⟩
  · simp only [pbufChain,catted,Option.bind_eq_bind,Option.bind_some,pbufRef,found,one]
  · exact Library.Heap.Chain.rewrite linked _ rfl
  · intro c member
    simp only [front,List.append_assoc,List.singleton_append,List.mem_append,List.mem_map,List.mem_cons] at member
    rcases member with ⟨b,inside,rfl⟩ | rfl | rfl | later
    · exact queue.valid b (by simp [inside])
    · exact queue.valid (l,last) (by simp)
    · exact ⟨by simp,by simp,(packet.valid (p,tail) (by simp)).2.2⟩
    · exact packet.valid c (by simp [later])
  · intro before' l' last' split
    rcases List.eq_nil_or_concat others with rfl | ⟨rest,final,rfl⟩
    · have same := (List.append_inj_right' split rfl)
      cases same
      exact packet.ended [] p tail rfl
    · rw [List.concat_eq_append,← List.cons_append,← List.append_assoc] at split
      have same := (List.append_inj_right' split rfl)
      obtain rfl : final = (l',last') := by simpa using same
      exact packet.ended ((p,tail) :: rest) l' last' (by simp)
  · simp only [front,bytes_append,bytes_cons,bytes_nil,bump_bytes]
    simp [bump]
  · simp [front,bump_ids]
  · intro a absent
    simp only [List.mem_append,not_or,ids_cons,List.mem_cons] at absent
    rw [write_other _ _ _ _ absent.2.1,same a absent.1]

theorem place_queue (mem : Memory n Byte) (segments : List (Segment n))
    (distinct : (segments.map Segment.address).Nodup) :
    Queue (place mem (arrived segments)) (segments.head?.map Segment.address) (arrived segments) :=
  ⟨(place_arrived mem segments distinct).1,fun c member => by
    obtain ⟨ref,long⟩ := arrived_unshared segments c member
    exact ⟨by omega,by omega,long⟩,arrived_ended segments⟩

theorem arrives_queues {mem : Memory n Byte} {p : Option (Fin n)} {cells : Cells n Byte} (queue : Queue mem p cells)
    (segments : List (Segment n)) (arrives : Arrives mem segments) :
    Queue (place mem (arrived segments)) p cells ∧
      Queue (place mem (arrived segments)) (segments.head?.map Segment.address) (arrived segments) ∧
      ∀ a ∈ ids cells, a ∉ ids (arrived segments) := by
  obtain ⟨nonempty,distinct,free,_⟩ := arrives
  obtain ⟨_,same,_⟩ := place_arrived mem segments distinct
  have apart : ∀ a ∈ ids cells, a ∉ ids (arrived segments) := by
    intro a member inside
    rw [arrived_ids] at inside
    obtain ⟨t,arriving,rfl⟩ := List.mem_map.mp inside
    obtain ⟨⟨_,cell⟩,queued,rfl⟩ := List.mem_map.mp member
    have none := free t arriving
    rw [Library.Heap.Chain.read queue.chain queued] at none
    simp at none
  refine ⟨queue.frame ?_,place_queue mem segments distinct,apart⟩
  intro a member
  apply same
  rw [← arrived_ids]
  exact apart a member

end Swip.Apps

import Swip.Device.Pbuf
import Mathlib.Data.Fintype.Basic
import Mathlib.Algebra.GroupWithZero.Nat

/-! What the pbuf functions do to a chain, one lemma per function: the chain they leave,
and that every other pbuf stays as it was. -/
namespace Swip.Device
open Library.Heap

variable {n : Nat} {β : Type}

abbrev Cells (n : Nat) (β : Type) := List (Fin n × Pbuf n β)

def Memory.Chain (mem : Memory n β) (link : Option (Fin n)) (cells : Cells n β) : Prop :=
  Library.Heap.Chain Pbuf.next mem.cell link cells

def ids (cells : Cells n β) : List (Fin n) := cells.map Prod.fst

def bytes (cells : Cells n β) : List β := cells.flatMap fun (_,cell) => cell.payload.take cell.len

@[simp] theorem ids_nil : ids ([] : Cells n β) = [] := rfl

@[simp] theorem ids_cons (address : Fin n) (cell : Pbuf n β) (rest : Cells n β) :
    ids ((address,cell) :: rest) = address :: ids rest := rfl

@[simp] theorem ids_append (first second : Cells n β) : ids (first ++ second) = ids first ++ ids second :=
  List.map_append

@[simp] theorem bytes_nil : bytes ([] : Cells n β) = [] := rfl

@[simp] theorem bytes_cons (address : Fin n) (cell : Pbuf n β) (rest : Cells n β) :
    bytes ((address,cell) :: rest) = cell.payload.take cell.len ++ bytes rest := rfl

@[simp] theorem bytes_append (first second : Cells n β) : bytes (first ++ second) = bytes first ++ bytes second :=
  List.flatMap_append

@[simp] theorem write_self (mem : Memory n β) (p : Fin n) (cell : Pbuf n β) :
    (mem.write p cell).cell p = some cell := Function.update_self _ _ _

theorem write_other (mem : Memory n β) (p q : Fin n) (cell : Pbuf n β) (different : q ≠ p) :
    (mem.write p cell).cell q = mem.cell q := Function.update_of_ne different _ _

@[simp] theorem write_tab (mem : Memory n β) (p : Fin n) (cell : Pbuf n β) :
    (mem.write p cell).tab = mem.tab := rfl

@[simp] theorem write_freed (mem : Memory n β) (p : Fin n) (cell : Pbuf n β) :
    (mem.write p cell).freed = mem.freed := rfl

theorem Memory.Chain.length_le {mem : Memory n β} {link : Option (Fin n)} {cells : Cells n β}
    (chain : mem.Chain link cells) : cells.length ≤ n := by
  simpa using Library.Heap.Chain.length_le chain

theorem Memory.Chain.frame {mem other : Memory n β} {link : Option (Fin n)} {cells : Cells n β}
    (chain : mem.Chain link cells) (agree : ∀ a ∈ ids cells, other.cell a = mem.cell a) :
    other.Chain link cells :=
  Library.Heap.Chain.congr chain agree

/-- Two memories that differ only in the named pbufs. -/
def SameOutside (before after : Memory n β) (touched : List (Fin n)) : Prop :=
  ∀ a, a ∉ touched → after.cell a = before.cell a

def payloadFrom (mem : Memory n β) : Nat → Option (Fin n) → List β
  | _, none => []
  | 0, some _ => []
  | fuel + 1, some p =>
    match mem.cell p with
    | none => []
    | some cell => cell.payload.take cell.len ++ payloadFrom mem fuel cell.next

/-- The payloads pbuf by pbuf. -/
def contents (cells : Cells n β) : List (List β) := cells.map fun (_,cell) => cell.payload.take cell.len

theorem contents_flatten (cells : Cells n β) : (contents cells).flatten = bytes cells := List.flatMap_def.symm

@[simp] theorem contents_append (first second : Cells n β) : contents (first ++ second) = contents first ++ contents second :=
  List.map_append

@[simp] theorem contents_single (address : Fin n) (cell : Pbuf n β) :
    contents [(address,cell)] = [cell.payload.take cell.len] := rfl

def contentsFrom (mem : Memory n β) : Nat → Option (Fin n) → List (List β)
  | _, none => []
  | 0, some _ => []
  | fuel + 1, some p =>
    match mem.cell p with
    | none => []
    | some cell => cell.payload.take cell.len :: contentsFrom mem fuel cell.next

theorem contentsFrom_chain {mem : Memory n β} {link : Option (Fin n)} {cells : Cells n β}
    (chain : mem.Chain link cells) (fuel : Nat) (enough : cells.length ≤ fuel) :
    contentsFrom mem fuel link = contents cells := by
  unfold Memory.Chain at chain
  induction chain generalizing fuel with
  | nil => cases fuel <;> rfl
  | cons address cell rest read tail ih =>
    cases fuel with
    | zero => simp at enough
    | succ fuel =>
      simp only [contentsFrom,read]
      rw [ih fuel (by simpa using enough)]
      rfl

theorem contentsFrom_flatten (mem : Memory n β) (fuel : Nat) (link : Option (Fin n)) :
    (contentsFrom mem fuel link).flatten = payloadFrom mem fuel link := by
  induction fuel generalizing link with
  | zero => cases link <;> rfl
  | succ fuel ih =>
    cases link with
    | none => rfl
    | some p =>
      rw [contentsFrom,payloadFrom]
      cases mem.cell p with
      | none => rfl
      | some cell => exact congrArg (cell.payload.take cell.len ++ ·) (ih cell.next)

theorem payloadFrom_chain {mem : Memory n β} {link : Option (Fin n)} {cells : Cells n β}
    (chain : mem.Chain link cells) (fuel : Nat) (enough : cells.length ≤ fuel) :
    payloadFrom mem fuel link = bytes cells := by
  rw [← contentsFrom_flatten,contentsFrom_chain chain fuel enough,contents_flatten]

/-! ### Freeing -/

/-- The pool elements among the deallocated pbufs, as the free list receives them. -/
def poolIds (cells : Cells n β) : List (Fin n) :=
  ids (cells.filter fun (_,cell) => cell.type = .pool)

private theorem freeLoop_all (mem : Memory n β) (link : Option (Fin n)) (cells : Cells n β) (fuel count : Nat)
    (chain : mem.Chain link cells) (single : ∀ c ∈ cells, c.2.ref = 1) (enough : cells.length ≤ fuel) :
    ∃ after total, freeLoop fuel mem link count = some (after,total) ∧
      (∀ a ∈ ids cells, after.cell a = none) ∧ SameOutside mem after (ids cells) ∧
      after.freed = mem.freed ++ ids cells ∧ after.tab = (poolIds cells).reverse ++ mem.tab := by
  induction cells generalizing mem link fuel count with
  | nil =>
    cases chain
    exact ⟨mem,count,by cases fuel <;> rfl,by simp,fun _ _ => rfl,by simp,by simp [poolIds]⟩
  | cons head rest ih =>
    obtain ⟨address,cell⟩ := head
    have distinct := Library.Heap.Chain.nodup chain
    cases chain with
    | cons _ _ _ read tail =>
      have outside : address ∉ ids rest := (List.nodup_cons.mp distinct).1
      have one : cell.ref = 1 := single (address,cell) (by simp)
      cases fuel with
      | zero => simp at enough
      | succ fuel =>
        have left : (mem.dealloc address cell.type).Chain cell.next rest :=
          Library.Heap.Chain.update_outside tail address none outside
        obtain ⟨after,total,done,gone,same,freed,tab⟩ := ih (mem.dealloc address cell.type) cell.next fuel
          ((count + 1) % 256) left (fun c member => single c (by simp [member])) (by simpa using enough)
        refine ⟨after,total,?_,?_,?_,?_,?_⟩
        · simp only [freeLoop,read]
          simpa [one] using done
        · intro a member
          rcases List.mem_cons.mp member with rfl | later
          · rw [same a outside]
            exact Function.update_self _ _ _
          · exact gone a later
        · intro a absent
          simp only [ids_cons,List.mem_cons,not_or] at absent
          rw [same a absent.2]
          exact Function.update_of_ne absent.1 _ _
        · rw [freed]
          simp [Memory.dealloc]
        · rw [tab]
          by_cases pooled : cell.type = .pool <;> simp [Memory.dealloc,poolIds,pooled]

theorem pbufFree_all (mem : Memory n β) (p : Fin n) (cells : Cells n β) (chain : mem.Chain (some p) cells)
    (single : ∀ c ∈ cells, c.2.ref = 1) :
    ∃ after total, pbufFree mem (some p) = some (after,total) ∧
      (∀ a ∈ ids cells, after.cell a = none) ∧ SameOutside mem after (ids cells) ∧
      after.freed = mem.freed ++ ids cells ∧ after.tab = (poolIds cells).reverse ++ mem.tab :=
  freeLoop_all mem (some p) cells (n + 1) 0 chain single (Nat.le_succ_of_le chain.length_le)

/-! ### Concatenation -/

def bump (total : Nat) (cell : Pbuf n β) : Pbuf n β := {cell with totLen := (cell.totLen + total) % 65536}

theorem bump_contents (total : Nat) (cells : Cells n β) :
    contents (cells.map (Prod.map id (bump total))) = contents cells := by
  rw [contents,contents,List.map_map]
  rfl

theorem bump_bytes (total : Nat) (cells : Cells n β) : bytes (cells.map (Prod.map id (bump total))) = bytes cells := by
  rw [← contents_flatten,bump_contents,contents_flatten]

theorem bump_ids (total : Nat) (cells : Cells n β) : ids (cells.map (Prod.map id (bump total))) = ids cells := by
  simp [ids]

private theorem catLoop_chain (total : Nat) (mem : Memory n β) (h : Fin n) (before : Cells n β) (l : Fin n)
    (last : Pbuf n β) (fuel : Nat) (chain : mem.Chain (some h) (before ++ [(l,last)]))
    (enough : before.length < fuel) :
    ∃ after, catLoop total fuel mem h = some (after,l) ∧
      after.Chain (some h) (before.map (Prod.map id (bump total)) ++ [(l,last)]) ∧
      SameOutside mem after (ids before) ∧ after.tab = mem.tab ∧ after.freed = mem.freed := by
  induction before generalizing mem h fuel with
  | nil =>
    cases fuel with
    | zero => simp at enough
    | succ fuel =>
      cases chain with
      | cons _ _ _ read tail =>
        have ended : last.next = none := tail.link_none
        exact ⟨mem,by simp [catLoop,read,ended],.cons _ _ _ read tail,fun _ _ => rfl,rfl,rfl⟩
  | cons head before ih =>
    obtain ⟨address,cell⟩ := head
    have distinct := Library.Heap.Chain.nodup chain
    cases fuel with
    | zero => simp at enough
    | succ fuel =>
      cases chain with
      | cons _ _ _ read tail =>
        have outside : h ∉ ids (before ++ [(l,last)]) := (List.nodup_cons.mp distinct).1
        obtain ⟨q,link⟩ := tail.link_some (by simp)
        rw [link] at tail
        have moved : (mem.write h (bump total cell)).Chain (some q) (before ++ [(l,last)]) :=
          Library.Heap.Chain.update_outside tail h _ outside
        obtain ⟨after,done,linked,same,tab,freed⟩ := ih _ q fuel moved (by simpa using enough)
        have kept : after.cell h = some (bump total cell) := by
          rw [same h (fun inside => outside (by simp [inside])),write_self]
        refine ⟨after,?_,?_,?_,tab,freed⟩
        · simp only [catLoop,read,Option.bind_eq_bind,Option.bind_some,link]
          simpa only [bump,link] using done
        · refine .cons _ _ _ kept ?_
          rw [show (bump total cell).next = some q from link]
          exact linked
        · intro a absent
          simp only [ids_cons,List.mem_cons,not_or] at absent
          rw [same a absent.2,write_other _ _ _ _ absent.1]

/-- The second chain is hung onto the last pbuf of the first; the total lengths of the first
grow by the second's. -/
theorem pbufCat_chain (mem : Memory n β) (h t : Fin n) (before : Cells n β) (l : Fin n) (last tail : Pbuf n β)
    (others : Cells n β) (chain : mem.Chain (some h) (before ++ [(l,last)]))
    (second : mem.Chain (some t) ((t,tail) :: others))
    (apart : ∀ a ∈ ids (before ++ [(l,last)]), a ∉ ids ((t,tail) :: others))
    (ended : last.totLen = last.len) :
    ∃ after, pbufCat mem h t = some after ∧
      after.Chain (some h) (before.map (Prod.map id (bump tail.totLen)) ++
        (l,{bump tail.totLen last with next := some t}) :: (t,tail) :: others) ∧
      SameOutside mem after (ids (before ++ [(l,last)])) ∧ after.tab = mem.tab ∧ after.freed = mem.freed := by
  have length : before.length < n := Nat.lt_of_succ_le (by simpa using chain.length_le)
  have head : mem.cell t = some tail := second.read (by simp)
  obtain ⟨middle,walked,kept,same,tab,freed⟩ :=
    catLoop_chain tail.totLen mem h before l last n chain length
  have final : middle.cell l = some last := kept.read (by simp)
  have untouched : middle.Chain (some t) ((t,tail) :: others) := by
    apply second.frame
    intro a member
    apply same
    intro inside
    exact apart a (by simp [inside]) member
  refine ⟨middle.write l {bump tail.totLen last with next := some t},?_,?_,?_,tab,freed⟩
  · simp only [pbufCat,head,Option.bind_eq_bind,Option.bind_some,walked,final,if_pos ended]
    rfl
  · exact Library.Heap.Chain.relink kept _ untouched (apart l (by simp))
  · intro a absent
    simp only [ids_append,ids_cons,ids_nil,List.mem_append,List.mem_singleton,not_or] at absent
    rw [write_other _ _ _ _ absent.2,same a absent.1]

/-! ### Trimming and allocation -/

def lens (cells : Cells n β) : Nat := (cells.map (·.2.len)).sum

@[simp] theorem lens_nil : lens ([] : Cells n β) = 0 := rfl

@[simp] theorem lens_cons (address : Fin n) (cell : Pbuf n β) (rest : Cells n β) :
    lens ((address,cell) :: rest) = cell.len + lens rest := by simp [lens]

private theorem reallocLoop_last (grow : Nat) (mem : Memory n β) (q : Fin n) (before : Cells n β) (l : Fin n)
    (last : Pbuf n β) (fuel remLen : Nat) (chain : mem.Chain (some q) (before ++ [(l,last)]))
    (enough : before.length < fuel) (beyond : lens before < remLen) (within : remLen ≤ lens before + last.len) :
    ∃ after, reallocLoop grow fuel mem q remLen = some after ∧
      after.Chain (some q) (before.map (Prod.map id (bump grow)) ++
        [(l,{last with len := remLen - lens before, totLen := remLen - lens before})]) ∧
      SameOutside mem after (ids (before ++ [(l,last)])) ∧ after.tab = mem.tab ∧ after.freed = mem.freed := by
  induction before generalizing mem q fuel remLen with
  | nil =>
    cases fuel with
    | zero => simp at enough
    | succ fuel =>
      cases chain with
      | cons _ _ _ read tail =>
        have ended : last.next = none := tail.link_none
        have fits : ¬ remLen > last.len := by simpa using within
        refine ⟨(mem.write l {last with len := remLen, totLen := remLen}).write l
          {last with len := remLen, totLen := remLen},?_,?_,?_,rfl,rfl⟩
        · simp only [reallocLoop,read,Option.bind_eq_bind,Option.bind_some,if_neg fits,ended]
        · refine .cons _ _ _ (by simp) ?_
          rw [show ({last with len := _, totLen := _} : Pbuf n β).next = none from ended]
          exact .nil
        · intro a absent
          simp only [List.nil_append,ids_cons,ids_nil,List.mem_singleton] at absent
          rw [write_other _ _ _ _ absent,write_other _ _ _ _ absent]
  | cons head before ih =>
    obtain ⟨address,cell⟩ := head
    have distinct := Library.Heap.Chain.nodup chain
    cases fuel with
    | zero => simp at enough
    | succ fuel =>
      cases chain with
      | cons _ _ _ read tail =>
        have outside : q ∉ ids (before ++ [(l,last)]) := (List.nodup_cons.mp distinct).1
        obtain ⟨r,link⟩ := tail.link_some (by simp)
        rw [link] at tail
        rw [lens_cons] at beyond within
        have moved : (mem.write q (bump grow cell)).Chain (some r) (before ++ [(l,last)]) :=
          Library.Heap.Chain.update_outside tail q _ outside
        obtain ⟨after,done,linked,same,tab,freed⟩ := ih _ r fuel (remLen - cell.len) moved
          (by simpa using enough) (by omega) (by omega)
        have kept : after.cell q = some (bump grow cell) := by
          rw [same q outside,write_self]
        have shorter : remLen - cell.len - lens before = remLen - lens ((q,cell) :: before) := by
          rw [lens_cons]; omega
        refine ⟨after,?_,?_,?_,tab,freed⟩
        · have longer : remLen > cell.len := by omega
          simp only [reallocLoop,read,Option.bind_eq_bind,Option.bind_some,if_pos longer,link]
          simpa only [bump,link] using done
        · refine .cons _ _ _ kept ?_
          rw [show (bump grow cell).next = some r from link,← shorter]
          exact linked
        · intro a absent
          simp only [List.cons_append,ids_cons,List.mem_cons,not_or] at absent
          rw [same a absent.2,write_other _ _ _ _ absent.1]

theorem pbufRealloc_last (mem : Memory n β) (p : Fin n) (before : Cells n β) (l : Fin n) (last first : Pbuf n β)
    (newLen : Nat) (chain : mem.Chain (some p) (before ++ [(l,last)])) (head : mem.cell p = some first)
    (shorter : newLen < first.totLen) (beyond : lens before < newLen) (within : newLen ≤ lens before + last.len) :
    ∃ grow after, pbufRealloc mem (some p) newLen = some after ∧
      after.Chain (some p) (before.map (Prod.map id (bump grow)) ++
        [(l,{last with len := newLen - lens before, totLen := newLen - lens before})]) ∧
      SameOutside mem after (ids (before ++ [(l,last)])) ∧ after.tab = mem.tab ∧ after.freed = mem.freed := by
  have length : before.length < n := Nat.lt_of_succ_le (by simpa using chain.length_le)
  obtain ⟨after,done,rest⟩ := reallocLoop_last (65536 - (first.totLen - newLen)) mem p before l last n newLen
    chain length beyond within
  refine ⟨_,after,?_,rest⟩
  simp only [pbufRealloc,head,Option.bind_eq_bind,Option.bind_some,if_neg (Nat.not_le.mpr shorter)]
  exact done

theorem pbufAlloc_single (mem : Memory n β) (blank : β) (layer : PbufLayer) (length : Nat)
    (fits : length ≤ pbufPoolBufsize - lwipMemAlignSize layer.offset) :
    pbufAlloc mem blank layer length = match mem.tab with
      | [] => some (mem,none)
      | p :: tab => some (Memory.write {mem with tab := tab} p
          ⟨none,List.replicate (pbufPoolBufsize - lwipMemAlignSize layer.offset) blank,length,length,.pool,1⟩,some p) := by
  cases shape : mem.tab with
  | nil => simp [pbufAlloc,Memory.take,shape]
  | cons p tab => simp [pbufAlloc,Memory.take,shape,allocLoop,Nat.min_eq_left fits]

end Swip.Device

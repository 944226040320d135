import Swip.Wire
import Swip.Device.PbufChain

/-! What the applications see of the raw TCP API: the error codes of `err.h` and the answers
of `tcp_sndbuf`, `tcp_write` and `tcp_close`, which may be anything, and the pbuf chains that
`tcp_recv` callbacks are given. -/
namespace Swip.Apps
open Device

inductive ErrT
  | ok | mem | buf | timeout | rte | inprogress | val | wouldblock | use | already | isconn | conn | iface
  | abrt | rst | clsd | arg
deriving DecidableEq, Repr

/-- The callbacks registered with a pcb; `arg` tells whether they are passed the state. -/
structure Callbacks where
  arg : Bool
  recv : Bool
  sent : Bool
  err : Bool
  poll : Bool
deriving DecidableEq, Repr

def cstr (s : String) : List Byte := s.toList.map fun c => UInt8.ofNat c.toNat

/-- What the stack answers during one callback: a value of `tcp_sndbuf` and a result of
`tcp_write` for each turn of a sending loop, and the result of `tcp_close`. When the list is
used up the send buffer is full. -/
structure Reply where
  writes : List (Nat × ErrT)
  close : ErrT
deriving DecidableEq, Repr

def nextWrite (writes : List (Nat × ErrT)) : Nat × ErrT := writes.headD (0,.mem)

variable {n : Nat}

structure Segment (n : Nat) where
  address : Fin n
  data : List Byte
  type : PbufType
deriving DecidableEq

def segmentBytes (segments : List (Segment n)) : List Byte := segments.flatMap Segment.data

/-- The chain as lwIP hands it over: nobody else refers to its pbufs. -/
def arrived : List (Segment n) → Cells n Byte
  | [] => []
  | s :: rest =>
    (s.address,⟨rest.head?.map Segment.address,s.data,(segmentBytes (s :: rest)).length,s.data.length,s.type,1⟩) ::
      arrived rest

def place (mem : Memory n Byte) : Cells n Byte → Memory n Byte
  | [] => mem
  | (address,cell) :: rest => (place mem rest).write address cell

/-- A chain that can arrive: its pbufs are free until then, and its length is a `u16_t`. -/
def Arrives (mem : Memory n Byte) (segments : List (Segment n)) : Prop :=
  segments ≠ [] ∧ (segments.map Segment.address).Nodup ∧ (∀ s ∈ segments, (mem.cell s.address).isNone) ∧
    (segmentBytes segments).length < 65536

instance (mem : Memory n Byte) (segments : List (Segment n)) : Decidable (Arrives mem segments) :=
  inferInstanceAs (Decidable (_ ∧ _))

theorem arrived_ids (segments : List (Segment n)) : ids (arrived segments) = segments.map Segment.address := by
  induction segments with
  | nil => rfl
  | cons s rest ih => simp [arrived,ih]

theorem arrived_bytes (segments : List (Segment n)) : bytes (arrived segments) = segmentBytes segments := by
  induction segments with
  | nil => rfl
  | cons s rest ih => simp [arrived,ih,segmentBytes]

theorem arrived_unshared (segments : List (Segment n)) :
    ∀ c ∈ arrived segments, c.2.ref = 1 ∧ c.2.len ≤ c.2.payload.length := by
  induction segments with
  | nil => simp [arrived]
  | cons s rest ih =>
    intro c member
    rcases List.mem_cons.mp member with rfl | later
    · exact ⟨rfl,Nat.le_refl _⟩
    · exact ih c later

theorem arrived_ended (segments : List (Segment n)) :
    ∀ before l last, arrived segments = before ++ [(l,last)] → last.totLen = last.len := by
  induction segments with
  | nil => simp [arrived]
  | cons s rest ih =>
    intro before l last split
    cases before with
    | nil =>
      obtain ⟨single,none⟩ := List.cons.inj split
      obtain rfl : rest = [] := by
        cases rest with
        | nil => rfl
        | cons => simp [arrived] at none
      obtain ⟨_,rfl⟩ := Prod.mk.inj single
      simp [segmentBytes]
    | cons head before => exact ih before l last (List.cons.inj split).2

theorem place_arrived (mem : Memory n Byte) (segments : List (Segment n))
    (distinct : (segments.map Segment.address).Nodup) :
    (place mem (arrived segments)).Chain (segments.head?.map Segment.address) (arrived segments) ∧
      SameOutside mem (place mem (arrived segments)) (segments.map Segment.address) ∧
      (place mem (arrived segments)).freed = mem.freed := by
  induction segments with
  | nil => exact ⟨.nil,fun _ _ => rfl,rfl⟩
  | cons s rest ih =>
    obtain ⟨outside,distinct⟩ := List.nodup_cons.mp distinct
    obtain ⟨chain,same,freed⟩ := ih distinct
    refine ⟨.cons _ _ _ (write_self _ _ _) ?_,?_,freed⟩
    · apply Library.Heap.Chain.update_outside chain
      rw [show (arrived rest).map Prod.fst = ids (arrived rest) from rfl,arrived_ids]
      exact outside
    · intro a absent
      simp only [List.map_cons,List.mem_cons,not_or] at absent
      rw [arrived,place,write_other _ _ _ _ absent.1,same a absent.2]

end Swip.Apps

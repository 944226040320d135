import Swip.Library.Stuffing
import Mathlib.Data.UInt

/-! The serial line's symbols. `slipif.c` and the class `slip` of `bridge.py` define the
same four SLIP constants; both halves of the link are modelled over this one code. -/
namespace Swip
open Library.Stuffing

abbrev Byte := UInt8

def slipEnd : Byte := 0xC0
def slipEsc : Byte := 0xDB
def slipEscEnd : Byte := 0xDC
def slipEscEsc : Byte := 0xDD

def slipCode : Alphabet Byte where
  fin := slipEnd
  esc := slipEsc
  escFin := slipEscEnd
  escEsc := slipEscEsc
  esc_ne_fin := by decide
  escFin_ne_fin := by decide
  escEsc_ne_fin := by decide
  escFin_ne_esc := by decide
  escEsc_ne_esc := by decide
  escEsc_ne_escFin := by decide

/-- The first byte of an IPv4 packet holds the version, 4, in its high nibble. -/
def IsIPv4 (packet : List Byte) : Prop := ∃ first, packet.head? = some first ∧ first >>> 4 = 4

def StartsOrdinary (packet : List Byte) : Prop :=
  ∃ first, packet.head? = some first ∧ Ordinary slipCode first

theorem ipv4_starts (packet : List Byte) (ipv4 : IsIPv4 packet) : StartsOrdinary packet := by
  obtain ⟨first,head,version⟩ := ipv4
  refine ⟨first,head,?_,?_,?_,?_⟩ <;> (rintro rfl; exact absurd version (by decide))

theorem starts_body (packet : List Byte) (starts : StartsOrdinary packet) :
    ∃ first rest, body slipCode packet = first :: rest ∧ Ordinary slipCode first := by
  obtain ⟨first,head,ordinary⟩ := starts
  cases packet with
  | nil => simp at head
  | cons c packet =>
    have same : c = first := by simpa using head
    subst same
    refine ⟨c,body slipCode packet,?_,ordinary⟩
    simp [body_cons,stuff,ordinary.1,ordinary.2.1]

end Swip

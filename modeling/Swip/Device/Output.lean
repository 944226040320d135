import Swip.Wire

/-! Sending on the device: `slipif_output` of `slipif.c` over `sio_send` of `sio.c`. A
pbuf chain is the list of the `len` payload bytes of each pbuf, first pbuf first. The line is the list of
bytes `UART_write` has put on the wire. -/
namespace Swip.Device
open Library.Stuffing

def sioSend (line : List Byte) (c : Byte) : List Byte := line ++ [c]

def slipifOutputByte (line : List Byte) (c : Byte) : List Byte :=
  if c = slipEnd then sioSend (sioSend line slipEsc) slipEscEnd
  else if c = slipEsc then sioSend (sioSend line slipEsc) slipEscEsc
  else sioSend line c

def slipifOutput (line : List Byte) (p : List (List Byte)) : List Byte :=
  let line := sioSend line slipEnd
  let line := p.foldl (fun line q => q.foldl slipifOutputByte line) line
  sioSend line slipEnd

private theorem output_pbuf (line q : List Byte) :
    q.foldl slipifOutputByte line = line ++ body slipCode q := by
  induction q generalizing line with
  | nil => simp [body]
  | cons c q ih =>
    have stuffed : slipifOutputByte line c = line ++ stuff slipCode c := by
      unfold slipifOutputByte stuff sioSend
      change (if c = slipEnd then _ else if c = slipEsc then _ else _) =
        line ++ (if c = slipEnd then _ else if c = slipEsc then _ else _)
      split_ifs <;> simp [slipCode]
    rw [List.foldl_cons,ih,stuffed,body_cons,List.append_assoc]

private theorem output_chain (line : List Byte) (p : List (List Byte)) :
    p.foldl (fun line q => q.foldl slipifOutputByte line) line = line ++ body slipCode p.flatten := by
  induction p generalizing line with
  | nil => simp [body]
  | cons q p ih =>
    have joined : body slipCode (q ++ p.flatten) = body slipCode q ++ body slipCode p.flatten :=
      List.flatMap_append
    rw [List.foldl_cons,ih,output_pbuf,List.flatten_cons,joined,List.append_assoc]

theorem slipifOutput_frame (line : List Byte) (p : List (List Byte)) :
    slipifOutput line p = line ++ frame slipCode p.flatten := by
  simp only [slipifOutput,output_chain,sioSend,frame]
  simp [slipCode]

end Swip.Device

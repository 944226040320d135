import Swip.Wire

/-! The class `slip` of `bridge.py`. `decode` either returns the packets it completed or
raises in the middle of the loop; the object it leaves behind is kept in both cases. -/
namespace Swip.Bridge
open Library.Stuffing

structure Slip where
  started : Bool
  escaped : Bool
  stream : List Byte
  packet : List Byte
deriving DecidableEq, Repr

namespace Slip

def init : Slip := ⟨false,false,[],[]⟩

def appendData (self : Slip) (chunk : List Byte) : Slip := {self with stream := self.stream ++ chunk}

/-- One turn of the loop over `self.stream`. The error is the object at the moment the
exception `SLIP Protocol Error` is raised; the two assignments after the `raise` never run. -/
def decodeChar : Slip × List (List Byte) → Byte → Except Slip (Slip × List (List Byte))
  | (self,packetlist), char =>
    if char = slipEnd then
      if self.started then .ok ({self with packet := []},packetlist ++ [self.packet])
      else .ok ({self with started := true, packet := []},packetlist)
    else if char = slipEsc then .ok ({self with escaped := true},packetlist)
    else if char = slipEscEnd then
      if self.escaped then
        .ok ({self with packet := self.packet ++ [slipEnd], escaped := false},packetlist)
      else .ok ({self with packet := self.packet ++ [char]},packetlist)
    else if char = slipEscEsc then
      if self.escaped then
        .ok ({self with packet := self.packet ++ [slipEsc], escaped := false},packetlist)
      else .ok ({self with packet := self.packet ++ [char]},packetlist)
    else
      if self.escaped then .error self
      else .ok ({self with packet := self.packet ++ [char], started := true},packetlist)

def decode (self : Slip) : Except Slip (Slip × List (List Byte)) := do
  let (self,packetlist) ← self.stream.foldlM decodeChar (self,[])
  return ({self with stream := [], started := false},packetlist)

def encodeChar (encoded : List Byte) (char : Byte) : List Byte :=
  if char = slipEnd then encoded ++ [slipEsc,slipEscEnd]
  else if char = slipEsc then encoded ++ [slipEsc,slipEscEsc]
  else encoded ++ [char]

def encode (packet : List Byte) : List Byte := packet.foldl encodeChar [slipEnd] ++ [slipEnd]

end Slip

open Slip

private theorem encode_loop (encoded packet : List Byte) :
    packet.foldl encodeChar encoded = encoded ++ body slipCode packet := by
  induction packet generalizing encoded with
  | nil => simp [body]
  | cons char packet ih =>
    have stuffed : encodeChar encoded char = encoded ++ stuff slipCode char := by
      unfold encodeChar stuff
      change (if char = slipEnd then _ else if char = slipEsc then _ else _) =
        encoded ++ (if char = slipEnd then _ else if char = slipEsc then _ else _)
      split_ifs <;> rfl
    rw [List.foldl_cons,ih,stuffed,body_cons,List.append_assoc]

theorem encode_frame (packet : List Byte) : encode packet = frame slipCode packet := by
  simp [encode,encode_loop,frame,slipCode]

def Marked (stretch : List Byte) : Prop := ∃ c ∈ stretch, Ordinary slipCode c

instance (stretch : List Byte) : Decidable (Marked stretch) := inferInstanceAs (Decidable (∃ c ∈ stretch, _))

theorem decodeChar_ordinary (self : Slip) (packetlist : List (List Byte)) (c : Byte)
    (ordinary : Ordinary slipCode c) (closed : self.escaped = false) :
    decodeChar (self,packetlist) c =
      .ok ({self with packet := self.packet ++ [c], started := true},packetlist) := by
  obtain ⟨fin,esc,escFin,escEsc⟩ := ordinary
  change c ≠ slipEnd at fin
  change c ≠ slipEsc at esc
  change c ≠ slipEscEnd at escFin
  change c ≠ slipEscEsc at escEsc
  simp [decodeChar,fin,esc,escFin,escEsc,closed]

theorem decodeChar_bare (self : Slip) (packetlist : List (List Byte)) (c : Byte)
    (substitute : c = slipEscEnd ∨ c = slipEscEsc) (closed : self.escaped = false) :
    decodeChar (self,packetlist) c = .ok ({self with packet := self.packet ++ [c]},packetlist) := by
  rcases self with ⟨started,escaped,stream,packet⟩
  change escaped = false at closed
  subst closed
  rcases substitute with rfl | rfl <;> rfl

theorem decodeChar_pair (self : Slip) (packetlist : List (List Byte)) (d : Byte)
    (substitute : d = slipEscEnd ∨ d = slipEscEsc) (closed : self.escaped = false) :
    decodeChar (self,packetlist) slipEsc >>= (decodeChar · d) =
      .ok ({self with packet := self.packet ++ [unescape slipCode d]},packetlist) := by
  rcases self with ⟨started,escaped,stream,packet⟩
  change escaped = false at closed
  subst closed
  rcases substitute with rfl | rfl <;> rfl

theorem marked_ordinary (c : Byte) (rest : List Byte) (ordinary : Ordinary slipCode c) :
    Marked (c :: rest) := ⟨c,by simp,ordinary⟩

theorem marked_skip (c : Byte) (rest : List Byte) (framing : ¬ Ordinary slipCode c) :
    Marked (c :: rest) ↔ Marked rest := by
  simp [Marked,framing]

theorem decode_stretch (self : Slip) (packetlist : List (List Byte)) (stretch : List Byte)
    (paired : Paired slipCode stretch) (inside : slipEnd ∉ stretch) (closed : self.escaped = false) :
    stretch.foldlM decodeChar (self,packetlist) =
      .ok ({self with started := self.started || decide (Marked stretch),
                      packet := self.packet ++ unstuff slipCode stretch},packetlist) := by
  revert self
  refine paired_induction slipCode (motive := fun stretch => slipEnd ∉ stretch → ∀ self : Slip,
    self.escaped = false → stretch.foldlM decodeChar (self,packetlist) =
      .ok ({self with started := self.started || decide (Marked stretch),
                      packet := self.packet ++ unstuff slipCode stretch},packetlist))
    stretch paired ?_ ?_ ?_ inside
  · intro _ self _
    simp [Marked,pure,Except.pure]
  · intro c rest plain ih inside self closed
    simp only [List.mem_cons,not_or] at inside
    rw [List.foldlM_cons,unstuff_plain slipCode c rest plain]
    by_cases ordinary : Ordinary slipCode c
    · rw [decodeChar_ordinary self packetlist c ordinary closed]
      change rest.foldlM decodeChar _ = _
      rw [ih inside.2 {self with packet := self.packet ++ [c], started := true} closed]
      simp [marked_ordinary c rest ordinary]
    · have substitute : c = slipEscEnd ∨ c = slipEscEsc := by
        by_contra neither
        rw [not_or] at neither
        exact ordinary ⟨Ne.symm inside.1,plain,neither.1,neither.2⟩
      rw [decodeChar_bare self packetlist c substitute closed]
      change rest.foldlM decodeChar _ = _
      rw [ih inside.2 {self with packet := self.packet ++ [c]} closed]
      simp [marked_skip c rest ordinary]
  · intro d rest substitute ih inside self closed
    simp only [List.mem_cons,not_or] at inside
    have unmarked : Marked (slipCode.esc :: d :: rest) ↔ Marked rest := by
      rw [marked_skip _ _ (by decide),marked_skip]
      rcases substitute with rfl | rfl <;> decide
    rw [unstuff_pair,List.foldlM_cons]
    simp only [List.foldlM_cons,← bind_assoc]
    change (decodeChar (self,packetlist) slipEsc >>= (decodeChar · d)) >>= _ = _
    rw [decodeChar_pair self packetlist d substitute closed]
    change rest.foldlM decodeChar _ = _
    rw [ih inside.2.2 {self with packet := self.packet ++ [unescape slipCode d]} closed]
    simp [unmarked]

theorem decodeChar_end (self : Slip) (packetlist : List (List Byte)) :
    decodeChar (self,packetlist) slipEnd =
      .ok ({self with started := true, packet := []},
        packetlist ++ (if self.started then [self.packet] else [])) := by
  rcases self with ⟨started,escaped,stream,packet⟩
  cases started <;> simp [decodeChar]

/-- The escape flag alone decides whether the loop raises: an ordinary byte inside an
open escape does, and neither an END nor a further ESC closes one. -/
def escapeAfter : Bool → List Byte → Option Bool
  | escaped, [] => some escaped
  | escaped, c :: rest =>
    if c = slipEnd then escapeAfter escaped rest
    else if c = slipEsc then escapeAfter true rest
    else if c = slipEscEnd ∨ c = slipEscEsc then escapeAfter false rest
    else if escaped then none else escapeAfter false rest

theorem escapeAfter_append (escaped : Bool) (first second : List Byte) :
    escapeAfter escaped (first ++ second) = (escapeAfter escaped first).bind (escapeAfter · second) := by
  induction first generalizing escaped with
  | nil => rfl
  | cons c first ih =>
    simp only [List.cons_append,escapeAfter]
    split_ifs <;> first | exact ih _ | rfl

theorem decodeChar_escaped (self : Slip) (packetlist : List (List Byte)) (c : Byte) :
    (∃ stuck, decodeChar (self,packetlist) c = .error stuck ∧ escapeAfter self.escaped [c] = none) ∨
    ∃ next packets, decodeChar (self,packetlist) c = .ok (next,packets) ∧
      escapeAfter self.escaped [c] = some next.escaped := by
  rcases self with ⟨started,escaped,stream,packet⟩
  by_cases fin : c = slipEnd
  · subst fin
    cases started <;> exact .inr ⟨_,_,rfl,rfl⟩
  by_cases esc : c = slipEsc
  · subst esc
    exact .inr ⟨_,_,rfl,rfl⟩
  by_cases substitute : c = slipEscEnd ∨ c = slipEscEsc
  · rcases substitute with rfl | rfl <;> cases escaped <;> exact .inr ⟨_,_,rfl,rfl⟩
  have neither := not_or.mp substitute
  cases escaped <;> simp [decodeChar,escapeAfter,fin,esc,neither]

theorem decode_escaped (self : Slip) (packetlist : List (List Byte)) (bytes : List Byte) :
    (∃ stuck, bytes.foldlM decodeChar (self,packetlist) = .error stuck ∧
      escapeAfter self.escaped bytes = none) ∨
    ∃ next packets, bytes.foldlM decodeChar (self,packetlist) = .ok (next,packets) ∧
      escapeAfter self.escaped bytes = some next.escaped := by
  induction bytes generalizing self packetlist with
  | nil => exact .inr ⟨self,packetlist,rfl,rfl⟩
  | cons c rest ih =>
    have split := escapeAfter_append self.escaped [c] rest
    rw [List.singleton_append] at split
    rw [List.foldlM_cons,split]
    rcases decodeChar_escaped self packetlist c with ⟨stuck,raised,flag⟩ | ⟨next,packets,turned,flag⟩
    · exact .inl ⟨stuck,by rw [raised]; rfl,by rw [flag]; rfl⟩
    · rw [turned,flag]
      exact ih next packets

theorem decode_inside (self next : Slip) (packetlist packets : List (List Byte)) (bytes : List Byte)
    (inside : slipEnd ∉ bytes) (turned : bytes.foldlM decodeChar (self,packetlist) = .ok (next,packets)) :
    packets = packetlist := by
  induction bytes generalizing self with
  | nil =>
    simp only [List.foldlM_nil,pure,Except.pure,Except.ok.injEq,Prod.mk.injEq] at turned
    exact turned.2.symm
  | cons c rest ih =>
    simp only [List.mem_cons,not_or] at inside
    rw [List.foldlM_cons] at turned
    cases first : decodeChar (self,packetlist) c with
    | error stuck => simp [first,bind,Except.bind] at turned
    | ok middle =>
      have kept : middle.2 = packetlist := by
        simp only [decodeChar,if_neg (Ne.symm inside.1)] at first
        split_ifs at first <;> cases first <;> rfl
      rw [first] at turned
      rcases middle with ⟨middle,others⟩
      change others = packetlist at kept
      subst kept
      exact ih middle inside.2 turned

end Swip.Bridge

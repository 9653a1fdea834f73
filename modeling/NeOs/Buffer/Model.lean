import NeOs.CString
import NeOs.Dynamic.Model

/-! The output buffer of `lib/buffer.c`. The data area behind the header is one byte longer than
`size`, so that the last byte, zeroed by `calloc`, terminates a full buffer. A store or a string
read that leaves the data area is undefined and yields `none`. -/
namespace NeOs
open Library

/-- `sizeof(BUFFER)`: two `size_t` fields and a pointer. -/
def sizeofBuffer : ℕ := 24

structure Buffer where
  used : ℕ
  size : ℕ
  data : List UInt8
  deriving Repr, DecidableEq

/-- A buffer with a record of the strings handed to `call` and of the indices stored to. -/
structure BufferRun where
  buffer : Buffer
  calls : List (List UInt8)
  stores : List ℕ
  deriving Repr, DecidableEq

/-- `calloc(1, sizeof(BUFFER) + size + 1)`, assumed to succeed. -/
def buffer (size : ℕ) : Option BufferRun :=
  if size ≤ 0 then none
  else
    let allocated := sizeT (sizeofBuffer+size+1)
    some { buffer := { used := 0, size := size,
                       data := List.replicate (allocated-sizeofBuffer) 0 },
           calls := [], stores := [] }

section Operations

-- the result of `call` may depend on everything it has been handed so far
variable (call : List (List UInt8) → ℤ)

/-- `p_buffer->call(buf)`. -/
def handOver (r : BufferRun) : Option (ℤ × BufferRun) :=
  (cString r.buffer.data).map fun s =>
    (call (r.calls++[s]),{ r with calls := r.calls++[s] })

/-- `p_buffer->used = 0`. -/
def clearUsed (r : BufferRun) : BufferRun := { r with buffer := { r.buffer with used := 0 } }

/-- `buf[i] = c`. -/
def putByte (r : BufferRun) (i : ℕ) (c : UInt8) : Option BufferRun :=
  if i < r.buffer.data.length then
    some { r with buffer := { r.buffer with data := r.buffer.data.set i c },
                  stores := r.stores++[i] }
  else none

/-- The copying loop. The position `i` is a local variable: it starts at `used` and is written
back nowhere. -/
def writeFrom (r : BufferRun) (i : ℕ) : List UInt8 → Option (ℤ × BufferRun)
  | [] => some (0,r)
  | c::str =>
    if i=r.buffer.size then
      match handOver call r with
      | none => none
      | some (status,r) =>
        if status≠0 then some (1,r)
        else match putByte (clearUsed r) i c with
          | none => none
          | some r => writeFrom r (i+1) str
    else match putByte r i c with
      | none => none
      | some r => writeFrom r (i+1) str

def bufferWrite (r : BufferRun) (str : List UInt8) : Option (ℤ × BufferRun) :=
  writeFrom call r r.buffer.used str

def bufferFlush (r : BufferRun) : Option (ℤ × BufferRun) :=
  match handOver call r with
  | none => none
  | some (status,r) => if status≠0 then some (1,r) else some (0,clearUsed r)

end Operations

variable {call : List (List UInt8) → ℤ} {r : BufferRun}

theorem buffer_eq {size : ℕ} (hpos : 1 ≤ size) (hfit : sizeofBuffer+size+1 < 2^64) :
    buffer size=some ⟨⟨0,size,Window.padded 0 (size+1) []⟩,[],[]⟩ := by
  have halloc : sizeT (sizeofBuffer+size+1)-sizeofBuffer=size+1 := by
    rw [sizeT_eq hfit]
    omega
  rw [buffer,if_neg (by omega)]
  simp only [halloc,Window.padded,List.nil_append,List.length_nil,Nat.sub_zero]

/-- When the allocation size wraps around, no byte is left for the data area. -/
theorem buffer_wrapped {size : ℕ} (hpos : 1 ≤ size) (hmax : size < 2^64)
    (hwrap : 2^64 ≤ sizeofBuffer+size+1) : buffer size=some ⟨⟨0,size,[]⟩,[],[]⟩ := by
  have halloc : sizeT (sizeofBuffer+size+1)-sizeofBuffer=0 := by
    simp only [sizeT,sizeofBuffer] at *
    omega
  rw [buffer,if_neg (by omega)]
  simp only [halloc,List.replicate_zero]

/-- The run after `str` has been stored from index `i` on, without any call. -/
def stored (r : BufferRun) (i : ℕ) (str : List UInt8) : BufferRun :=
  { r with buffer := { r.buffer with data := Window.patch r.buffer.data i str },
           stores := r.stores++List.range' i str.length }

theorem putByte_eq {i : ℕ} {c : UInt8} (h : i < r.buffer.data.length) :
    putByte r i c=some { r with buffer := { r.buffer with data := r.buffer.data.set i c },
                                stores := r.stores++[i] } := if_pos h

/-- Bytes that fit below `size` are stored one after the other, and `call` is not used. -/
theorem writeFrom_append {i : ℕ} (hdata : r.buffer.data.length=r.buffer.size+1)
    {str : List UInt8} (hfit : i+str.length ≤ r.buffer.size) (rest : List UInt8) :
    writeFrom call r i (str++rest)=writeFrom call (stored r i str) (i+str.length) rest := by
  induction str generalizing r i with
  | nil => simp [stored,Window.patch_nil]
  | cons c str ih =>
    simp only [List.length_cons] at hfit
    have hi : i < r.buffer.data.length := by omega
    have hne : i≠r.buffer.size := by omega
    have hstep := ih (r := { r with buffer := { r.buffer with data := r.buffer.data.set i c },
                                    stores := r.stores++[i] }) (i := i+1)
      (by simpa using hdata) (by simp only; omega)
    rw [List.cons_append,writeFrom,if_neg hne,putByte_eq hi]
    simp only [hstep,stored,Window.patch_cons hi,List.length_cons,List.range'_succ,
      List.append_assoc,List.singleton_append]
    congr 1
    omega

theorem writeFrom_short {i : ℕ} (hdata : r.buffer.data.length=r.buffer.size+1)
    {str : List UInt8} (hfit : i+str.length ≤ r.buffer.size) :
    writeFrom call r i str=some (0,stored r i str) := by
  simpa [writeFrom] using writeFrom_append hdata hfit []

/-- Between two operations: `used` is zero, and the data area holds a text and zeros behind it. -/
structure Holding (size : ℕ) (r : BufferRun) (t : List UInt8) : Prop where
  size_eq : r.buffer.size=size
  used_eq : r.buffer.used=0
  text_le : t.length ≤ size
  data_eq : r.buffer.data=Window.padded 0 (size+1) t
  no_nul : 0 ∉ t

namespace Holding
variable {size : ℕ} {t s : List UInt8}

theorem data_length (h : Holding size r t) : r.buffer.data.length=r.buffer.size+1 := by
  have ht := h.text_le
  rw [h.data_eq,h.size_eq]
  exact Window.padded_length (by omega)

theorem cString_data (h : Holding size r t) : cString r.buffer.data=some t := by
  have ht := h.text_le
  have hmem : (0 : UInt8) ∈ r.buffer.data := by
    rw [h.data_eq,Window.padded,List.mem_append,List.mem_replicate]
    exact Or.inr ⟨by omega,rfl⟩
  rw [cString,if_pos hmem,h.data_eq,Window.takeWhile_padded h.no_nul]

/-- The text is short enough to leave the last byte of the data area alone. -/
theorem terminator (h : Holding size r t) : r.buffer.data[size]?=some 0 := by
  have ht := h.text_le
  rw [h.data_eq,Window.padded,List.getElem?_append_right ht,List.getElem?_replicate,
    if_pos (by omega)]

/-- Only the buffer counts, not the record of the calls. -/
theorem recorded (h : Holding size r t) (calls : List (List UInt8)) :
    Holding size { r with calls := calls } t :=
  ⟨h.size_eq,h.used_eq,h.text_le,h.data_eq,h.no_nul⟩

theorem handOver_eq (h : Holding size r t) :
    handOver call r=some (call (r.calls++[t]),{ r with calls := r.calls++[t] }) := by
  rw [handOver,h.cString_data,Option.map_some]

theorem flush_eq (h : Holding size r t) :
    bufferFlush call r=
      some (if call (r.calls++[t])=0 then 0 else 1,{ r with calls := r.calls++[t] }) := by
  have hclear : clearUsed { r with calls := r.calls++[t] }={ r with calls := r.calls++[t] } := by
    simp [clearUsed,← h.used_eq]
  rw [bufferFlush,h.handOver_eq]
  by_cases hc : call (r.calls++[t])=0
  · simp [hc,hclear]
  · simp [hc]

/-- A string that fits overlays the text. -/
theorem stored (h : Holding size r t) (hs : s.length ≤ size) (hn : 0 ∉ s) :
    Holding size (stored r 0 s) (Window.overlay t s) := by
  have ht := h.text_le
  refine ⟨h.size_eq,h.used_eq,?_,?_,?_⟩
  · rw [Window.overlay_length]
    exact max_le ht hs
  · change Window.patch r.buffer.data 0 s=_
    rw [h.data_eq,Window.patch_padded 0 (by omega) (by omega)]
  · intro h0
    rcases Window.mem_overlay h0 with h0 | h0
    · exact hn h0
    · exact h.no_nul h0

theorem write_short (h : Holding size r t) (hs : s.length ≤ size) :
    bufferWrite call r s=some (0,NeOs.stored r 0 s) := by
  rw [bufferWrite,h.used_eq]
  exact writeFrom_short h.data_length (by rw [h.size_eq]; omega)

/-- A longer string fills the data area up to the terminator first. -/
theorem stored_full (h : Holding size r t) (hs : size < s.length) (hn : 0 ∉ s) :
    Holding size (NeOs.stored r 0 (s.take size)) (s.take size) := by
  have hlen : (s.take size).length=size := List.length_take_of_le (Nat.le_of_lt hs)
  have hover : Window.overlay t (s.take size)=s.take size :=
    Window.overlay_eq_right_iff.mpr (hlen.symm ▸ h.text_le)
  have hstored := h.stored (Nat.le_of_eq hlen) fun h0 => hn (List.mem_of_mem_take h0)
  rwa [hover] at hstored

/-- Then `call` decides: either the write stops with the full text in the data area, or it goes
on at index `size`, which is not reset. -/
theorem write_long (h : Holding size r t) (hs : size < s.length) (hn : 0 ∉ s) :
    bufferWrite call r s=
      if call (r.calls++[s.take size])=0 then
        writeFrom call ⟨⟨0,size,s.take (size+1)⟩,r.calls++[s.take size],
          r.stores++List.range' 0 (size+1)⟩ (size+1) (s.drop (size+1))
      else some (1,{ NeOs.stored r 0 (s.take size) with calls := r.calls++[s.take size] }) := by
  have hfull := h.stored_full hs hn
  have hlen : (s.take size).length=size := List.length_take_of_le (Nat.le_of_lt hs)
  have hsplit : bufferWrite call r s=
      writeFrom call (NeOs.stored r 0 (s.take size)) size (s[size]::s.drop (size+1)) := by
    rw [bufferWrite,h.used_eq,← List.drop_eq_getElem_cons hs]
    conv_lhs => rw [← List.take_append_drop size s]
    rw [writeFrom_append h.data_length (by rw [hlen,h.size_eq]; omega),hlen,Nat.zero_add]
  have hdata : (NeOs.stored r 0 (s.take size)).buffer.data.set size s[size]=s.take (size+1) := by
    rw [hfull.data_eq,Window.padded,hlen,Nat.add_sub_cancel_left,
      List.set_append_right _ _ (by omega),hlen,Nat.sub_self,List.take_succ_eq_append_getElem hs]
    rfl
  have hstores : r.stores++List.range' 0 size++[size]=r.stores++List.range' 0 (size+1) := by
    rw [List.range'_concat,Nat.zero_add,Nat.one_mul,List.append_assoc]
  rw [hsplit,writeFrom,if_pos hfull.size_eq.symm,hfull.handOver_eq]
  by_cases hc : call (r.calls++[s.take size])=0
  · have hput : putByte (clearUsed { NeOs.stored r 0 (s.take size) with
        calls := r.calls++[s.take size] }) size s[size]=
        some ⟨⟨0,size,s.take (size+1)⟩,r.calls++[s.take size],
          r.stores++List.range' 0 (size+1)⟩ := by
      rw [putByte_eq (by
        change size < (NeOs.stored r 0 (s.take size)).buffer.data.length
        rw [hfull.data_length,hfull.size_eq]
        omega)]
      simp only [clearUsed,hdata,hfull.size_eq]
      rw [← hstores]
      simp [NeOs.stored,hlen]
    have hcalls : (NeOs.stored r 0 (s.take size)).calls=r.calls := rfl
    simp only [hcalls,hc,hput,if_true,ne_eq,not_true_eq_false,if_false]
  · have hcalls : (NeOs.stored r 0 (s.take size)).calls=r.calls := rfl
    simp only [hcalls,hc,if_false,ne_eq,not_false_eq_true,if_true]

end Holding

end NeOs

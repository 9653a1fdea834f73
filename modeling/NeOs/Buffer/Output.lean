import NeOs.Buffer.Model

/-! What reaches `call` when strings are written one after another and flushed once. The write
position is never written back to `used`, so every write starts at index zero again: the strings
overlay each other. A string longer than `size` overwrites the terminator. -/
namespace NeOs
open Library Library.Run
variable {call : List (List UInt8) → ℤ} {r : BufferRun}

/-- Nothing has been handed over yet, and the data area holds `t` and zeros. -/
structure Overlaid (size : ℕ) (r : BufferRun) (t : List UInt8) : Prop extends Holding size r t where
  calls_eq : r.calls=[]

variable (call) in
/-- A string that fits overlays the text of the earlier ones. -/
theorem Overlaid.write_short {size : ℕ} {t s : List UInt8} (h : Overlaid size r t)
    (hs : s.length ≤ size) (hn : 0 ∉ s) :
    ∃ r', bufferWrite call r s=some (0,r') ∧ Overlaid size r' (Window.overlay t s) := by
  exact ⟨_,h.toHolding.write_short hs,h.toHolding.stored hs hn,h.calls_eq⟩

/-- Without a terminator in the data area nothing can be handed over any more. -/
def Unterminated (r : BufferRun) : Prop := 0 ∉ r.buffer.data

theorem Unterminated.handOver (h : Unterminated r) : handOver call r=none := by
  simp [NeOs.handOver,cString,if_neg h]

theorem Unterminated.flush (h : Unterminated r) : bufferFlush call r=none := by
  rw [bufferFlush,h.handOver]

/-- Later writes store no zero byte, so the terminator never comes back. -/
theorem Unterminated.writeFrom (h : Unterminated r) {s : List UInt8} (hs : 0 ∉ s) {i : ℕ}
    {status : ℤ} {r' : BufferRun} (hw : writeFrom call r i s=some (status,r')) :
    Unterminated r' := by
  induction s generalizing r i with
  | nil =>
    cases hw
    exact h
  | cons c s ih =>
    rw [List.mem_cons,not_or] at hs
    rw [NeOs.writeFrom,h.handOver] at hw
    split_ifs at hw with hi
    by_cases hlt : i < r.buffer.data.length
    · rw [putByte_eq hlt] at hw
      refine ih ?_ hs.2 hw
      intro h0
      rcases List.mem_or_eq_of_mem_set h0 with h0 | h0
      · exact h h0
      · exact hs.1 h0
    · rw [putByte,if_neg hlt] at hw
      cases hw

/-- A string longer than `size` fills the whole data area, terminator included, when it does not
run past it. -/
theorem Holding.write_unterminated {size : ℕ} {t s : List UInt8} (h : Holding size r t)
    (hs : size < s.length) (hn : 0 ∉ s) (hc : call (r.calls++[s.take size])=0) {status : ℤ}
    {r' : BufferRun} (hw : bufferWrite call r s=some (status,r')) : Unterminated r' := by
  rw [h.write_long hs hn,if_pos hc] at hw
  refine Unterminated.writeFrom ?_ (fun h0 => hn (List.mem_of_mem_drop h0)) hw
  exact fun h0 => hn (List.mem_of_mem_take h0)

section Sequence

/-- One `buffer_write` of a sequence, its result ignored. -/
def writeString (call : List (List UInt8) → ℤ) (r : BufferRun) (s : List UInt8) :
    Option BufferRun := (bufferWrite call r s).map Prod.snd

/-- All writes, then one flush. -/
def writeAllFlush (call : List (List UInt8) → ℤ) (r : BufferRun) (ss : List (List UInt8)) :
    Option BufferRun :=
  (run (writeString call) r ss).bind fun r => (bufferFlush call r).map Prod.snd

variable {size : ℕ} {t : List UInt8} {ss : List (List UInt8)}

theorem writeAllFlush_cons {r' : BufferRun} {status : ℤ} {s : List UInt8}
    (h : bufferWrite call r s=some (status,r')) (ss : List (List UInt8)) :
    writeAllFlush call r (s::ss)=writeAllFlush call r' ss := by
  simp [writeAllFlush,writeString,h]

theorem Unterminated.writeAllFlush (h : Unterminated r) (hs : ∀ s ∈ ss, 0 ∉ s) :
    writeAllFlush call r ss=none := by
  induction ss generalizing r with
  | nil => simp [NeOs.writeAllFlush,h.flush]
  | cons s ss ih =>
    cases hw : bufferWrite call r s with
    | none => simp [NeOs.writeAllFlush,writeString,hw]
    | some p =>
      rw [writeAllFlush_cons hw]
      exact ih (h.writeFrom (hs s (by simp)) hw) fun b hb => hs b (by simp [hb])

/-- Strings that fit leave only their overlay to the flush. -/
theorem Overlaid.writeAllFlush_short (h : Overlaid size r t)
    (hs : ∀ s ∈ ss, 0 ∉ s) (hfit : ∀ s ∈ ss, s.length ≤ size) :
    ∃ r', writeAllFlush call r ss=some r' ∧ r'.calls=[ss.foldl Window.overlay t] := by
  induction ss generalizing r t with
  | nil =>
    refine ⟨_,by simp [writeAllFlush,h.toHolding.flush_eq]; rfl,?_⟩
    simp [h.calls_eq]
  | cons s ss ih =>
    obtain ⟨r₁,hw,ho⟩ := h.write_short call (hfit s (by simp)) (hs s (by simp))
    rw [writeAllFlush_cons hw]
    exact ih ho (fun b hb => hs b (by simp [hb])) fun b hb => hfit b (by simp [hb])

/-- One string that does not fit spoils the run. -/
theorem Overlaid.writeAllFlush_long (hcall : ∀ cs, call cs=0) (h : Overlaid size r t)
    (hs : ∀ s ∈ ss, 0 ∉ s) (hlong : ∃ s ∈ ss, size < s.length) :
    writeAllFlush call r ss=none := by
  induction ss generalizing r t with
  | nil => simp at hlong
  | cons s ss ih =>
    have hrest : ∀ b ∈ ss, 0 ∉ b := fun b hb => hs b (by simp [hb])
    by_cases hlen : size < s.length
    · cases hw : bufferWrite call r s with
      | none => simp [writeAllFlush,writeString,hw]
      | some p =>
        rw [writeAllFlush_cons hw]
        exact (h.toHolding.write_unterminated hlen (hs s (by simp)) (hcall _) hw).writeAllFlush hrest
    · obtain ⟨r₁,hw,ho⟩ := h.write_short call (Nat.le_of_not_lt hlen) (hs s (by simp))
      rw [writeAllFlush_cons hw]
      apply ih ho hrest
      simpa [hlen] using hlong

theorem overlaid_buffer (hpos : 1 ≤ size) (hfit : sizeofBuffer+size+1 < 2^64) :
    ∃ r, buffer size=some r ∧ Overlaid size r [] :=
  ⟨_,buffer_eq hpos hfit,⟨rfl,rfl,Nat.zero_le _,rfl,by simp⟩,rfl⟩

theorem unterminated_buffer (hpos : 1 ≤ size) (hmax : size < 2^64)
    (hwrap : 2^64 ≤ sizeofBuffer+size+1) : ∃ r, buffer size=some r ∧ Unterminated r :=
  ⟨_,buffer_wrapped hpos hmax hwrap,List.not_mem_nil⟩

/-- With a `call` that always succeeds, the strings written and then flushed come out complete,
once and in order exactly when the allocation size does not wrap, none of them is longer than
`size`, and at most one of them is not empty. -/
theorem writeAllFlush_output_iff (hcall : ∀ cs, call cs=0) (hpos : 1 ≤ size) (hmax : size < 2^64)
    (hs : ∀ s ∈ ss, 0 ∉ s) :
    (∃ r, (buffer size).bind (writeAllFlush call · ss)=some r ∧ r.calls.flatten=ss.flatten) ↔
      sizeofBuffer+size+1 < 2^64 ∧ (∀ s ∈ ss, s.length ≤ size) ∧
      (ss.filter (fun s => !s.isEmpty)).length ≤ 1 := by
  by_cases hfit : sizeofBuffer+size+1 < 2^64
  · obtain ⟨r₀,hr₀,ho⟩ := overlaid_buffer hpos hfit
    rw [hr₀,Option.bind_some]
    by_cases hshort : ∀ s ∈ ss, s.length ≤ size
    · obtain ⟨r,hr,hcalls⟩ := @Overlaid.writeAllFlush_short call _ _ _ _ ho hs hshort
      rw [hr,← Window.foldl_overlay_eq_flatten_iff]
      constructor
      · rintro ⟨r',hr',hout⟩
        cases hr'
        rw [hcalls] at hout
        exact ⟨hfit,hshort,by simpa using hout⟩
      · rintro ⟨-,-,hout⟩
        refine ⟨r,rfl,?_⟩
        rw [hcalls]
        simpa using hout
    · rw [ho.writeAllFlush_long hcall hs (by push Not at hshort; exact hshort)]
      simp [hshort]
  · obtain ⟨r₀,hr₀,hu⟩ := unterminated_buffer hpos hmax (by omega)
    rw [hr₀,Option.bind_some,hu.writeAllFlush hs]
    constructor
    · rintro ⟨r,hr,-⟩
      cases hr
    · rintro ⟨h,-,-⟩
      exact absurd h hfit

/-- Three strings of which one is not empty. -/
theorem writeAllFlush_output_one :
    ∃ r, (buffer 4).bind (writeAllFlush (fun _ => 0) · [[],[104,105],[]])=some r ∧
      r.calls.flatten=[104,105] := by
  exact (@writeAllFlush_output_iff (fun _ => 0) 4 [[],[104,105],[]] (fun _ => rfl)
    (by decide) (by decide) (by decide)).mpr ⟨by decide,by decide,by decide⟩

/-- Two one-byte strings in a buffer of four: only the second one comes out. -/
theorem writeAllFlush_drops_first :
    ∃ r, (buffer 4).bind (writeAllFlush (fun _ => 0) · [[97],[98]])=some r ∧
      r.calls.flatten=[98] ∧ r.calls.flatten≠[[97],[98]].flatten :=
  ⟨_,rfl,by decide,by decide⟩

end Sequence

end NeOs

import NeOs.Buffer.Output

/-! Runs of `buffer_write` and `buffer_flush` in any order. As long as the stores stay below `size`
the data area is a text and zeros behind it; one store at index `size` costs the terminator. -/
namespace NeOs
open Library Library.Run
variable {call : List (List UInt8) → ℤ} {r : BufferRun} {size : ℕ} {t s : List UInt8}

inductive BufferCall where
  | write (str : List UInt8)
  | flush
  deriving Repr, DecidableEq

/-- One call of the interface, its result ignored. -/
def performBuffer (call : List (List UInt8) → ℤ) (r : BufferRun) : BufferCall → Option BufferRun
  | .write str => writeString call r str
  | .flush => (bufferFlush call r).map Prod.snd

/-- The strings that are written hold no NUL. -/
def BufferCall.Proper : BufferCall → Prop
  | .write str => 0 ∉ str
  | .flush => True

instance : ∀ op : BufferCall, Decidable op.Proper
  | .write str => inferInstanceAs (Decidable (0 ∉ str))
  | .flush => inferInstanceAs (Decidable True)

section Stores

/-- The states in which the copying loop invokes `call`. -/
def invocationsFrom (call : List (List UInt8) → ℤ) (r : BufferRun) (i : ℕ) :
    List UInt8 → List BufferRun
  | [] => []
  | c::str =>
    if i=r.buffer.size then
      match handOver call r with
      | none => [r]
      | some (status,r') =>
        if status≠0 then [r]
        else match putByte (clearUsed r') i c with
          | none => [r]
          | some r' => r::invocationsFrom call r' (i+1) str
    else match putByte r i c with
      | none => []
      | some r' => invocationsFrom call r' (i+1) str

/-- The states in which an operation invokes `call`. -/
def invocations (call : List (List UInt8) → ℤ) (r : BufferRun) : BufferCall → List BufferRun
  | .write str => invocationsFrom call r r.buffer.used str
  | .flush => [r]

/-- The operation stays inside the first `size` bytes and finds the terminator in its place
whenever it invokes `call`. -/
def Confined (size : ℕ) (call : List (List UInt8) → ℤ) (r : BufferRun) (op : BufferCall) : Prop :=
  ∃ r', performBuffer call r op=some r' ∧ (∀ i ∈ r'.stores, i < size) ∧
    ∀ q ∈ invocations call r op, q.buffer.data[size]?=some 0

/-- The allocation size did not wrap around, and a string longer than `size` is stopped by `call`
when its first `size` bytes are handed over. -/
def FitsBuffer (size : ℕ) (call : List (List UInt8) → ℤ) (r : BufferRun) : BufferCall → Prop
  | .write str => str=[] ∨ sizeofBuffer+size+1 < 2^64 ∧
      (str.length ≤ size ∨ call (r.calls++[str.take size])≠0)
  | .flush => sizeofBuffer+size+1 < 2^64

instance (size : ℕ) (call : List (List UInt8) → ℤ) (r : BufferRun) :
    ∀ op, Decidable (FitsBuffer size call r op)
  | .write str => inferInstanceAs (Decidable (str=[] ∨ sizeofBuffer+size+1 < 2^64 ∧
      (str.length ≤ size ∨ call (r.calls++[str.take size])≠0)))
  | .flush => inferInstanceAs (Decidable (sizeofBuffer+size+1 < 2^64))

theorem putByte_some {i : ℕ} {c : UInt8} {r' : BufferRun} (h : putByte r i c=some r') :
    i < r.buffer.data.length ∧
      r'=⟨⟨r.buffer.used,r.buffer.size,r.buffer.data.set i c⟩,r.calls,r.stores++[i]⟩ := by
  rw [putByte] at h
  split_ifs at h with hi
  exact ⟨hi,(Option.some.inj h).symm⟩

/-- Behind index `size` the loop only stores: `call` is not used any more, and the write cannot
fail. -/
theorem writeFrom_past {i : ℕ} (hi : r.buffer.size < i) {status : ℤ} {r' : BufferRun}
    (hw : writeFrom call r i s=some (status,r')) :
    status=0 ∧ ∃ more, r'.stores=r.stores++more := by
  induction s generalizing r i with
  | nil =>
    cases hw
    exact ⟨rfl,[],by simp⟩
  | cons c s ih =>
    rw [writeFrom,if_neg (by omega)] at hw
    cases hp : putByte r i c with
    | none => simp [hp] at hw
    | some r₁ =>
      rw [hp] at hw
      obtain ⟨-,rfl⟩ := putByte_some hp
      obtain ⟨hst,more,hmore⟩ := ih (by simp only; omega) hw
      exact ⟨hst,i::more,by simp [hmore]⟩

/-- Below `size` the loop invokes nothing. -/
theorem invocationsFrom_append {i : ℕ} (hdata : r.buffer.data.length=r.buffer.size+1)
    (hfit : i+s.length ≤ r.buffer.size) (rest : List UInt8) :
    invocationsFrom call r i (s++rest)=invocationsFrom call (stored r i s) (i+s.length) rest := by
  induction s generalizing r i with
  | nil => simp [stored,Window.patch_nil]
  | cons c s ih =>
    simp only [List.length_cons] at hfit
    have hi : i < r.buffer.data.length := by omega
    have hstep := ih (r := { r with buffer := { r.buffer with data := r.buffer.data.set i c },
                                    stores := r.stores++[i] }) (i := i+1)
      (by simpa using hdata) (by simp only; omega)
    rw [List.cons_append,invocationsFrom,if_neg (by omega),putByte_eq hi]
    simp only [hstep,stored,Window.patch_cons hi,List.length_cons,List.range'_succ,
      List.append_assoc,List.singleton_append]
    congr 1
    omega

theorem Holding.invocations_short (h : Holding size r t) (hs : s.length ≤ size) :
    invocations call r (.write s)=[] := by
  have happ : invocationsFrom call r 0 (s++[])=_ :=
    invocationsFrom_append h.data_length (by rw [h.size_eq]; omega) []
  rw [List.append_nil] at happ
  rw [invocations,h.used_eq,happ,invocationsFrom]

theorem Holding.invocations_refused (h : Holding size r t) (hs : size < s.length) (hn : 0 ∉ s)
    (hc : call (r.calls++[s.take size])≠0) :
    invocations call r (.write s)=[NeOs.stored r 0 (s.take size)] := by
  have hfull := h.stored_full hs hn
  have hlen : (s.take size).length=size := List.length_take_of_le (Nat.le_of_lt hs)
  have happ : invocationsFrom call r 0 (s.take size++s.drop size)=_ :=
    invocationsFrom_append h.data_length (by rw [h.size_eq]; omega) (s.drop size)
  rw [List.take_append_drop,hlen,List.drop_eq_getElem_cons hs,Nat.zero_add] at happ
  rw [invocations,h.used_eq,happ,invocationsFrom,if_pos hfull.size_eq.symm,hfull.handOver_eq]
  exact if_pos hc

/-- A text in the data area, and no store so far outside it. -/
def Within (size : ℕ) (r : BufferRun) : Prop :=
  (∃ t, Holding size r t) ∧ ∀ i ∈ r.stores, i < size

theorem Within.stored (h : Within size r) {t' : List UInt8} (hs : s.length ≤ size)
    (hh : Holding size (stored r 0 s) t') : Within size (stored r 0 s) := by
  refine ⟨⟨t',hh⟩,fun i hi => ?_⟩
  rcases List.mem_append.mp hi with hi | hi
  · exact h.2 i hi
  · rw [List.mem_range'_1] at hi
    omega

/-- What an operation that fits does: the state it ends in, and where it invokes `call`. -/
theorem Within.fits (h : Within size r) {op : BufferCall} (hop : op.Proper)
    (hfit : FitsBuffer size call r op) :
    ∃ r', performBuffer call r op=some r' ∧ Within size r' ∧
      ∀ q ∈ invocations call r op, q.buffer.data[size]?=some 0 := by
  obtain ⟨⟨t,ht⟩,hst⟩ := h
  cases op with
  | flush =>
    have hstep : performBuffer call r .flush=some { r with calls := r.calls++[t] } := by
      rw [performBuffer,ht.flush_eq,Option.map_some]
    exact ⟨_,hstep,⟨⟨t,ht.recorded _⟩,hst⟩,by simpa [invocations] using ht.terminator⟩
  | write str =>
    by_cases hlen : str.length ≤ size
    · have hstep : performBuffer call r (.write str)=some (NeOs.stored r 0 str) := by
        rw [performBuffer,writeString,ht.write_short hlen,Option.map_some]
      refine ⟨_,hstep,?_,by simp [ht.invocations_short hlen]⟩
      exact Within.stored ⟨⟨t,ht⟩,hst⟩ hlen (ht.stored hlen hop)
    · have hlt : size < str.length := Nat.lt_of_not_le hlen
      have hc : call (r.calls++[str.take size])≠0 := by
        rcases hfit with rfl | ⟨-,hle | hc⟩
        · simp at hlt
        · exact absurd hle hlen
        · exact hc
      have hfull := ht.stored_full hlt hop
      have hin := Within.stored ⟨⟨t,ht⟩,hst⟩ (by simp) hfull
      have hstep : performBuffer call r (.write str)=
          some { NeOs.stored r 0 (str.take size) with calls := r.calls++[str.take size] } := by
        rw [performBuffer,writeString,ht.write_long hlt hop,if_neg hc,Option.map_some]
      refine ⟨_,hstep,⟨⟨str.take size,hfull.recorded _⟩,hin.2⟩,?_⟩
      simpa [ht.invocations_refused hlt hop hc] using hfull.terminator

/-- A longer string that `call` lets through is stored at index `size` too. -/
theorem Within.not_confined (h : Within size r) (hs : size < s.length) (hn : 0 ∉ s)
    (hc : call (r.calls++[s.take size])=0) : ¬Confined size call r (.write s) := by
  rintro ⟨r',hr',hst,-⟩
  obtain ⟨⟨t,ht⟩,-⟩ := h
  obtain ⟨⟨status,r₁⟩,hw,rfl⟩ := Option.map_eq_some_iff.mp hr'
  rw [ht.write_long hs hn,if_pos hc] at hw
  obtain ⟨-,more,hmore⟩ := writeFrom_past (by simp) hw
  have hmem : size ∈ r₁.stores := by simp [hmore]
  exact lt_irrefl _ (hst size hmem)

theorem Within.confined_iff (hnowrap : sizeofBuffer+size+1 < 2^64) (h : Within size r)
    {op : BufferCall} (hop : op.Proper) :
    Confined size call r op ↔ FitsBuffer size call r op := by
  constructor
  · intro hconf
    cases op with
    | flush => exact hnowrap
    | write str =>
      refine Or.inr ⟨hnowrap,?_⟩
      by_contra hno
      push Not at hno
      exact h.not_confined hno.1 hop hno.2 hconf
  · intro hfit
    obtain ⟨r',hr',hin,hinv⟩ := h.fits hop hfit
    exact ⟨r',hr',hin.2,hinv⟩

/-- Without a data area only the empty string can be written. -/
theorem confined_iff_of_wrapped (hwrap : 2^64 ≤ sizeofBuffer+size+1) (hdata : r.buffer.data=[])
    (hst : r.stores=[]) (hused : r.buffer.used≠r.buffer.size) {op : BufferCall} :
    Confined size call r op ↔ FitsBuffer size call r op := by
  have hover : handOver call r=none := by simp [handOver,hdata,cString]
  have hnowrap : ¬sizeofBuffer+size+1 < 2^64 := Nat.not_lt.mpr hwrap
  cases op with
  | flush => simp only [Confined,performBuffer,bufferFlush,hover,FitsBuffer,hnowrap]; simp
  | write str =>
    cases str with
    | nil => simp [Confined,performBuffer,writeString,bufferWrite,writeFrom,hst,invocations,
        invocationsFrom,FitsBuffer]
    | cons c str =>
      have hstep : performBuffer call r (.write (c::str))=none := by
        simp [performBuffer,writeString,bufferWrite,writeFrom,hused,putByte,hdata]
      simp only [Confined,hstep,FitsBuffer,hnowrap]
      simp

/-- A run of writes and flushes stays inside the data area, and the terminator is in its place
whenever `call` is invoked, exactly when each of its operations fits: the allocation size has not
wrapped around, and no string longer than `size` gets past the call in the middle of it. -/
theorem buffer_confined_iff (call : List (List UInt8) → ℤ) (hpos : 1 ≤ size) (hmax : size < 2^64)
    {ops : List BufferCall} (hops : ∀ op ∈ ops, op.Proper) :
    ∃ r, buffer size=some r ∧
      (Along (performBuffer call) (Confined size call) r ops ↔
        Along (performBuffer call) (FitsBuffer size call) r ops) := by
  by_cases hnowrap : sizeofBuffer+size+1 < 2^64
  · obtain ⟨r,hr,ho⟩ := overlaid_buffer hpos hnowrap
    have hin : Within size r := ⟨⟨[],ho.toHolding⟩,by
      rw [buffer_eq hpos hnowrap] at hr
      cases hr
      simp⟩
    refine ⟨r,hr,along_congr (fun q op hq hop => hq.confined_iff hnowrap hop) ?_ hin hops⟩
    intro q op q' hq hop hfit hstep
    obtain ⟨r',hr',hin',-⟩ := hq.fits hop hfit
    cases hstep.symm.trans hr'
    exact hin'
  · have hwrap := Nat.le_of_not_lt hnowrap
    refine ⟨_,buffer_wrapped hpos hmax hwrap,?_⟩
    apply along_congr (P := fun q => q=⟨⟨0,size,[]⟩,[],[]⟩) _ _ rfl hops
    · rintro q op rfl hop
      exact confined_iff_of_wrapped hwrap rfl rfl (by simp only; omega)
    · rintro q op q' rfl hop hfit hstep
      cases op with
      | flush => exact absurd hfit hnowrap
      | write str =>
        rcases hfit with rfl | ⟨hfit,-⟩
        · exact (Option.some.inj hstep).symm
        · exact absurd hfit hnowrap

/-- A string longer than the buffer that `call` stops in time. -/
theorem buffer_confined_stopped :
    ∃ r, buffer 2=some r ∧
      Along (performBuffer fun _ => 1) (Confined 2 fun _ => 1) r
        [.write [97],.write [97,98,99],.flush] := by
  obtain ⟨r,hr,hiff⟩ := @buffer_confined_iff 2 (fun _ => 1) (by decide) (by decide)
    [.write [97],.write [97,98,99],.flush] (by decide)
  cases hr
  exact ⟨_,rfl,hiff.mpr (by decide)⟩

/-- Two bytes in a buffer of one: the second byte is stored over the terminator. -/
theorem buffer_write_past_end :
    ∃ r r', buffer 1=some r ∧ performBuffer (fun _ => 0) r (.write [97,98])=some r' ∧
      1 ∈ r'.stores ∧ r'.buffer.data[1]?=some 98 ∧
      ¬Along (performBuffer fun _ => 0) (Confined 1 fun _ => 0) r [.write [97,98]] := by
  refine ⟨_,_,rfl,rfl,by decide,by decide,?_⟩
  rintro ⟨⟨r',hr',hst,-⟩,-⟩
  cases hr'
  exact absurd (hst 1 (by decide)) (by decide)

end Stores

section Rounds

/-- A write and a flush right after it. -/
def writeFlush (call : List (List UInt8) → ℤ) (r : BufferRun) (t : List UInt8) :
    Option BufferRun := (writeString call r t).bind fun r => performBuffer call r .flush

/-- The flush of the round hands over exactly the string that was written in it. -/
def EmitsWritten (call : List (List UInt8) → ℤ) (r : BufferRun) (t : List UInt8) : Prop :=
  ∃ r₁ r₂, bufferWrite call r t=some (0,r₁) ∧ bufferFlush call r₁=some (0,r₂) ∧
    r₂.calls=r₁.calls++[t]

theorem Holding.writeFlush_eq (h : Holding size r t) (hs : s.length ≤ size) (hn : 0 ∉ s) :
    writeFlush call r s=
      some { NeOs.stored r 0 s with calls := r.calls++[Window.overlay t s] } := by
  rw [writeFlush,writeString,h.write_short hs,Option.map_some,Option.bind_some,performBuffer,
    (h.stored hs hn).flush_eq,Option.map_some]
  rfl

/-- What an earlier, longer string left behind comes out again. -/
theorem Holding.emitsWritten_iff (hcall : ∀ cs, call cs=0) (h : Holding size r t)
    (hs : s.length ≤ size) (hn : 0 ∉ s) :
    EmitsWritten call r s ↔ t.length ≤ s.length := by
  have hflush : bufferFlush call (NeOs.stored r 0 s)=_ := (h.stored hs hn).flush_eq
  rw [hcall,if_pos rfl] at hflush
  rw [← Window.overlay_eq_right_iff]
  constructor
  · rintro ⟨r₁,r₂,hw,hf,hcalls⟩
    rw [h.write_short hs] at hw
    cases hw
    rw [hflush] at hf
    cases hf
    simpa using hcalls
  · intro he
    exact ⟨_,_,h.write_short hs,hflush,by simp [he]⟩

theorem Holding.along_emitsWritten_iff (hcall : ∀ cs, call cs=0) (h : Holding size r t)
    {ts : List (List UInt8)} (hs : ∀ s ∈ ts, 0 ∉ s) (hfit : ∀ s ∈ ts, s.length ≤ size) :
    Along (writeFlush call) (EmitsWritten call) r ts ↔
      (t::ts).IsChain (fun a b => a.length ≤ b.length) := by
  induction ts generalizing r t with
  | nil => simp
  | cons s ts ih =>
    have hn := hs s (by simp)
    have hlen := hfit s (by simp)
    have hrest : ∀ q, t.length ≤ s.length → writeFlush call r s=some q →
        (Along (writeFlush call) (EmitsWritten call) q ts ↔
          (s::ts).IsChain (fun a b => a.length ≤ b.length)) := by
      intro q hle hq
      have hstored := h.stored hlen hn
      rw [Window.overlay_eq_right_iff.mpr hle] at hstored
      rw [h.writeFlush_eq hlen hn] at hq
      cases hq
      exact ih (hstored.recorded _) (fun b hb => hs b (by simp [hb]))
        fun b hb => hfit b (by simp [hb])
    rw [List.isChain_cons_cons]
    constructor
    · rintro ⟨hg,hall⟩
      have hle := (h.emitsWritten_iff hcall hlen hn).mp hg
      exact ⟨hle,(hrest _ hle (h.writeFlush_eq hlen hn)).mp (hall _ (h.writeFlush_eq hlen hn))⟩
    · rintro ⟨hle,hall⟩
      exact ⟨(h.emitsWritten_iff hcall hlen hn).mpr hle,fun q hq => (hrest q hle hq).mpr hall⟩

/-- Of strings that fit, written and flushed in turn, every flush hands over exactly the latest one
when no string is shorter than the one before it, and only then. -/
theorem writeFlush_emits_iff (hcall : ∀ cs, call cs=0) (hpos : 1 ≤ size) (hmax : size < 2^64)
    {ts : List (List UInt8)} (hs : ∀ s ∈ ts, 0 ∉ s) (hfit : ∀ s ∈ ts, s.length ≤ size) :
    ∃ r, buffer size=some r ∧
      (Along (writeFlush call) (EmitsWritten call) r ts ↔
        ts=[] ∨ sizeofBuffer+size+1 < 2^64 ∧ ts.IsChain (fun a b => a.length ≤ b.length)) := by
  by_cases hnowrap : sizeofBuffer+size+1 < 2^64
  · obtain ⟨r,hr,ho⟩ := overlaid_buffer hpos hnowrap
    refine ⟨r,hr,?_⟩
    rw [ho.toHolding.along_emitsWritten_iff hcall hs hfit]
    cases ts with
    | nil => simp
    | cons s ts =>
      simp only [hnowrap,true_and]
      simp
  · obtain ⟨r,hr,hu⟩ := unterminated_buffer hpos hmax (Nat.le_of_not_lt hnowrap)
    refine ⟨r,hr,?_⟩
    cases ts with
    | nil => simp
    | cons s ts =>
      have hno : ¬EmitsWritten call r s := by
        rintro ⟨r₁,r₂,hw,hf,-⟩
        rw [(hu.writeFrom (hs s (by simp)) hw).flush] at hf
        cases hf
      simp only [Along,hno,hnowrap]
      simp

theorem writeFlush_emits_growing :
    ∃ r, buffer 3=some r ∧
      Along (writeFlush fun _ => 0) (EmitsWritten fun _ => 0) r [[97],[98],[99,100,101]] := by
  obtain ⟨r,hr,hiff⟩ := @writeFlush_emits_iff (fun _ => 0) 3 (fun _ => rfl) (by decide)
    (by decide) [[97],[98],[99,100,101]] (by decide) (by decide)
  exact ⟨r,hr,hiff.mpr (Or.inr ⟨by decide,by decide⟩)⟩

/-- The second flush hands over the second byte of the first string again. -/
theorem writeFlush_emits_stale :
    ∃ r r', buffer 2=some r ∧ run (writeFlush fun _ => 0) r [[97,98],[99]]=some r' ∧
      r'.calls=[[97,98],[99,98]] ∧
      ¬Along (writeFlush fun _ => 0) (EmitsWritten fun _ => 0) r [[97,98],[99]] := by
  refine ⟨_,_,rfl,rfl,by decide,?_⟩
  rintro ⟨-,h⟩
  obtain ⟨⟨r₁,r₂,hw,hf,hcalls⟩,-⟩ := h _ rfl
  cases hw
  cases hf
  exact absurd hcalls (by decide)

end Rounds

section Failure

/-- The string that a flush hands over. -/
def flushedText (call : List (List UInt8) → ℤ) (r : BufferRun) : Option (List UInt8) :=
  (bufferFlush call r).bind fun p => p.2.calls.getLast?

/-- The write has a result, and if it fails, `used` and what a flush hands over are as they were
before it. -/
def LeavesPending (call : List (List UInt8) → ℤ) (r : BufferRun) (s : List UInt8) : Prop :=
  ∃ status r', bufferWrite call r s=some (status,r') ∧
    (status=1 → r'.buffer.used=r.buffer.used ∧ flushedText call r'=flushedText call r)

theorem Holding.flushedText_eq (h : Holding size r t) : flushedText call r=some t := by
  simp [flushedText,h.flush_eq]

theorem writeFrom_outside {i : ℕ} (hi : r.buffer.data.length ≤ i) (hne : i≠r.buffer.size)
    (hs : s≠[]) : writeFrom call r i s=none := by
  cases s with
  | nil => exact absurd rfl hs
  | cons c s => rw [writeFrom,if_neg hne,putByte,if_neg (by omega)]

/-- Once `call` has accepted the first `size` bytes, there is room for one more byte only, in place
of the terminator. -/
theorem Holding.write_accepted (h : Holding size r t) (hs : size < s.length) (hn : 0 ∉ s)
    (hc : call (r.calls++[s.take size])=0) :
    bufferWrite call r s=
      if s.length=size+1 then
        some (0,⟨⟨0,size,s⟩,r.calls++[s.take size],r.stores++List.range' 0 (size+1)⟩)
      else none := by
  rw [h.write_long hs hn,if_pos hc]
  split_ifs with hlen
  · rw [List.take_of_length_le hlen.le,List.drop_of_length_le hlen.le,writeFrom]
  · apply writeFrom_outside
    · simp only [List.length_take]
      omega
    · simp only
      omega
    · rw [ne_eq,List.drop_eq_nil_iff]
      omega

/-- A failed write has put the first `size` bytes of its string in place of the text. -/
theorem Holding.leaves_text_iff (h : Holding size r t) (hn : 0 ∉ s) :
    LeavesPending call r s ↔
      s.length ≤ size ∨
        if call (r.calls++[s.take size])=0 then s.length=size+1 else t=s.take size := by
  by_cases hs : s.length ≤ size
  · exact iff_of_true ⟨0,_,h.write_short hs,fun h0 => by cases h0⟩ (Or.inl hs)
  · have hlt : size < s.length := Nat.lt_of_not_le hs
    by_cases hc : call (r.calls++[s.take size])=0
    · have hw := h.write_accepted hlt hn hc
      by_cases hlen : s.length=size+1
      · rw [if_pos hlen] at hw
        exact iff_of_true ⟨0,_,hw,fun h0 => by cases h0⟩ (Or.inr (by rwa [if_pos hc]))
      · simp only [LeavesPending,hw,hlen,hs,hc]
        simp
    · have hw : bufferWrite call r s=_ := h.write_long hlt hn
      rw [if_neg hc] at hw
      have hfull := (h.stored_full hlt hn).recorded (r.calls++[s.take size])
      have hflush : flushedText call _=_ := hfull.flushedText_eq
      rw [if_neg hc]
      constructor
      · rintro ⟨status,r',hr',hleft⟩
        rw [hw] at hr'
        cases hr'
        have htext := (hleft rfl).2
        rw [hflush,h.flushedText_eq] at htext
        exact Or.inr (Option.some.inj htext).symm
      · rintro (hle | rfl)
        · exact absurd hle hs
        · exact ⟨1,_,hw,fun _ => ⟨rfl,hflush.trans h.flushedText_eq.symm⟩⟩

/-- Between two operations once a store has hit the terminator. -/
structure Overwritten (size : ℕ) (r : BufferRun) : Prop where
  size_eq : r.buffer.size=size
  used_eq : r.buffer.used=0
  data_length : r.buffer.data.length=size+1
  unterminated : Unterminated r

theorem Overwritten.write_short (h : Overwritten size r) (hs : s.length ≤ size) :
    bufferWrite call r s=some (0,NeOs.stored r 0 s) := by
  rw [bufferWrite,h.used_eq]
  exact writeFrom_short (by rw [h.data_length,h.size_eq]) (by rw [h.size_eq]; omega)

theorem Overwritten.stored (h : Overwritten size r) (hs : s.length ≤ size) (hn : 0 ∉ s) :
    Overwritten size (NeOs.stored r 0 s) := by
  have hlen : (Window.patch r.buffer.data 0 s).length=r.buffer.data.length :=
    Window.patch_length (by rw [h.data_length]; omega)
  have hw : writeFrom (fun _ => 0) r r.buffer.used s=_ := h.write_short hs
  exact ⟨h.size_eq,h.used_eq,hlen.trans h.data_length,h.unterminated.writeFrom hn hw⟩

/-- A longer string meets the full buffer, which cannot be handed over. -/
theorem Overwritten.write_long (h : Overwritten size r) (hs : size < s.length) (hn : 0 ∉ s) :
    bufferWrite call r s=none := by
  have hlen : (s.take size).length=size := List.length_take_of_le hs.le
  have hfull := h.stored hlen.le fun h0 => hn (List.mem_of_mem_take h0)
  rw [bufferWrite,h.used_eq,← List.take_append_drop size s,
    writeFrom_append (by rw [h.data_length,h.size_eq]) (by rw [hlen,h.size_eq]; omega),
    hlen,Nat.zero_add,List.drop_eq_getElem_cons hs,writeFrom,if_pos hfull.size_eq.symm,
    hfull.unterminated.handOver]

theorem Overwritten.leaves_text_iff (h : Overwritten size r) (hn : 0 ∉ s) :
    LeavesPending call r s ↔ s.length ≤ size := by
  by_cases hs : s.length ≤ size
  · exact iff_of_true ⟨0,_,h.write_short hs,fun h0 => by cases h0⟩ hs
  · simp [LeavesPending,h.write_long (Nat.lt_of_not_le hs) hn,hs]

/-- A step of the run keeps a text in the data area or loses the terminator for good. -/
theorem holding_or_overwritten_step {op : BufferCall} (hop : op.Proper) {r' : BufferRun}
    (h : (∃ t, Holding size r t) ∨ Overwritten size r) (hstep : performBuffer call r op=some r') :
    (∃ t, Holding size r' t) ∨ Overwritten size r' := by
  cases op with
  | flush =>
    obtain ⟨⟨status,q⟩,hq,rfl⟩ := Option.map_eq_some_iff.mp hstep
    rcases h with ⟨t,ht⟩ | hu
    · rw [ht.flush_eq] at hq
      cases hq
      exact Or.inl ⟨t,ht.recorded _⟩
    · rw [hu.unterminated.flush] at hq
      cases hq
  | write str =>
    obtain ⟨⟨status,q⟩,hq,rfl⟩ := Option.map_eq_some_iff.mp hstep
    by_cases hs : str.length ≤ size
    · rcases h with ⟨t,ht⟩ | hu
      · rw [ht.write_short hs] at hq
        cases hq
        exact Or.inl ⟨_,ht.stored hs hop⟩
      · rw [hu.write_short hs] at hq
        cases hq
        exact Or.inr (hu.stored hs hop)
    · have hlt : size < str.length := Nat.lt_of_not_le hs
      rcases h with ⟨t,ht⟩ | hu
      · by_cases hc : call (r.calls++[str.take size])=0
        · rw [ht.write_accepted hlt hop hc] at hq
          split_ifs at hq with hlen
          cases hq
          exact Or.inr ⟨rfl,rfl,hlen,hop⟩
        · rw [ht.write_long hlt hop,if_neg hc] at hq
          cases hq
          exact Or.inl ⟨_,(ht.stored_full hlt hop).recorded _⟩
      · rw [hu.write_long hlt hop] at hq
        cases hq

theorem holding_or_overwritten (hpos : 1 ≤ size) (hfit : sizeofBuffer+size+1 < 2^64)
    {r₀ : BufferRun} (h₀ : buffer size=some r₀) {ops : List BufferCall}
    (hops : ∀ op ∈ ops, op.Proper) (hrun : run (performBuffer call) r₀ ops=some r) :
    (∃ t, Holding size r t) ∨ Overwritten size r := by
  obtain ⟨r₁,hr₁,ho⟩ := overlaid_buffer hpos hfit
  cases h₀.symm.trans hr₁
  exact throughout_of_along (G := fun _ op => op.Proper)
    (fun q op q' hq hop hstep => holding_or_overwritten_step hop hq hstep)
    (Or.inl ⟨[],ho.toHolding⟩) (along_of_forall fun op hop _ => hops op hop) ops r
    (List.prefix_refl _) hrun

/-- Without a data area no byte can be stored. -/
theorem write_wrapped (hpos : 1 ≤ size) (h : r.buffer=⟨0,size,[]⟩) (hs : s≠[]) :
    bufferWrite call r s=none := by
  rw [bufferWrite,h]
  exact writeFrom_outside (by simp [h]) (by rw [h]; exact (Nat.ne_of_lt hpos)) hs

/-- Nor can a string be handed over. -/
theorem performBuffer_wrapped (hpos : 1 ≤ size) (h : r.buffer=⟨0,size,[]⟩) {op : BufferCall}
    {r' : BufferRun} (hstep : performBuffer call r op=some r') : r'.buffer=⟨0,size,[]⟩ := by
  cases op with
  | flush => simp [performBuffer,bufferFlush,handOver,cString,h] at hstep
  | write str =>
    obtain ⟨⟨status,q⟩,hq,rfl⟩ := Option.map_eq_some_iff.mp hstep
    by_cases hs : str=[]
    · rw [hs] at hq
      cases hq
      exact h
    · rw [write_wrapped hpos h hs] at hq
      cases hq

/-- In every reached state a failed write has a result and leaves the pending output alone exactly
when the string is empty, or the allocation size did not wrap around and the string fits, or the
terminator is in its place and either `call` accepts the first `size` bytes and one more is left, or
it refuses them and they are exactly what was pending. -/
theorem leavesPending_iff (hpos : 1 ≤ size) (hmax : size < 2^64) {r₀ : BufferRun}
    (h₀ : buffer size=some r₀) {ops : List BufferCall} (hops : ∀ op ∈ ops, op.Proper)
    (hrun : run (performBuffer call) r₀ ops=some r) (hn : 0 ∉ s) :
    LeavesPending call r s ↔
      s=[] ∨ sizeofBuffer+size+1 < 2^64 ∧ (s.length ≤ size ∨
        ∃ t, cString r.buffer.data=some t ∧
          if call (r.calls++[s.take size])=0 then s.length=size+1 else t=s.take size) := by
  have hempty : s=[] → s.length ≤ size := by
    rintro rfl
    exact Nat.zero_le _
  by_cases hfit : sizeofBuffer+size+1 < 2^64
  · rcases holding_or_overwritten hpos hfit h₀ hops hrun with ⟨t,ht⟩ | hu
    · simp only [ht.leaves_text_iff hn,ht.cString_data,hfit,true_and,Option.some.injEq,
        exists_eq_left']
      tauto
    · have hnone : cString r.buffer.data=none := if_neg hu.unterminated
      simp only [hu.leaves_text_iff hn,hnone,hfit,true_and]
      simpa using hempty
  · have hwrapped := buffer_wrapped hpos hmax (Nat.le_of_not_lt hfit)
    rw [h₀] at hwrapped
    cases hwrapped
    have hr : r.buffer=⟨0,size,[]⟩ :=
      run_invariant (P := fun q => q.buffer=⟨0,size,[]⟩)
        (fun _ _ _ hq hstep => performBuffer_wrapped hpos hq hstep) rfl hrun
    simp only [hfit,false_and,or_false]
    constructor
    · rintro ⟨status,r',hw,-⟩
      by_contra hs
      rw [write_wrapped hpos hr hs] at hw
      cases hw
    · rintro rfl
      exact ⟨0,r,rfl,fun h0 => by cases h0⟩

/-- The failed write repeats what is pending already. -/
theorem leavesPending_repeated :
    ∃ r₀ r, buffer 2=some r₀ ∧ run (performBuffer fun _ => 1) r₀ [.write [97,98]]=some r ∧
      LeavesPending (fun _ => 1) r [97,98,99] := by
  refine ⟨_,_,rfl,rfl,?_⟩
  exact (@leavesPending_iff (fun _ => 1) _ 2 [97,98,99] (by decide) (by decide) _ rfl
    [.write [97,98]] (by decide) rfl (by decide)).mpr (by decide)

/-- The pending text was `ab`; after the failed write of `cde` a flush hands over `cd`. -/
theorem failed_write_replaces_pending :
    ∃ r₀ r r', buffer 2=some r₀ ∧ run (performBuffer fun _ => 1) r₀ [.write [97,98]]=some r ∧
      bufferWrite (fun _ => 1) r [99,100,101]=some (1,r') ∧
      flushedText (fun _ => 1) r=some [97,98] ∧ flushedText (fun _ => 1) r'=some [99,100] ∧
      ¬LeavesPending (fun _ => 1) r [99,100,101] := by
  refine ⟨_,_,_,rfl,rfl,rfl,by decide,by decide,?_⟩
  rintro ⟨status,r',hw,h⟩
  cases hw
  exact absurd (h rfl).2 (by decide)

end Failure

end NeOs

import NeOs.Dynamic.Slots

/-! Arbitrary interleavings of the calls that change an array. `dynamic_resize` sets the `size`
field from the new length and not from the new capacity, and `dynamic_shrink_to_fit` can leave a
capacity of zero, which no doubling raises; both are harmless only under the conditions below. -/
namespace NeOs
open Library Library.Run
namespace Dynamic

inductive Call
  | insert (element : List UInt8)
  | shrinkToFit
  | resize (size : ℕ)
  deriving Repr, DecidableEq

def perform (d : Dynamic) : Call → Option Dynamic
  | .insert element => dynamicInsert d element
  | .shrinkToFit => dynamicShrinkToFit d
  | .resize size => dynamicResize d size

variable {d : Dynamic} {es : ℕ}

/-- Shrinking keeps the invariant and the elements. -/
theorem Tied.shrink (h : Tied d) :
    ∃ e, dynamicShrinkToFit d=some e ∧ Tied e ∧ e.length=d.length ∧ e.capacity=d.length ∧
      e.elementSize=d.elementSize ∧
      e.cells.take (e.length*e.elementSize)=d.cells.take (d.length*d.elementSize) := by
  unfold dynamicShrinkToFit
  rw [if_pos h.live]
  by_cases hc : d.capacity=d.length
  · rw [if_pos hc]
    exact ⟨d,rfl,h,rfl,hc,rfl,rfl⟩
  · rw [if_neg hc]
    have hused := h.used_le
    have hcl := h.cells_length
    have hb := h.bytes_lt
    have hsize : sizeT (d.elementSize*d.length)=d.length*d.elementSize := by
      rw [Nat.mul_comm]
      exact sizeT_eq (by omega)
    refine ⟨_,rfl,?_,rfl,rfl,rfl,?_⟩
    · apply tied_realloc
      · exact h.live
      · exact h.elementSize_pos
      · exact le_rfl
      · exact hsize
      · change sizeofDynamic+sizeT (d.elementSize*d.length)<2^64
        omega
    · apply take_realloc
      · change sizeofDynamic+sizeT (d.elementSize*d.length)<2^64
        omega
      · change d.length*d.elementSize ≤ sizeT (d.elementSize*d.length)
        omega
      · exact hused

theorem Holds.shrink {xs : List (List UInt8)} (h : Holds d xs) :
    ∃ e, dynamicShrinkToFit d=some e ∧ Holds e xs ∧ e.capacity=d.length ∧
      e.elementSize=d.elementSize := by
  obtain ⟨e,he,ht,hl,hcap,hes,hcells⟩ := h.toTied.shrink
  refine ⟨e,he,⟨ht,hl.trans h.length_eq,?_,hcells.trans h.content⟩,hcap,hes⟩
  intro x hx
  rw [hes]
  exact h.blocks x hx

/-- The exact effect of resizing on the two fields that have to agree. -/
theorem Tied.resize_fields (h : Tied d) {n : ℕ} (hn : 1≤n) :
    ∃ e, dynamicResize d n=some e ∧ e.capacity=n ∧ e.elementSize=d.elementSize ∧
      e.size=(if n=d.capacity then n else min d.length n)*d.elementSize := by
  unfold dynamicResize
  rw [if_pos h.live]
  by_cases hc : d.capacity=n
  · rw [if_pos hc]
    refine ⟨d,rfl,hc,rfl,?_⟩
    rw [if_pos hc.symm,h.size_eq,hc]
  · rw [if_neg hc,if_neg (by omega)]
    refine ⟨_,rfl,rfl,rfl,?_⟩
    rw [if_neg (Ne.symm hc)]
    apply sizeT_eq
    have hused := h.used_le
    have hcl := h.cells_length
    have hb := h.bytes_lt
    have hmin : min d.length n*d.elementSize≤d.length*d.elementSize :=
      Nat.mul_le_mul_right _ (min_le_left _ _)
    omega

/-- Resizing to the present capacity, or to at most the present length, keeps the invariant. -/
theorem Tied.resize (h : Tied d) {n : ℕ} (hn : 1≤n) (hk : n=d.capacity ∨ n≤d.length) :
    ∃ e, dynamicResize d n=some e ∧ Tied e ∧ e.capacity=n ∧ e.elementSize=d.elementSize := by
  obtain ⟨e,he,hcap,hes,hsize⟩ := h.resize_fields hn
  refine ⟨e,he,?_,hcap,hes⟩
  unfold dynamicResize at he
  rw [if_pos h.live] at he
  by_cases hc : d.capacity=n
  · rw [if_pos hc] at he
    cases he
    exact h
  · have hle : n≤d.length := by omega
    rw [if_neg hc,if_neg (by omega)] at he
    rw [if_neg (Ne.symm hc),min_eq_right hle] at hsize
    cases he
    have hused := h.used_le
    have hcl := h.cells_length
    have hb := h.bytes_lt
    have hmono : n*d.elementSize≤d.length*d.elementSize := Nat.mul_le_mul_right _ hle
    apply tied_realloc
    · exact h.live
    · exact h.elementSize_pos
    · exact min_le_right _ _
    · exact hsize
    · change sizeT (min d.length n*d.elementSize)=_ at hsize
      change sizeofDynamic+sizeT (min d.length n*d.elementSize)<2^64
      omega

section Resize

/-- What the callers of a resizing run promise: elements of the right width, a positive new size,
and byte counts inside `size_t`. -/
def ResizeCall (es : ℕ) (d : Dynamic) : Call → Prop
  | .insert x => x.length=es ∧ GrowthFits d
  | .shrinkToFit => False
  | .resize n => 1≤n ∧ sizeofDynamic+n*es<2^64

/-- The `resize` calls that do not separate the capacity from the allocation. -/
def KeepsTie (d : Dynamic) : Call → Prop
  | .resize n => n=d.capacity ∨ n≤d.length
  | _ => True

instance (es : ℕ) (d : Dynamic) : DecidablePred (ResizeCall es d)
  | .insert x => inferInstanceAs (Decidable (x.length=es ∧ (d.length=d.capacity → _<2^64)))
  | .shrinkToFit => inferInstanceAs (Decidable False)
  | .resize n => inferInstanceAs (Decidable (1≤n ∧ sizeofDynamic+n*es<2^64))

instance (d : Dynamic) : DecidablePred (KeepsTie d)
  | .insert _ => inferInstanceAs (Decidable True)
  | .shrinkToFit => inferInstanceAs (Decidable True)
  | .resize n => inferInstanceAs (Decidable (n=d.capacity ∨ n≤d.length))

/-- The length fits the capacity, the requested payload is the capacity in bytes, and the next
insertion stores inside the payload that its growth leaves. -/
def RoomForNext (es : ℕ) (d : Dynamic) : Prop :=
  d.length≤d.capacity ∧ d.size=d.capacity*es ∧ d.requested=sizeofDynamic+d.size ∧
  (GrowthFits d → d.length*es+es≤(dynamicGrow d).cells.length)

theorem Tied.roomForNext (h : Tied d) (hc : 1≤d.capacity) : RoomForNext d.elementSize d := by
  refine ⟨h.length_le,h.size_eq,h.requested_eq,fun hf => ?_⟩
  have hused := (h.grow hc hf).used_le
  obtain ⟨hl,-,-,hes⟩ := h.grow_fields hf
  rwa [hl,hes,Nat.add_mul,Nat.one_mul] at hused

theorem perform_keepsTie (h : Tied d) (hc : 1≤d.capacity) {c : Call}
    (he : ResizeCall d.elementSize d c) (hk : KeepsTie d c) :
    ∃ e, perform d c=some e ∧ Tied e ∧ 1≤e.capacity ∧ e.elementSize=d.elementSize := by
  cases c with
  | insert x =>
    obtain ⟨e,hi,ht,hl,-,-,hes,-⟩ := h.insert hc he.2 he.1
    have hle := ht.length_le
    exact ⟨e,hi,ht,by omega,hes⟩
  | shrinkToFit => exact he.elim
  | resize n =>
    obtain ⟨e,hr,ht,hcap,hes⟩ := h.resize he.1 hk
    exact ⟨e,hr,ht,by rw [hcap]; exact he.1,hes⟩

theorem keepsTie_of_roomForNext (h : Tied d) {c : Call} {e : Dynamic}
    (he : ResizeCall d.elementSize d c) (hp : perform d c=some e)
    (hroom : RoomForNext d.elementSize e) : KeepsTie d c := by
  cases c with
  | insert x => trivial
  | shrinkToFit => trivial
  | resize n =>
    obtain ⟨e',hr,hcap,-,hsize⟩ := h.resize_fields he.1
    cases hp.symm.trans hr
    have heq := hsize.symm.trans hroom.2.1
    rw [hcap] at heq
    have hcount := Nat.eq_of_mul_eq_mul_right h.elementSize_pos heq
    by_cases hc : n=d.capacity
    · exact Or.inl hc
    · rw [if_neg hc] at hcount
      exact Or.inr (by omega)

/-- A run of insertions and resizings keeps the invariant in all its states exactly when each
`dynamic_resize(n)` in it has `n` equal to the capacity or at most the length of its time. -/
theorem resize_run_iff {initialCapacity : ℕ} (he : 1≤es)
    (hfit : sizeofDynamic+initialCount initialCapacity*es<2^64) :
    ∃ d₀, dynamic es initialCapacity=some d₀ ∧ ∀ calls, Along perform (ResizeCall es) d₀ calls →
      (Always perform (RoomForNext es) d₀ calls ↔ Along perform KeepsTie d₀ calls) := by
  obtain ⟨d₀,hd,hr,hes⟩ := dynamic_represents (id : List UInt8 → List UInt8) he hfit
  refine ⟨d₀,hd,fun calls hcalls => ?_⟩
  apply always_iff_along (P := fun d => Tied d ∧ 1≤d.capacity ∧ d.elementSize=es) (E := ResizeCall es)
  · rintro d ⟨ht,hc,rfl⟩
    exact ht.roomForNext hc
  · rintro d c ⟨ht,hc,rfl⟩ hcall hk
    obtain ⟨e,hp,hte,hce,hese⟩ := perform_keepsTie ht hc hcall hk
    exact ⟨e,hp,hte,hce,hese⟩
  · rintro d c e ⟨ht,hc,rfl⟩ hcall hp hroom
    exact keepsTie_of_roomForNext ht hcall hp hroom
  · exact ⟨hr.holds.toTied,by rw [hr.capacity_eq]; exact initialCount_pos _,hes⟩
  · exact hcalls

/-- Two elements, then a resize below the length. -/
theorem resize_run_below_length :
    ∃ d₀, dynamic 1 4=some d₀ ∧
      Always perform (RoomForNext 1) d₀ [.insert [7],.insert [8],.resize 1,.insert [9]] := by
  obtain ⟨d₀,hd,h⟩ := @resize_run_iff 1 4 (by decide) (by decide)
  refine ⟨d₀,hd,?_⟩
  obtain rfl := Option.some.inj hd
  exact (h _ (by decide)).mpr (by decide)

/-- Resizing an empty array from four to eight elements leaves a capacity of eight elements and a
payload of none, and the next insertion stores outside the block. -/
theorem resize_above_length_fails :
    ∃ d₀ d, dynamic 1 4=some d₀ ∧ perform d₀ (.resize 8)=some d ∧ d.capacity=8 ∧ d.size=0 ∧
      ¬RoomForNext 1 d ∧ perform d (.insert [7])=none := by
  refine ⟨_,_,rfl,rfl,rfl,by decide,?_,by decide⟩
  intro h
  exact absurd h.2.1 (by decide)

end Resize

section Shrink

/-- What the callers of a shrinking run promise. -/
def ShrinkCall (es : ℕ) (d : Dynamic) : Call → Prop
  | .insert x => x.length=es ∧ GrowthFits d
  | .shrinkToFit => True
  | .resize _ => False

instance (es : ℕ) (d : Dynamic) : DecidablePred (ShrinkCall es d)
  | .insert x => inferInstanceAs (Decidable (x.length=es ∧ (d.length=d.capacity → _<2^64)))
  | .shrinkToFit => inferInstanceAs (Decidable True)
  | .resize _ => inferInstanceAs (Decidable False)

/-- The elements inserted by a run, in order. -/
def inserted : List Call → List (List UInt8)
  | [] => []
  | .insert x::calls => x::inserted calls
  | .shrinkToFit::calls => inserted calls
  | .resize _::calls => inserted calls

/-- The array has room for its elements and reads back `xs`. -/
def ReadsBack (es : ℕ) (d : Dynamic) (xs : List (List UInt8)) : Prop :=
  d.length=xs.length ∧ d.length≤d.capacity ∧ d.length*es≤d.cells.length ∧
  ∀ i (hi : i<xs.length), load d (dynamicGet d i) es=some (xs[i].map some)

theorem Holds.readsBack {xs : List (List UInt8)} (h : Holds d xs) :
    ReadsBack d.elementSize d xs :=
  ⟨h.length_eq,h.length_le,h.used_le,fun _ hi => h.load hi⟩

/-- From an array that is not empty, and in a run that inserts nothing, shrinking does no harm. -/
theorem Holds.shrink_run {xs : List (List UInt8)} {calls : List Call} (h : Holds d xs)
    (hcalls : Along perform (ShrinkCall d.elementSize) d calls) (hx : xs≠[] ∨ inserted calls=[])
    {pre : List Call} (hpre : pre.IsPrefix calls) :
    ∃ e, run perform d pre=some e ∧ Holds e (xs++inserted pre) ∧ e.elementSize=d.elementSize := by
  induction calls generalizing d xs pre with
  | nil =>
    rw [List.prefix_nil.mp hpre]
    exact ⟨d,rfl,by simpa [inserted] using h,rfl⟩
  | cons c calls ih =>
    cases pre with
    | nil => exact ⟨d,rfl,by simpa [inserted] using h,rfl⟩
    | cons b pre =>
      obtain ⟨rfl,hp⟩ := List.cons_prefix_cons.mp hpre
      cases b with
      | insert x =>
        have hne : xs≠[] := hx.resolve_right (by simp [inserted])
        have hcap : 1≤d.capacity := by
          have hl := h.length_le
          have hpos := List.length_pos_iff.mpr hne
          rw [h.length_eq] at hl
          omega
        obtain ⟨e,he,hh,-,-,hes⟩ := h.insert hcap hcalls.1.2 hcalls.1.1
        have htail := hcalls.tail he
        rw [← hes] at htail
        obtain ⟨f,hf,hhf,hesf⟩ := ih hh htail (Or.inl (by simp)) hp
        refine ⟨f,?_,by simpa [inserted] using hhf,hesf.trans hes⟩
        rw [run_cons,show perform d (.insert x)=some e from he]
        exact hf
      | shrinkToFit =>
        obtain ⟨e,he,hh,-,hes⟩ := h.shrink
        have htail := hcalls.tail he
        rw [← hes] at htail
        obtain ⟨f,hf,hhf,hesf⟩ := ih hh htail (hx.imp_right (by simp [inserted])) hp
        refine ⟨f,?_,by simpa [inserted] using hhf,hesf.trans hes⟩
        rw [run_cons,show perform d .shrinkToFit=some e from he]
        exact hf
      | resize n => exact hcalls.1.elim

/-- Once an empty array has been shrunk, the first insertion stores outside the block. -/
theorem shrunk_empty_faults (hlive : d.live=true) (hlen : d.length=0) (hcap : d.capacity=0)
    (hsize : d.size=0) (hes : 1≤es) {calls : List Call}
    (hcalls : Along perform (ShrinkCall es) d calls) (hins : inserted calls≠[]) :
    run perform d calls=none := by
  induction calls with
  | nil => exact absurd rfl hins
  | cons c calls ih =>
    cases c with
    | insert x =>
      have hx : x.length=es := hcalls.1.1
      have hcells : (dynamicGrow d).cells=[] := by
        simp [dynamicGrow,hlen,hcap,hsize,dynamicRealloc,sizeT,sizeofDynamic,Window.resize]
      have hfault : perform d (.insert x)=none := by
        have hnot : ¬(sizeT (d.length*d.elementSize)+x.length≤0) := by omega
        simp only [perform,dynamicInsert,if_pos hlive,store,hcells,List.length_nil,if_neg hnot]
      rw [run_cons,hfault]
      rfl
    | shrinkToFit =>
      have hsame : perform d .shrinkToFit=some d := by
        simp [perform,dynamicShrinkToFit,hlive,hlen,hcap]
      rw [run_cons,hsame]
      exact ih (hcalls.tail hsame) (by simpa [inserted] using hins)
    | resize n => exact hcalls.1.elim

/-- A run that shrinks the empty array and inserts later does not come to its end. -/
theorem Holds.shrink_first_faults (h : Holds d []) (he : 1≤es) {calls : List Call}
    (hcalls : Along perform (ShrinkCall es) d (.shrinkToFit::calls)) (hins : inserted calls≠[]) :
    run perform d (.shrinkToFit::calls)=none := by
  obtain ⟨e,hshrink,hh,hcap,-⟩ := h.shrink
  have hlen : e.length=0 := hh.length_eq
  have hcap' : e.capacity=0 := hcap.trans h.length_eq
  have hsize : e.size=0 := by rw [hh.size_eq,hcap',Nat.zero_mul]
  rw [run_cons,show perform d .shrinkToFit=some e from hshrink,Option.bind_some]
  exact shrunk_empty_faults hh.live hlen hcap' hsize he (hcalls.tail hshrink) hins

/-- A run that starts with anything but shrinking holds what it has inserted. -/
theorem Holds.insert_first_run (h : Holds d []) (hcap : 1≤d.capacity) {calls : List Call}
    (hcalls : Along perform (ShrinkCall d.elementSize) d calls)
    (hhead : calls.head?≠some .shrinkToFit) {pre : List Call} (hpre : pre.IsPrefix calls) :
    ∃ e, run perform d pre=some e ∧ Holds e (inserted pre) ∧ e.elementSize=d.elementSize := by
  cases pre with
  | nil => exact ⟨d,rfl,h,rfl⟩
  | cons c pre =>
    cases calls with
    | nil => simp at hpre
    | cons b calls =>
      obtain ⟨rfl,hp⟩ := List.cons_prefix_cons.mp hpre
      cases c with
      | insert x =>
        obtain ⟨e,hi,hh,-,-,hes⟩ := h.insert hcap hcalls.1.2 hcalls.1.1
        have htail := hcalls.tail hi
        rw [← hes] at htail
        obtain ⟨f,hf,hhf,hesf⟩ := hh.shrink_run htail (Or.inl (by simp)) hp
        refine ⟨f,?_,by simpa [inserted] using hhf,hesf.trans hes⟩
        rw [run_cons,show perform d (.insert x)=some e from hi]
        exact hf
      | shrinkToFit => simp at hhead
      | resize n => exact hcalls.1.elim

/-- In a run of insertions and shrinkings, every state reads back all elements inserted so far
exactly when no `dynamic_shrink_to_fit` comes before the first insertion. -/
theorem shrink_run_iff {initialCapacity : ℕ} (he : 1≤es)
    (hfit : sizeofDynamic+initialCount initialCapacity*es<2^64) :
    ∃ d₀, dynamic es initialCapacity=some d₀ ∧ ∀ calls, Along perform (ShrinkCall es) d₀ calls →
      ((∀ pre, pre.IsPrefix calls →
        ∃ d, run perform d₀ pre=some d ∧ ReadsBack es d (inserted pre)) ↔
      (inserted calls=[] ∨ calls.head?≠some .shrinkToFit)) := by
  obtain ⟨d₀,hd,hr,rfl⟩ := dynamic_represents (id : List UInt8 → List UInt8) he hfit
  have hholds : Holds d₀ [] := hr.holds
  have hcap : 1≤d₀.capacity := by
    rw [hr.capacity_eq]
    exact initialCount_pos _
  refine ⟨d₀,hd,fun calls hcalls => ⟨fun h => ?_,fun hcond pre hpre => ?_⟩⟩
  · by_contra hcond
    push Not at hcond
    obtain ⟨hins,hhead⟩ := hcond
    cases calls with
    | nil => simp at hhead
    | cons c calls =>
      obtain rfl : c=.shrinkToFit := by simpa using hhead
      obtain ⟨f,hf,-⟩ := h (.shrinkToFit::calls) (List.prefix_refl _)
      rw [hholds.shrink_first_faults he hcalls hins] at hf
      cases hf
  · have hrun : ∃ e, run perform d₀ pre=some e ∧ Holds e (inserted pre) ∧
        e.elementSize=d₀.elementSize := by
      rcases hcond with hins | hhead
      · exact hholds.shrink_run hcalls (Or.inr hins) hpre
      · exact hholds.insert_first_run hcap hcalls hhead hpre
    obtain ⟨e,hrun,hh,hes⟩ := hrun
    exact ⟨e,hrun,hes ▸ hh.readsBack⟩

/-- Insert, shrink, insert: both elements are read back. -/
theorem shrink_run_after_insert :
    ∃ d₀ d, dynamic 2 0=some d₀ ∧
      run perform d₀ [.insert [1,2],.shrinkToFit,.insert [3,4]]=some d ∧
      ReadsBack 2 d [[1,2],[3,4]] := by
  obtain ⟨d₀,hd,h⟩ := @shrink_run_iff 2 0 (by decide) (by decide)
  obtain rfl := Option.some.inj hd
  obtain ⟨d,hrun,hread⟩ := (h [.insert [1,2],.shrinkToFit,.insert [3,4]] (by decide)).mpr
    (Or.inr (by decide)) _ (List.prefix_refl _)
  exact ⟨_,d,rfl,hrun,hread⟩

/-- Shrink, insert: the capacity is zero, doubling it gives zero, and the element is stored
outside the block. -/
theorem shrink_before_insert_fails :
    ∃ d₀ d, dynamic 1 0=some d₀ ∧ perform d₀ .shrinkToFit=some d ∧ d.capacity=0 ∧
      (dynamicGrow d).length=1 ∧ (dynamicGrow d).capacity=0 ∧
      run perform d₀ [.shrinkToFit,.insert [7]]=none := by
  exact ⟨_,_,rfl,rfl,rfl,by decide,by decide,by decide⟩

end Shrink

end Dynamic
end NeOs

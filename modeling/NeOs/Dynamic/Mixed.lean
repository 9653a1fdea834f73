import NeOs.Dynamic.Calls

/-! Insertions, shrinkings and resizings in any order. As long as no call separates the capacity from
the memory behind it, the array is a list that grows at its end and is cut off by resizing. -/
namespace NeOs
open Library Library.Run
namespace Dynamic
variable {d : Dynamic} {es : ℕ} {xs : List (List UInt8)}

/-- What the callers promise: elements of the right width, and byte counts inside `size_t`. -/
def MixedCall (es : ℕ) (d : Dynamic) : Call → Prop
  | .insert x => x.length=es ∧ GrowthFits d
  | .shrinkToFit => True
  | .resize n => sizeofDynamic+n*es < 2^64

/-- The calls that keep the array alive and its capacity positive and tied to the allocation.
Resizing to zero frees the array. -/
def Harmless (d : Dynamic) : Call → Prop
  | .insert _ => True
  | .shrinkToFit => 1 ≤ d.length
  | .resize n => 1 ≤ n ∧ (n=d.capacity ∨ n ≤ d.length)

/-- The array has not been freed and has room for its next element. -/
def Usable (es : ℕ) (d : Dynamic) : Prop := d.live=true ∧ RoomForNext es d

instance (es : ℕ) (d : Dynamic) : DecidablePred (MixedCall es d)
  | .insert x => inferInstanceAs (Decidable (x.length=es ∧ (d.length=d.capacity → _ < 2^64)))
  | .shrinkToFit => inferInstanceAs (Decidable True)
  | .resize n => inferInstanceAs (Decidable (sizeofDynamic+n*es < 2^64))

instance (d : Dynamic) : DecidablePred (Harmless d)
  | .insert _ => inferInstanceAs (Decidable True)
  | .shrinkToFit => inferInstanceAs (Decidable (1 ≤ d.length))
  | .resize n => inferInstanceAs (Decidable (1 ≤ n ∧ (n=d.capacity ∨ n ≤ d.length)))

/-- The list after a call. -/
def expected (xs : List (List UInt8)) : Call → List (List UInt8)
  | .insert x => xs++[x]
  | .shrinkToFit => xs
  | .resize n => xs.take n

theorem take_flatten {n : ℕ} (hx : ∀ x ∈ xs, x.length=es) (hn : n ≤ xs.length) :
    xs.flatten.take (n*es)=(xs.take n).flatten := by
  have hsplit : xs.flatten=(xs.take n).flatten++(xs.drop n).flatten := by
    rw [← List.flatten_append,List.take_append_drop]
  have hlen : (xs.take n).flatten.length=n*es := by
    have hall : ∀ x ∈ xs.take n, x.length=es := fun x h => hx x (List.mem_of_mem_take h)
    rw [List.length_flatten,List.map_congr_left hall,List.map_const',List.sum_replicate,
      List.length_take,min_eq_left hn,smul_eq_mul]
  rw [hsplit,List.take_left' hlen]

/-- Resizing to the present capacity, or to at most the present length, cuts the list off. -/
theorem Holds.resize (h : Holds d xs) {n : ℕ} (hn : 1 ≤ n) (hk : n=d.capacity ∨ n ≤ d.length) :
    ∃ e, dynamicResize d n=some e ∧ Holds e (xs.take n) ∧ e.capacity=n ∧
      e.elementSize=d.elementSize := by
  obtain ⟨e,he,ht,hcap,hes⟩ := h.toTied.resize hn hk
  have hlen := h.length_eq
  unfold dynamicResize at he
  rw [if_pos h.live] at he
  by_cases hc : d.capacity=n
  · rw [if_pos hc] at he
    cases he
    have hall : xs.take n=xs := by
      have hle := h.length_le
      exact List.take_of_length_le (by omega)
    rw [hall]
    exact ⟨d,by rw [dynamicResize,if_pos h.live,if_pos hc],h,hc,rfl⟩
  · have hle : n ≤ d.length := by omega
    have hused := h.used_le
    have hcl := h.cells_length
    have hbytes := h.bytes_lt
    have hless : n*d.elementSize ≤ d.length*d.elementSize := Nat.mul_le_mul_right _ hle
    have hsize : sizeT (min d.length n*d.elementSize)=n*d.elementSize := by
      rw [min_eq_right hle]
      exact sizeT_eq (by omega)
    rw [if_neg hc,if_neg (by omega)] at he
    refine ⟨e,by rw [dynamicResize,if_pos h.live,if_neg hc,if_neg (by omega),he],⟨ht,?_,?_,?_⟩,
      hcap,hes⟩
    · cases he
      change min d.length n=_
      rw [List.length_take,hlen,min_comm]
    · intro x hx
      rw [hes]
      exact h.blocks x (List.mem_of_mem_take hx)
    · cases he
      have hkept : (dynamicRealloc { d with
            capacity := n, length := min d.length n, size := sizeT (min d.length n*d.elementSize) }).cells.take
          (n*d.elementSize)=d.cells.take (n*d.elementSize) := by
        apply take_realloc
        · change sizeofDynamic+sizeT (min d.length n*d.elementSize) < 2^64
          omega
        · change n*d.elementSize ≤ sizeT (min d.length n*d.elementSize)
          omega
        · exact hless.trans hused
      change (dynamicRealloc _).cells.take (min d.length n*d.elementSize)=_
      rw [min_eq_right hle] at hkept ⊢
      rw [hkept,← take_flatten h.blocks (hlen ▸ hle),List.map_take,← h.content,List.take_take,
        min_eq_left hless]

/-- One harmless call. -/
theorem Holds.perform_harmless (h : Holds d xs) (hc : 1 ≤ d.capacity) {c : Call}
    (he : MixedCall d.elementSize d c) (hk : Harmless d c) :
    ∃ e, perform d c=some e ∧ Holds e (expected xs c) ∧ 1 ≤ e.capacity ∧
      e.elementSize=d.elementSize := by
  cases c with
  | insert x =>
    obtain ⟨e,hi,hh,-,-,hes⟩ := h.insert hc he.2 he.1
    have hle := hh.length_le
    rw [hh.length_eq,List.length_append,List.length_singleton] at hle
    exact ⟨e,hi,hh,by omega,hes⟩
  | shrinkToFit =>
    obtain ⟨e,hs,hh,hcap,hes⟩ := h.shrink
    exact ⟨e,hs,hh,hcap ▸ hk,hes⟩
  | resize n =>
    obtain ⟨e,hr,hh,hcap,hes⟩ := h.resize hk.1 hk.2
    exact ⟨e,hr,hh,hcap ▸ hk.1,hes⟩

/-- A run of harmless calls does to the array what it does to a list. -/
theorem Holds.mixed_run {calls : List Call} (h : Holds d xs) (hc : 1 ≤ d.capacity)
    (hcalls : Along perform (MixedCall d.elementSize) d calls)
    (hk : Along perform Harmless d calls) :
    ∃ e, run perform d calls=some e ∧ Holds e (calls.foldl expected xs) ∧
      e.elementSize=d.elementSize := by
  induction calls generalizing d xs with
  | nil => exact ⟨d,rfl,h,rfl⟩
  | cons c calls ih =>
    obtain ⟨e,hp,hh,hce,hes⟩ := h.perform_harmless hc hcalls.1 hk.1
    obtain ⟨f,hrun,hf,hesf⟩ := ih hh hce (hes ▸ hcalls.tail hp) (hk.tail hp)
    refine ⟨f,?_,hf,hesf.trans hes⟩
    rw [run_cons,hp,Option.bind_some,hrun]

/-- An array that was shrunk to nothing has no room for an element, however it grows. -/
theorem not_room_of_shrunk (hlen : d.length=0) (hcap : d.capacity=0) (hsize : d.size=0)
    (hes : 1 ≤ es) : ¬RoomForNext es d := by
  rintro ⟨-,-,-,hroom⟩
  have hgrow : GrowthFits d := by
    intro _
    simp only [hcap,Nat.zero_mul]
    decide
  have hcells : (dynamicGrow d).cells=[] := by
    simp [dynamicGrow,hlen,hcap,hsize,dynamicRealloc,sizeT,sizeofDynamic,Window.resize]
  have hle := hroom hgrow
  rw [hcells,hlen,List.length_nil] at hle
  omega

theorem harmless_of_usable (h : Tied d) (hc : 1 ≤ d.capacity) {c : Call} {e : Dynamic}
    (he : MixedCall d.elementSize d c) (hp : perform d c=some e)
    (hu : Usable d.elementSize e) : Harmless d c := by
  cases c with
  | insert x => trivial
  | shrinkToFit =>
    obtain ⟨e',hs,ht,hlen,hcap,-⟩ := h.shrink
    cases hp.symm.trans hs
    by_contra hno
    have hzero : d.length=0 := by
      change ¬1 ≤ d.length at hno
      omega
    have hsize := ht.size_eq
    rw [hcap,hzero,Nat.zero_mul] at hsize
    exact not_room_of_shrunk (hlen.trans hzero) (hcap.trans hzero) hsize h.elementSize_pos hu.2
  | resize n =>
    cases n with
    | zero =>
      have hfreed : perform d (.resize 0)=some { d with live := false } := by
        simp [perform,dynamicResize,dynamicFree,h.live,show d.capacity≠0 by omega]
      cases hp.symm.trans hfreed
      exact absurd hu.1 (by simp)
    | succ n =>
      have hn : 1 ≤ n+1 := Nat.succ_pos n
      exact ⟨hn,keepsTie_of_roomForNext h (c := .resize (n+1)) ⟨hn,he⟩ hp hu.2⟩

/-- A run of insertions, shrinkings and resizings in any order keeps the array usable in all its
states exactly when it shrinks no empty array and each `dynamic_resize(n)` in it has a positive `n`
that equals the capacity or is at most the length of its time. Then the array reads back, in every
state, what a list would hold to which the same was done. -/
theorem mixed_run_iff {initialCapacity : ℕ} (he : 1 ≤ es)
    (hfit : sizeofDynamic+initialCount initialCapacity*es < 2^64) :
    ∃ d₀, dynamic es initialCapacity=some d₀ ∧ ∀ calls, Along perform (MixedCall es) d₀ calls →
      (Always perform (Usable es) d₀ calls ↔ Along perform Harmless d₀ calls) ∧
      (Along perform Harmless d₀ calls → ∀ pre, pre.IsPrefix calls →
        ∃ d, run perform d₀ pre=some d ∧ ReadsBack es d (pre.foldl expected [])) := by
  obtain ⟨d₀,hd,hr,hes⟩ := dynamic_represents (id : List UInt8 → List UInt8) he hfit
  have hcap : 1 ≤ d₀.capacity := by
    rw [hr.capacity_eq]
    exact initialCount_pos _
  refine ⟨d₀,hd,fun calls hcalls => ⟨?_,fun hharmless pre hpre => ?_⟩⟩
  · apply always_iff_along (P := fun d => (∃ xs, Holds d xs) ∧ 1 ≤ d.capacity ∧ d.elementSize=es)
      (E := MixedCall es)
    · rintro d ⟨⟨xs,hh⟩,hc,rfl⟩
      exact ⟨hh.live,hh.toTied.roomForNext hc⟩
    · rintro d c ⟨⟨xs,hh⟩,hc,rfl⟩ hcall hk
      obtain ⟨e,hp,hhe,hce,hese⟩ := hh.perform_harmless hc hcall hk
      exact ⟨e,hp,⟨_,hhe⟩,hce,hese⟩
    · rintro d c e ⟨⟨xs,hh⟩,hc,rfl⟩ hcall hp hu
      exact harmless_of_usable hh.toTied hc hcall hp hu
    · exact ⟨⟨_,hr.holds⟩,hcap,hes⟩
    · exact hcalls
  · subst hes
    obtain ⟨d,hrun,hh,hesd⟩ :=
      hr.holds.mixed_run hcap (hcalls.of_prefix hpre) (hharmless.of_prefix hpre)
    exact ⟨d,hrun,hesd ▸ hh.readsBack⟩

/-- Three elements, cut off after two, shrunk, and one more. -/
theorem mixed_run_sample :
    ∃ d₀ d, dynamic 1 4=some d₀ ∧
      run perform d₀ [.insert [7],.insert [8],.insert [9],.resize 2,.shrinkToFit,.insert [5]]=
        some d ∧ ReadsBack 1 d [[7],[8],[5]] := by
  obtain ⟨d₀,hd,h⟩ := @mixed_run_iff 1 4 (by decide) (by decide)
  obtain rfl := Option.some.inj hd
  obtain ⟨d,hrun,hread⟩ :=
    (h [.insert [7],.insert [8],.insert [9],.resize 2,.shrinkToFit,.insert [5]] (by decide)).2
      (by decide) _ (List.prefix_refl _)
  exact ⟨_,d,rfl,hrun,hread⟩

end Dynamic
end NeOs

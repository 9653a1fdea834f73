import NeOs.Dynamic.Append

/-! What appending costs: the bytes that `realloc` copies over a whole run, and the memory that the
array takes. -/
namespace NeOs
open Library Library.Run Library.Doubling
namespace Dynamic

/-- The bytes that the next insertion copies to a new block: the whole old one, with its header. -/
def movedNext (d : Dynamic) : ℕ := if (dynamicGrow d).block=d.block then 0 else d.requested

/-- The bytes that the insertions of a run copy to new blocks. -/
def moved : Dynamic → List (List UInt8) → ℕ
  | _,[] => 0
  | d,x::xs => movedNext d+(dynamicInsert d x).elim 0 fun e => moved e xs

section Schedule
variable {c es : ℕ} {d e : Dynamic} {xs : List (List UInt8)}

theorem Represents.cells_length (h : Represents id d (Slots.filled c xs)) (hes : d.elementSize=es) :
    d.cells.length=c*2^doublings c xs.length*es := by
  rw [h.holds.cells_length,h.holds.size_eq,h.capacity_eq,hes]
  rfl

/-- One insertion copies as many bytes as it adds to the array, and a header if it moves it. -/
theorem movedNext_add (hc : 1 ≤ c) (hd : Represents id d (Slots.filled c xs)) (hesd : d.elementSize=es)
    {x : List UInt8} (he : Represents id e (Slots.filled c (xs++[x]))) (hese : e.elementSize=es) :
    movedNext d+d.cells.length+sizeofDynamic*d.block=e.cells.length+sizeofDynamic*e.block := by
  have hlen : (xs++[x]).length=xs.length+1 := by simp
  have hblock : d.block=doublings c xs.length := hd.block_eq
  have hmoves := grow_block_iff hc hd
  rw [← full_iff hc,hblock] at hmoves
  have hrequested : d.requested=sizeofDynamic+d.cells.length := by
    rw [hd.holds.requested_eq,hd.holds.cells_length]
  rw [movedNext,hrequested,hd.cells_length hesd,he.cells_length hese,hblock,he.block_eq,
    Slots.filled_version,hlen,doublings]
  by_cases hfull : xs.length=c*2^doublings c xs.length
  · rw [if_neg (hmoves.mpr hfull),if_pos hfull]
    ring
  · rw [if_pos (not_not.mp (mt hmoves.mp hfull)),if_neg hfull,Nat.zero_add]

/-- A run copies as many bytes as it adds to the array, and a header each time it moves it. -/
theorem moved_add (hc : 1 ≤ c) {ys : List (List UInt8)} (h : Represents id d (Slots.filled c xs))
    (hes : d.elementSize=es) (hy : ∀ y ∈ ys, y.length=es) (hfit : ScheduleFits c es (xs++ys).length) :
    ∃ e, run dynamicInsert d ys=some e ∧
      moved d ys+d.cells.length+sizeofDynamic*d.block=e.cells.length+sizeofDynamic*e.block ∧
      Represents id e (Slots.filled c (xs++ys)) ∧ e.elementSize=es := by
  induction ys generalizing d xs with
  | nil => exact ⟨d,rfl,by rw [moved,Nat.zero_add],by simpa using h,hes⟩
  | cons y ys ih =>
    have hle : (xs++[y]).length ≤ (xs++y::ys).length := by simp
    have hone : ∀ z ∈ [y], (id z).length=es := by simpa using hy y (by simp)
    obtain ⟨e,hrun,he,hese⟩ := h.insertAll hc hes hone (hfit.of_le hc hle)
    have hins : dynamicInsert d y=some e := by simpa using hrun
    obtain ⟨f,hrunf,hmoved,hf,hesf⟩ := ih he hese (fun z hz => hy z (by simp [hz])) (by simpa using hfit)
    refine ⟨f,?_,?_,by simpa using hf,hesf⟩
    · rw [run_cons,hins,Option.bind_some,hrunf]
    · have hnext := movedNext_add hc h hes he hese
      rw [moved,hins,Option.elim_some]
      omega

end Schedule

/-- Appending is linear. The bytes that a run of insertions copies are exactly those by which the
array has grown and one header for each move, so at most two for each byte inserted and the headers.
The moves are as few as doubling allows, and the array takes no more than its initial capacity or
twice what it holds. -/
theorem append_moves_linear {elementSize initialCapacity : ℕ} (he : 1 ≤ elementSize)
    {xs : List (List UInt8)} (hx : ∀ x ∈ xs, x.length=elementSize)
    (hfit : ∃ k, xs.length ≤ initialCount initialCapacity*2^k ∧
      sizeofDynamic+initialCount initialCapacity*2^k*elementSize<2^64) :
    ∃ d₀ d, dynamic elementSize initialCapacity=some d₀ ∧ run dynamicInsert d₀ xs=some d ∧
      moved d₀ xs+d₀.cells.length=d.cells.length+sizeofDynamic*d.block ∧
      moved d₀ xs ≤ 2*(xs.length*elementSize)+sizeofDynamic*d.block ∧
      initialCount initialCapacity*2^d.block ≤ max (initialCount initialCapacity) (2*xs.length) ∧
      d.cells.length ≤ max d₀.cells.length (2*(xs.length*elementSize)) := by
  have hc := initialCount_pos initialCapacity
  have hsched := (scheduleFits_iff hc elementSize xs.length).mpr hfit
  have hfirst := (scheduleFits_zero _ _).mp (hsched.of_le hc (Nat.zero_le _))
  obtain ⟨d₀,hd,hr,hes⟩ := dynamic_represents (id : List UInt8 → List UInt8) he hfirst
  rw [Slots.new_eq_filled] at hr
  obtain ⟨d,hrun,hmoved,hrep,hesd⟩ := moved_add hc hr hes hx (by simpa using hsched)
  have hsize₀ := hr.cells_length hes
  have hsize := hrep.cells_length hesd
  have hblock₀ : d₀.block=0 := hr.block_eq
  have hblock : d.block=doublings (initialCount initialCapacity) xs.length := hrep.block_eq
  rw [List.length_nil,doublings_zero,pow_zero,Nat.mul_one] at hsize₀
  rw [List.nil_append] at hsize
  rw [hblock₀,Nat.mul_zero,Nat.add_zero] at hmoved
  have hmax : d.cells.length ≤ max d₀.cells.length (2*(xs.length*elementSize)) := by
    have hbound := Nat.mul_le_mul_right elementSize (bound_le_max hc xs.length)
    rwa [← hsize,← Nat.mul_max_mul_right,← hsize₀,Nat.mul_assoc] at hbound
  exact ⟨d₀,d,hd,hrun,hmoved,by omega,hblock ▸ bound_le_max hc xs.length,hmax⟩

/-- The second of two one-byte elements finds the array full: one byte and the header are moved. -/
theorem append_moves_linear_two :
    ∃ d₀ d, dynamic 1 1=some d₀ ∧ run dynamicInsert d₀ [[1],[2]]=some d ∧
      moved d₀ [[1],[2]]=33 ∧ moved d₀ [[1],[2]]+d₀.cells.length=d.cells.length+32*d.block := by
  obtain ⟨d₀,d,hd,hrun,hmoved,-⟩ :=
    @append_moves_linear 1 1 (by decide) [[1],[2]] (by decide) ⟨1,by decide,by decide⟩
  obtain rfl := Option.some.inj hd
  exact ⟨_,d,rfl,hrun,by decide,hmoved⟩

end Dynamic
end NeOs

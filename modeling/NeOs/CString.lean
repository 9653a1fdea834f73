import Mathlib

/-! C strings as the lists of their bytes up to the terminating NUL. -/
namespace NeOs

/-- The bytes of a literal. -/
def text (s : String) : List UInt8 := s.toList.map fun c => UInt8.ofNat c.toNat

/-- `s[i]` for an index up to the terminator. -/
def charAt (s : List UInt8) (i : ℕ) : UInt8 := s.getD i 0

def dot : UInt8 := 46
def slash : UInt8 := 47
def dash : UInt8 := 45

/-- The bytes of the C string that starts an area, if it ends inside the area. -/
def cString (area : List UInt8) : Option (List UInt8) :=
  if 0 ∈ area then some (area.takeWhile (· ≠ 0)) else none

theorem cString_append {s : List UInt8} (h : 0 ∉ s) (rest : List UInt8) :
    cString (s++0::rest)=some s := by
  have hne : ∀ a ∈ s, decide (a≠0)=true := fun a ha => decide_eq_true fun h0 => h (h0 ▸ ha)
  rw [cString,if_pos (by simp),List.takeWhile_append_of_pos hne]
  simp

/-- The difference of the first two bytes that differ, a terminator counting as zero. -/
def strcmp : List UInt8 → List UInt8 → ℤ
  | [],[] => 0
  | [],b::_ => -(b.toNat : ℤ)
  | a::_,[] => (a.toNat : ℤ)
  | a::as,b::bs => if a=b then strcmp as bs else (a.toNat : ℤ)-b.toNat

theorem strcmp_swap (a b : List UInt8) : strcmp b a= -strcmp a b := by
  induction a generalizing b with
  | nil => cases b <;> simp [strcmp]
  | cons x a ih =>
    cases b with
    | nil => simp [strcmp]
    | cons y b =>
      by_cases h : x=y
      · simpa [strcmp,h] using ih b
      · have h' : y≠x := Ne.symm h
        simp [strcmp,h,h']

theorem natAbs_strcmp_le (a b : List UInt8) : (strcmp a b).natAbs ≤ 255 := by
  induction a generalizing b with
  | nil =>
    cases b with
    | nil => decide
    | cons y b =>
      have hy := y.toNat_lt
      rw [strcmp]
      omega
  | cons x a ih =>
    have hx := x.toNat_lt
    cases b with
    | nil =>
      rw [strcmp]
      omega
    | cons y b =>
      have hy := y.toNat_lt
      rw [strcmp]
      split_ifs
      · exact ih b
      · omega

/-- `strcmp` on the first `n` bytes. -/
def strncmp : List UInt8 → List UInt8 → ℕ → ℤ
  | _,_,0 => 0
  | [],[],_+1 => 0
  | [],b::_,_+1 => -(b.toNat : ℤ)
  | a::_,[],_+1 => (a.toNat : ℤ)
  | a::as,b::bs,n+1 => if a=b then strncmp as bs n else (a.toNat : ℤ)-b.toNat

/-- The bytes as numbers, to be compared lexicographically. -/
def unsignedBytes (s : List UInt8) : List ℕ := s.map UInt8.toNat

theorem unsignedBytes_injective : Function.Injective unsignedBytes :=
  List.map_injective_iff.mpr fun _ _ h => UInt8.toNat_inj.mp h

/-- On strings proper, the sign of `strcmp` is the lexicographic order of unsigned bytes. -/
theorem strcmp_neg_iff {a b : List UInt8} (ha : 0 ∉ a) (hb : 0 ∉ b) :
    strcmp a b < 0 ↔ unsignedBytes a < unsignedBytes b := by
  induction a generalizing b with
  | nil =>
    cases b with
    | nil => simp [strcmp]
    | cons y b =>
      have hy : y.toNat≠0 := by
        intro h
        exact hb (by simp [show y=0 from UInt8.toNat_inj.mp h])
      simp only [strcmp,unsignedBytes,List.map_nil,List.map_cons,List.nil_lt_cons,iff_true]
      omega
  | cons x a ih =>
    cases b with
    | nil => simp [strcmp,unsignedBytes]
    | cons y b =>
      rw [List.mem_cons,not_or] at ha hb
      have hrest := ih ha.2 hb.2
      simp only [unsignedBytes] at hrest
      simp only [strcmp,unsignedBytes,List.map_cons,List.cons_lt_cons_iff]
      by_cases h : x=y
      · simp [h,hrest]
      · have hne : x.toNat≠y.toNat := fun he => h (UInt8.toNat_inj.mp he)
        simp only [if_neg h,hne,false_and,or_false]
        omega

theorem strcmp_eq_zero_iff {a b : List UInt8} (ha : 0 ∉ a) (hb : 0 ∉ b) :
    strcmp a b=0 ↔ a=b := by
  have hlt := strcmp_neg_iff ha hb
  have hgt := strcmp_neg_iff hb ha
  have hswap := strcmp_swap a b
  constructor
  · intro h
    apply unsignedBytes_injective
    exact le_antisymm (not_lt.mp (mt hgt.mpr (by omega))) (not_lt.mp (mt hlt.mpr (by omega)))
  · rintro rfl
    omega

/-- `strncmp` over the length of its second string tests for a prefix. -/
theorem strncmp_length_eq_zero_iff {a b : List UInt8} (hb : 0 ∉ b) :
    strncmp a b b.length=0 ↔ b.IsPrefix a := by
  induction b generalizing a with
  | nil => simp [strncmp]
  | cons y b ih =>
    rw [List.mem_cons,not_or] at hb
    cases a with
    | nil =>
      have hy : y.toNat≠0 := fun h => hb.1 (UInt8.toNat_inj.mp h).symm
      simp only [List.length_cons,strncmp,List.prefix_nil,reduceCtorEq,iff_false]
      omega
    | cons x a =>
      rw [List.length_cons,strncmp,List.cons_prefix_cons]
      by_cases h : x=y
      · simp [h,ih hb.2]
      · have hne : x.toNat≠y.toNat := fun he => h (UInt8.toNat_inj.mp he)
        have hne' : y≠x := Ne.symm h
        simp only [if_neg h,hne',false_and,iff_false]
        omega

end NeOs

import Mathlib

/-! Numbers as sequences of bytes, the lowest one first, and strings that end at the first zero. -/
namespace NeOs.Library
namespace Bytes

/-- The `w` lowest bytes of `n`. -/
def le : ℕ → ℕ → List UInt8
  | 0,_ => []
  | w+1,n => UInt8.ofNat n::le w (n/256)

/-- The number that a sequence of bytes stands for. -/
def toNat : List UInt8 → ℕ
  | [] => 0
  | b::bs => b.toNat+256*toNat bs

@[simp] theorem length_le (w n : ℕ) : (le w n).length=w := by
  induction w generalizing n with
  | zero => rfl
  | succ w ih => rw [le,List.length_cons,ih]

theorem toNat_le {w n : ℕ} (h : n < 256^w) : toNat (le w n)=n := by
  induction w generalizing n with
  | zero =>
    rw [pow_zero,Nat.lt_one_iff] at h
    rw [h]
    rfl
  | succ w ih =>
    have hdiv : n/256 < 256^w := by
      rw [Nat.div_lt_iff_lt_mul (by norm_num)]
      rwa [← pow_succ]
    rw [le,toNat,ih hdiv,UInt8.toNat_ofNat']
    omega

/-- The string at the front of a block of bytes. -/
def cstring (bs : List UInt8) : List UInt8 := bs.takeWhile fun b => b≠0

theorem cstring_of_terminated {s : List UInt8} (h : 0 ∉ s) (rest : List UInt8) :
    cstring (s++0::rest)=s := by
  rw [cstring,List.takeWhile_append_of_pos]
  · simp
  · intro b hb
    rw [decide_eq_true_eq]
    rintro rfl
    exact h hb

end Bytes
end NeOs.Library

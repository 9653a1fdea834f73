import NeOs.Library.Cells

/-! Binary heaps in an array. The children of the node `k` are the nodes `2*k+1` and `2*k+2`, and
`r a b` says that `a` may stand above `b`. -/
namespace NeOs.Library
namespace Heap
variable {α : Type*} {r : α → α → Prop} {v : ℕ → α} {lo n k j : ℕ}

/-- Every node `c ≤ n` whose parent is not before `lo` stands below its parent. -/
def From (r : α → α → Prop) (v : ℕ → α) (lo n : ℕ) : Prop :=
  ∀ c, 0 < c → c ≤ n → lo ≤ (c-1)/2 → r (v ((c-1)/2)) (v c)

/-- The same but for the children of `k`, which stand below the parent of `k`. -/
structure FromBut (r : α → α → Prop) (v : ℕ → α) (lo n k : ℕ) : Prop where
  others : ∀ c, 0 < c → c ≤ n → lo ≤ (c-1)/2 → (c-1)/2≠k → r (v ((c-1)/2)) (v c)
  across : ∀ c, 0 < c → c ≤ n → (c-1)/2=k → 0 < k → lo ≤ (k-1)/2 → r (v ((k-1)/2)) (v c)

theorem from_of_childless (h : n ≤ 2*lo) : From r v lo n := by
  intro c hc hn hlo
  omega

/-- A heap from `k+1` on is one from `k` on, but for `k`. -/
theorem From.but (h : From r v (k+1) n) : FromBut r v k n k :=
  ⟨fun c hc hn hlo hne => h c hc hn (by omega),fun c hc hn hk hpos hlo => by omega⟩

/-- Nothing stands above the root. -/
theorem From.root_but (h : From r v 0 n) {w : ℕ → α} (hn : j ≤ n)
    (hw : ∀ i, 0 < i → i ≤ j → w i=v i) : FromBut r w 0 j 0 := by
  refine ⟨fun c hc hcj _ hne => ?_,fun c _ _ _ hpos => absurd hpos (lt_irrefl 0)⟩
  rw [hw c hc hcj,hw _ (by omega) (by omega)]
  exact h c hc (by omega) (Nat.zero_le _)

theorem FromBut.finish (h : FromBut r v lo n k)
    (hk : ∀ c, 0 < c → c ≤ n → (c-1)/2=k → r (v k) (v c)) : From r v lo n := by
  intro c hc hn hlo
  by_cases hp : (c-1)/2=k
  · rw [hp]
    exact hk c hc hn hp
  · exact h.others c hc hn hlo hp

/-- Exchange `k` with the child that may stand above `k` and above the other child. -/
theorem FromBut.move (h : FromBut r v lo n k) (hlo : lo ≤ k) (hpos : 0 < j) (hj : j ≤ n)
    (hp : (j-1)/2=k) (hjk : r (v j) (v k))
    (hsib : ∀ c, 0 < c → c ≤ n → (c-1)/2=k → c≠j → r (v j) (v c)) :
    FromBut r (Cells.swap v j k) lo n j := by
  have hother : ∀ i, i≠j → i≠k → Cells.swap v j k i=v i := fun i hij hik =>
    Cells.swap_of_ne v hij hik
  constructor
  · intro c hc hn hloc hne
    by_cases hcj : c=j
    · rw [hcj,hp,Cells.swap_left,Cells.swap_right]
      exact hjk
    · by_cases hck : c=k
      · rw [hck,Cells.swap_right,hother _ (by omega) (by omega)]
        exact h.across j hpos hj hp (by omega) (by omega)
      · rw [hother c hcj hck]
        by_cases hpk : (c-1)/2=k
        · rw [hpk,Cells.swap_right]
          exact hsib c hc hn hpk hcj
        · rw [hother _ hne hpk]
          exact h.others c hc hn hloc hpk
  · intro c hc hn hcj _ _
    rw [hp,Cells.swap_right,hother c (by omega) (by omega),← hcj]
    exact h.others c hc hn (by omega) (by omega)

/-- In a heap the root may stand above every node. -/
theorem From.root (h : From r v 0 n) (hrefl : r (v 0) (v 0))
    (htrans : ∀ i ≤ n, ∀ c ≤ n, r (v 0) (v i) → r (v i) (v c) → r (v 0) (v c)) {c : ℕ} (hc : c ≤ n) :
    r (v 0) (v c) := by
  induction c using Nat.strong_induction_on with
  | h c ih =>
    rcases Nat.eq_zero_or_pos c with rfl | hpos
    · exact hrefl
    · exact htrans _ (by omega) c hc (ih _ (by omega) (by omega)) (h c hpos hc (Nat.zero_le _))

end Heap
end NeOs.Library

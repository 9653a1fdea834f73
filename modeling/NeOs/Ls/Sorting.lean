import NeOs.Ls.Model

/-! The three comparison functions, and the order in which the flags ask for the entries. -/
namespace NeOs
open Library
namespace Ls

/-- Ascending `strcmp`. -/
def nameBefore (a b : Dirent) : Prop := strcmp a.dName b.dName < 0

/-- Ascending length, then ascending `strcmp`. -/
def widthBefore (a b : Dirent) : Prop :=
  a.dName.length < b.dName.length ∨
    (a.dName.length=b.dName.length ∧ strcmp a.dName b.dName < 0)

/-- `shown` is `entries` in the order chosen by the flags. -/
def InChosenOrder (flags : Flags) (entries shown : List Dirent) : Prop :=
  match flags.sort with
  | .none => shown=if flags.reverse then entries.reverse else entries
  | .name => shown.Perm entries ∧
      (if flags.reverse then shown.reverse else shown).Pairwise nameBefore
  | .width => shown.Perm entries ∧
      (if flags.reverse then shown.reverse else shown).Pairwise widthBefore

theorem InChosenOrder.perm {flags : Flags} {entries shown : List Dirent}
    (h : InChosenOrder flags entries shown) : shown.Perm entries := by
  unfold InChosenOrder at h
  cases hs : flags.sort with
  | none =>
    rw [hs] at h
    rw [h]
    split_ifs
    · exact List.reverse_perm entries
    · exact List.Perm.refl entries
  | name =>
    rw [hs] at h
    exact h.1
  | width =>
    rw [hs] at h
    exact h.1

theorem nameBefore_asymm {a b : Dirent} (h : nameBefore a b) : ¬nameBefore b a := by
  have hswap := strcmp_swap a.dName b.dName
  unfold nameBefore at *
  omega

theorem widthBefore_asymm {a b : Dirent} (h : widthBefore a b) : ¬widthBefore b a := by
  have hswap := strcmp_swap a.dName b.dName
  unfold widthBefore at *
  omega

/-- Two lists of the same elements that are strictly ordered in the same direction are equal. -/
theorem eq_of_directed {r : Dirent → Dirent → Prop} (hr : ∀ {a b}, r a b → ¬r b a)
    {reverse : Bool} {xs ys : List Dirent} (h : xs.Perm ys)
    (hx : (if reverse then xs.reverse else xs).Pairwise r)
    (hy : (if reverse then ys.reverse else ys).Pairwise r) : xs=ys := by
  cases reverse with
  | false => exact h.eq_of_pairwise (fun a b _ _ hab hba => absurd hba (hr hab)) hx hy
  | true =>
    have hp : xs.reverse.Perm ys.reverse :=
      (List.reverse_perm xs).trans (h.trans (List.reverse_perm ys).symm)
    exact List.reverse_injective
      (hp.eq_of_pairwise (fun a b _ _ hab hba => absurd hba (hr hab)) hx hy)

/-- In the sorted modes the chosen order does not depend on the order of the entries. -/
theorem InChosenOrder.unique {flags : Flags} (hs : flags.sort≠.none)
    {entries entries' shown shown' : List Dirent} (hp : entries.Perm entries')
    (h : InChosenOrder flags entries shown) (h' : InChosenOrder flags entries' shown') :
    shown=shown' := by
  have hperm : shown.Perm shown' := h.perm.trans (hp.trans h'.perm.symm)
  unfold InChosenOrder at h h'
  cases hm : flags.sort with
  | none => exact absurd hm hs
  | name =>
    rw [hm] at h h'
    exact eq_of_directed nameBefore_asymm hperm h.2 h'.2
  | width =>
    rw [hm] at h h'
    exact eq_of_directed widthBefore_asymm hperm h.2 h'.2

section Comparators
variable {names : Slots (List UInt8)} {idxs : List ℕ}

/-- `compare_names` compares the names as unsigned bytes. -/
theorem compareNames_comparesBy (h : ∀ i ∈ idxs, 0 ∉ nameAt names i) :
    ComparesBy (compareNames names 1) (fun i => unsignedBytes (nameAt names i)) idxs := by
  intro a ha b hb
  simp only [compareNames,mul_one]
  rw [unsignedBytes_injective.eq_iff]
  exact ⟨strcmp_neg_iff (h a ha) (h b hb),strcmp_eq_zero_iff (h a ha) (h b hb)⟩

/-- `compare_lenghts` compares the lengths first. -/
theorem compareLenghts_comparesBy (h : ∀ i ∈ idxs, 0 ∉ nameAt names i) :
    ComparesBy (compareLenghts names 1)
      (fun i => toLex ((nameAt names i).length,unsignedBytes (nameAt names i))) idxs := by
  intro a ha b hb
  have hlt := strcmp_neg_iff (h a ha) (h b hb)
  have heq := strcmp_eq_zero_iff (h a ha) (h b hb)
  simp only [Prod.Lex.toLex_lt_toLex,toLex_inj,Prod.mk.injEq,unsignedBytes_injective.eq_iff,
    compareLenghts,mul_one]
  by_cases hl : (nameAt names a).length=(nameAt names b).length
  · simp [hl,hlt,heq]
  · rw [if_neg hl]
    simp only [hl,false_and,or_false,iff_false]
    split_ifs
    · exact ⟨by omega,by omega⟩
    · omega
    · exact ⟨by omega,by norm_num⟩

theorem compareNames_neg (names : Slots (List UInt8)) :
    compareNames names (-1)=fun a b => -compareNames names 1 a b := by
  funext a b
  simp [compareNames]

theorem compareLenghts_neg (names : Slots (List UInt8)) :
    compareLenghts names (-1)=fun a b => -compareLenghts names 1 a b := by
  funext a b
  simp only [compareLenghts]
  split_ifs <;> simp

/-- `reverse_order` compares indices in descending order. -/
theorem reverseOrder_comparesBy (idxs : List ℕ) :
    ComparesBy reverseOrder (fun i => OrderDual.toDual i) idxs := by
  intro a _ b _
  simp only [reverseOrder,OrderDual.toDual_lt_toDual,OrderDual.toDual_inj]
  split_ifs with hle hlt
  · exact ⟨by omega,by omega⟩
  · exact ⟨by omega,by omega⟩
  · have hne : a≠b := by omega
    simp only [hne]
    exact ⟨by omega,by norm_num⟩

/-- The results are small, so that none leaves the range of an `int`. -/
theorem natAbs_compare_le (names : Slots (List UInt8)) {polarity : ℤ}
    (hp : polarity=1 ∨ polarity= -1) (a b : ℕ) :
    (compareNames names polarity a b).natAbs ≤ 255 ∧
      (compareLenghts names polarity a b).natAbs ≤ 255 := by
  have hstr := natAbs_strcmp_le (nameAt names a) (nameAt names b)
  have hpol : polarity.natAbs=1 := by omega
  simp only [compareNames,compareLenghts]
  split_ifs
  · simpa [Int.natAbs_mul,hpol] using hstr
  · simpa [Int.natAbs_mul,hpol] using hstr
  · simpa [Int.natAbs_mul,hpol] using hstr
  · simpa [Int.natAbs_mul,hpol] using hstr

/-- A comparison and its negation, as the two polarities have them, order totally by one key. -/
theorem ordersTotally_polarity {κ : Type*} [LinearOrder κ] {cmp : ℤ → ℕ → ℕ → ℤ} {key : ℕ → κ}
    (hneg : cmp (-1)=fun a b => -cmp 1 a b) (hcmp : ComparesBy (cmp 1) key idxs) {polarity : ℤ}
    (hp : polarity=1 ∨ polarity= -1) :
    OrdersTotally (cmp polarity) (fun a b => key a=key b) idxs := by
  rcases hp with rfl | rfl
  · exact hcmp.ordersTotally
  · rw [hneg]
    exact hcmp.neg.ordersTotally

theorem nameAt_mem {names : Slots (List UInt8)} {i : ℕ} (hi : i ∈ List.range names.length) :
    nameAt names i ∈ names.elems := by
  have hlt : i < names.elems.length := List.mem_range.mp hi
  rw [nameAt,List.getD_eq_getElem _ _ hlt]
  exact List.getElem_mem hlt

/-- The comparison functions are total orders: of the names by their bytes, of the names by their
lengths and then their bytes, and of the indices in descending order. -/
theorem comparators_order_totally {names : Slots (List UInt8)} (hnul : ∀ s ∈ names.elems, 0 ∉ s)
    {polarity : ℤ} (hp : polarity=1 ∨ polarity= -1) :
    OrdersTotally (compareNames names polarity) (fun a b => nameAt names a=nameAt names b)
      (List.range names.length) ∧
    OrdersTotally (compareLenghts names polarity) (fun a b => nameAt names a=nameAt names b)
      (List.range names.length) ∧
    (∀ a ∈ List.range names.length, ∀ b ∈ List.range names.length,
      (compareNames names 1 a b < 0 ↔
        unsignedBytes (nameAt names a) < unsignedBytes (nameAt names b)) ∧
      (compareLenghts names 1 a b < 0 ↔
        (nameAt names a).length < (nameAt names b).length ∨
          ((nameAt names a).length=(nameAt names b).length ∧
            unsignedBytes (nameAt names a) < unsignedBytes (nameAt names b)))) ∧
    (∀ a b, (compareNames names polarity a b).natAbs ≤ 255 ∧
      (compareLenghts names polarity a b).natAbs ≤ 255) ∧
    (∀ idxs, OrdersTotally reverseOrder (fun a b => a=b) idxs) ∧
    ∀ a b, reverseOrder a b < 0 ↔ b < a := by
  have hidx : ∀ i ∈ List.range names.length, 0 ∉ nameAt names i := fun i hi => hnul _ (nameAt_mem hi)
  have hname := compareNames_comparesBy hidx
  have hwidth := compareLenghts_comparesBy hidx
  refine ⟨?_,?_,?_,natAbs_compare_le names hp,?_,?_⟩
  · apply (ordersTotally_polarity (compareNames_neg names) hname hp).congr
    intro a b
    exact unsignedBytes_injective.eq_iff
  · apply (ordersTotally_polarity (compareLenghts_neg names) hwidth hp).congr
    intro a b
    rw [toLex_inj,Prod.mk.injEq,unsignedBytes_injective.eq_iff,and_iff_right_iff_imp]
    exact congrArg List.length
  · intro a ha b hb
    refine ⟨(hname a ha b hb).1,?_⟩
    rw [(hwidth a ha b hb).1,Prod.Lex.toLex_lt_toLex]
  · intro idxs
    exact (reverseOrder_comparesBy idxs).ordersTotally.congr fun a b => OrderDual.toDual_inj
  · intro a b
    rw [(reverseOrder_comparesBy [a,b] a (by simp) b (by simp)).1,OrderDual.toDual_lt_toDual]

/-- Three names of two lengths, in descending order. -/
theorem comparators_order_totally_three :
    OrdersTotally (compareLenghts (Slots.filled 32 [text "b",text "aa",text "a"]) (-1))
      (fun a b => nameAt (Slots.filled 32 [text "b",text "aa",text "a"]) a=
        nameAt (Slots.filled 32 [text "b",text "aa",text "a"]) b) (List.range 3) :=
  (@comparators_order_totally (Slots.filled 32 [text "b",text "aa",text "a"]) (by decide) (-1)
    (by decide)).2.1

end Comparators

section SortMap
variable {vis : List Dirent}

theorem filterMap_range (vis : List Dirent) :
    (List.range vis.length).filterMap (fun i => vis[i]?)=vis := by
  induction vis with
  | nil => rfl
  | cons e vis ih =>
    rw [List.length_cons,List.range_succ_eq_map,List.filterMap_cons,List.filterMap_map]
    simpa using ih

/-- The entries that a permutation of the indices goes through. -/
theorem filterMap_perm {L : List ℕ} (h : L.Perm (List.range vis.length)) :
    (L.filterMap fun i => vis[i]?).Perm vis := by
  have hf := h.filterMap fun i => vis[i]?
  rwa [filterMap_range] at hf

theorem map_getElem_of_perm {L : List ℕ} (h : L.Perm (List.range vis.length)) :
    L.map (fun i => vis[i]?)=(L.filterMap fun i => vis[i]?).map some := by
  have hmem : ∀ i ∈ L, i < vis.length := fun i hi => List.mem_range.mp (h.mem_iff.mp hi)
  clear h
  induction L with
  | nil => rfl
  | cons i L ih =>
    have hi := List.getElem?_eq_getElem (hmem i (by simp))
    rw [List.map_cons,List.filterMap_cons,hi,ih fun j hj => hmem j (by simp [hj])]
    rfl

/-- Beyond the entries there are none. -/
theorem map_getElem?_beyond (es : List Dirent) (k : ℕ) :
    ((List.range k).map (es.length+·)).map (fun i => es[i]?)=List.replicate k none := by
  rw [List.map_map,List.eq_replicate_iff]
  refine ⟨by simp,?_⟩
  intro o ho
  obtain ⟨i,_,rfl⟩ := List.mem_map.mp ho
  exact List.getElem?_eq_none (Nat.le_add_right _ i)

theorem range_split {k size : ℕ} (h : k ≤ size) :
    List.range size=List.range k++(List.range (size-k)).map (k+·) := by
  rw [← List.range_add,Nat.add_sub_cancel' h]

/-- Reading positions up to `size` gives the entries, then nothing. -/
theorem map_getElem?_range {es : List Dirent} {size : ℕ} (h : es.length ≤ size) :
    (List.range size).map (fun i => es[i]?)=
      es.map some++List.replicate (size-es.length) none := by
  rw [range_split h,List.map_append,map_getElem?_beyond,map_getElem_of_perm (List.Perm.refl _),
    filterMap_range]

/-- Sorting indices by a key permutes them. If the keys are distinct, it sorts the entries by the
relation that the key stands for, and a negated comparison sorts them the other way round. -/
theorem directed_sort {κ : Type*} [LinearOrder κ] (Q : Sorter ℕ) {cmp : ℤ → ℕ → ℕ → ℤ}
    {key : ℕ → κ} {r : Dirent → Dirent → Prop} (hneg : cmp (-1)=fun a b => -cmp 1 a b)
    (hcmp : ComparesBy (cmp 1) key (List.range vis.length))
    (hr : ∀ {i j a b}, vis[i]?=some a → vis[j]?=some b → key i < key j → r a b) (reverse : Bool)
    {L : List ℕ} (hL : L=Q.sort (cmp (if reverse then -1 else 1)) (List.range vis.length)) :
    L.Perm (List.range vis.length) ∧ (((List.range vis.length).map key).Nodup →
      (if reverse then (L.filterMap fun i => vis[i]?).reverse
        else L.filterMap fun i => vis[i]?).Pairwise r) := by
  cases reverse with
  | false =>
    obtain rfl : L=Q.sort (cmp 1) (List.range vis.length) := hL
    refine ⟨(Q.sort_by_key hcmp).1,fun hk => ?_⟩
    apply List.Pairwise.filterMap _ _ (Q.sort_by_key_strict hcmp hk)
    intro i j hij a ha b hb
    exact hr ha hb hij
  | true =>
    obtain rfl : L=Q.sort (cmp (-1)) (List.range vis.length) := hL
    rw [hneg]
    refine ⟨(Q.sort_by_key hcmp.neg).1,fun hk => ?_⟩
    have hk' : ((List.range vis.length).map (OrderDual.toDual ∘ key)).Nodup := by
      rw [← List.map_map]
      exact hk.map OrderDual.toDual.injective
    simp only [if_true,List.pairwise_reverse]
    apply List.Pairwise.filterMap _ _ (Q.sort_by_key_strict hcmp.neg hk')
    intro i j hij a ha b hb
    exact hr hb ha hij

/-- Sorting by `reverse_order` turns the map round. -/
theorem sort_reverseOrder (Q : Sorter ℕ) (n : ℕ) :
    Q.sort reverseOrder (List.range n)=(List.range n).reverse := by
  obtain ⟨hperm,hsorted⟩ := Q.sort_by_key (reverseOrder_comparesBy (List.range n))
  have hdesc : (List.range n).reverse.Pairwise fun a b => OrderDual.toDual a ≤ OrderDual.toDual b :=
    List.pairwise_reverse.mpr (List.pairwise_lt_range.imp fun h => h.le)
  apply (hperm.trans (List.reverse_perm _).symm).eq_of_pairwise _ hsorted hdesc
  intro a b _ _ hab hba
  exact le_antisymm hba hab

/-- Behind the entries the map stays as it is. -/
theorem sort_append (Q : Sorter ℕ) (flags : Flags) (names : Slots (List UInt8)) (n : ℕ)
    (rest : List ℕ) :
    sort Q flags names (List.range n++rest) n=sort Q flags names (List.range n) n++rest := by
  cases hs : flags.sort with
  | none => cases hr : flags.reverse <;> simp [sort,hs,hr]
  | name => simp [sort,hs]
  | width => simp [sort,hs]

/-- The entries in the order of the sorted map. -/
def ordered (Q : Sorter ℕ) (flags : Flags) (names : Slots (List UInt8)) (vis : List Dirent) :
    List Dirent :=
  (sort Q flags names (List.range vis.length) vis.length).filterMap fun i => vis[i]?

section
variable {names : Slots (List UInt8)} (hnames : ∀ i (h : i < vis.length), nameAt names i=vis[i].dName)
include hnames

theorem nameAt_no_nul : ∀ i ∈ List.range vis.length, 0 ∉ nameAt names i := by
  intro i hi
  rw [hnames i (List.mem_range.mp hi)]
  exact Dirent.no_nul _

theorem map_nameAt_range : (List.range vis.length).map (nameAt names)=vis.map Dirent.dName := by
  apply List.ext_getElem (by simp)
  intro i hi _
  simp only [List.length_map,List.length_range] at hi
  simp [hnames i hi]

theorem nameAt_of_getElem? {i : ℕ} {e : Dirent} (h : vis[i]?=some e) : nameAt names i=e.dName := by
  obtain ⟨hi,rfl⟩ := List.getElem?_eq_some_iff.mp h
  exact hnames i hi

theorem nodup_name_keys (hd : (vis.map Dirent.dName).Nodup) :
    ((List.range vis.length).map fun i => unsignedBytes (nameAt names i)).Nodup := by
  have h := hd.map unsignedBytes_injective
  rw [← map_nameAt_range hnames,List.map_map] at h
  exact h

theorem nodup_width_keys (hd : (vis.map Dirent.dName).Nodup) :
    ((List.range vis.length).map fun i =>
      toLex ((nameAt names i).length,unsignedBytes (nameAt names i))).Nodup := by
  have h := nodup_name_keys hnames hd
  rw [List.Nodup,List.pairwise_map] at h ⊢
  refine h.imp fun hne heq => hne ?_
  exact congrArg (fun p => (ofLex p).2) heq

theorem nameBefore_of_key {i j : ℕ} {a b : Dirent} (ha : vis[i]?=some a) (hb : vis[j]?=some b)
    (h : unsignedBytes (nameAt names i) < unsignedBytes (nameAt names j)) : nameBefore a b := by
  rw [nameAt_of_getElem? hnames ha,nameAt_of_getElem? hnames hb] at h
  exact (strcmp_neg_iff a.no_nul b.no_nul).mpr h

theorem widthBefore_of_key {i j : ℕ} {a b : Dirent} (ha : vis[i]?=some a) (hb : vis[j]?=some b)
    (h : toLex ((nameAt names i).length,unsignedBytes (nameAt names i)) <
      toLex ((nameAt names j).length,unsignedBytes (nameAt names j))) : widthBefore a b := by
  rw [nameAt_of_getElem? hnames ha,nameAt_of_getElem? hnames hb,Prod.Lex.toLex_lt_toLex] at h
  rcases h with hlt | ⟨heq,hlt⟩
  · exact Or.inl hlt
  · exact Or.inr ⟨heq,(strcmp_neg_iff a.no_nul b.no_nul).mpr hlt⟩

/-- The sorted part of the map is a permutation of itself, and goes through entries with distinct
names in the chosen order. -/
theorem sorted_indices (Q : Sorter ℕ) (flags : Flags) :
    (sort Q flags names (List.range vis.length) vis.length).Perm (List.range vis.length) ∧
      ((vis.map Dirent.dName).Nodup → InChosenOrder flags vis (ordered Q flags names vis)) := by
  cases hs : flags.sort with
  | none =>
    cases hr : flags.reverse with
    | false => simp [InChosenOrder,ordered,sort,hs,hr,filterMap_range]
    | true =>
      have hsort : sort Q flags names (List.range vis.length) vis.length=
          (List.range vis.length).reverse := by
        simp [sort,hs,hr,sort_reverseOrder]
      refine ⟨hsort ▸ List.reverse_perm _,fun _ => ?_⟩
      rw [ordered,hsort,List.filterMap_reverse,filterMap_range]
      simp [InChosenOrder,hs,hr]
  | name =>
    obtain ⟨hperm,hdir⟩ := directed_sort Q (r := nameBefore) (compareNames_neg names)
      (compareNames_comparesBy (nameAt_no_nul hnames)) (nameBefore_of_key hnames) flags.reverse
      (L := sort Q flags names (List.range vis.length) vis.length) (by simp [sort,hs])
    refine ⟨hperm,fun hd => ?_⟩
    simp only [InChosenOrder,hs]
    exact ⟨filterMap_perm hperm,hdir (nodup_name_keys hnames hd)⟩
  | width =>
    obtain ⟨hperm,hdir⟩ := directed_sort Q (r := widthBefore) (compareLenghts_neg names)
      (compareLenghts_comparesBy (nameAt_no_nul hnames)) (widthBefore_of_key hnames) flags.reverse
      (L := sort Q flags names (List.range vis.length) vis.length) (by simp [sort,hs])
    refine ⟨hperm,fun hd => ?_⟩
    simp only [InChosenOrder,hs]
    exact ⟨filterMap_perm hperm,hdir (nodup_width_keys hnames hd)⟩

theorem ordered_perm (Q : Sorter ℕ) (flags : Flags) : (ordered Q flags names vis).Perm vis :=
  filterMap_perm (sorted_indices hnames Q flags).1

/-- The map after sorting: through it the cells hold the entries in the chosen order, then the
padding. -/
theorem sort_spec (Q : Sorter ℕ) (flags : Flags) {size : ℕ} (hsize : vis.length ≤ size) :
    (sort Q flags names (List.range size) vis.length).Perm (List.range size) ∧
      (sort Q flags names (List.range size) vis.length).map (fun i => vis[i]?)=
        (List.range size).map fun i => (ordered Q flags names vis)[i]? := by
  obtain ⟨hperm,-⟩ := sorted_indices hnames Q flags
  have hshown := ordered_perm hnames Q flags
  rw [map_getElem?_range (hshown.length_eq.trans_le hsize),hshown.length_eq,range_split hsize,
    sort_append,List.map_append,map_getElem?_beyond,map_getElem_of_perm hperm]
  exact ⟨hperm.append_right _,rfl⟩

/-- The reverse flag turns the sorted part of the map round. -/
theorem sort_reverse (Q : Sorter ℕ) (flags : Flags) (hd : (vis.map Dirent.dName).Nodup) :
    sort Q { flags with reverse := true } names (List.range vis.length) vis.length=
      (sort Q { flags with reverse := false } names (List.range vis.length) vis.length).reverse := by
  cases hs : flags.sort with
  | none => simp [sort,sort_reverseOrder]
  | name =>
    have h := Q.sort_neg (compareNames_comparesBy (nameAt_no_nul hnames)) (nodup_name_keys hnames hd)
    simpa [sort,hs,compareNames_neg,List.drop_eq_nil_of_le] using h
  | width =>
    have h := Q.sort_neg (compareLenghts_comparesBy (nameAt_no_nul hnames))
      (nodup_width_keys hnames hd)
    simpa [sort,hs,compareLenghts_neg,List.drop_eq_nil_of_le] using h

end

end SortMap

end Ls
end NeOs

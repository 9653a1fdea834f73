import Mathlib

/-! Finite runs of a partial step function. `none` is a step the machine cannot take, such as a
store outside its block. A guard is a condition on the state before a step; it is exact for an
invariant when the steps that meet it are those that keep the invariant. -/
namespace NeOs.Library
namespace Run
variable {σ α : Type*}

/-- Perform the listed actions one after another. -/
def run (step : σ → α → Option σ) : σ → List α → Option σ
  | s,[] => some s
  | s,a::as => (step s a).bind fun t => run step t as

@[simp] theorem run_nil (step : σ → α → Option σ) (s : σ) : run step s []=some s := rfl

@[simp] theorem run_cons (step : σ → α → Option σ) (s : σ) (a : α) (as : List α) :
    run step s (a::as)=(step s a).bind fun t => run step t as := rfl

theorem run_append (step : σ → α → Option σ) (s : σ) (as bs : List α) :
    run step s (as++bs)=(run step s as).bind fun t => run step t bs := by
  induction as generalizing s with
  | nil => simp
  | cons a as ih =>
    simp only [List.cons_append,run_cons]
    cases step s a with
    | none => rfl
    | some t => exact ih t

/-- Every action of the run meets the guard in the state it is taken from. -/
def Along (step : σ → α → Option σ) (G : σ → α → Prop) : σ → List α → Prop
  | _,[] => True
  | s,a::as => G s a ∧ ∀ t, step s a=some t → Along step G t as

@[simp] theorem along_nil (step : σ → α → Option σ) (G : σ → α → Prop) (s : σ) :
    Along step G s [] := trivial

theorem Along.tail {step : σ → α → Option σ} {G : σ → α → Prop} {s t : σ} {a : α} {as : List α}
    (h : Along step G s (a::as)) (hs : step s a=some t) : Along step G t as := h.2 t hs

instance decidableAlong (step : σ → α → Option σ) (G : σ → α → Prop)
    [∀ s a, Decidable (G s a)] : ∀ s as, Decidable (Along step G s as)
  | _,[] => isTrue trivial
  | s,a::as =>
    have : Decidable (∀ t, step s a=some t → Along step G t as) :=
      match h : step s a with
      | none => isTrue fun _ ht => nomatch ht
      | some u => match decidableAlong step G u as with
        | isTrue hu => isTrue fun t ht => by cases ht; exact hu
        | isFalse hu => isFalse fun ht => hu (ht u rfl)
    inferInstanceAs (Decidable (G s a ∧ _))

theorem along_of_forall {step : σ → α → Option σ} {G : σ → α → Prop} {s : σ} {as : List α}
    (h : ∀ a ∈ as, ∀ t, G t a) : Along step G s as := by
  induction as generalizing s with
  | nil => trivial
  | cons a as ih => exact ⟨h a (by simp) s,fun t _ => ih fun b hb => h b (by simp [hb])⟩

theorem Along.of_prefix {step : σ → α → Option σ} {G : σ → α → Prop} {s : σ} {pre as : List α}
    (h : Along step G s as) (hpre : pre.IsPrefix as) : Along step G s pre := by
  induction as generalizing s pre with
  | nil =>
    rw [List.prefix_nil.mp hpre]
    trivial
  | cons a as ih =>
    cases pre with
    | nil => trivial
    | cons b pre =>
      obtain ⟨rfl,hp⟩ := List.cons_prefix_cons.mp hpre
      exact ⟨h.1,fun t ht => ih (h.2 t ht) hp⟩

/-- Two guards that agree on the invariant `P`, which guarded actions keep, agree along a run. -/
theorem along_congr {step : σ → α → Option σ} {P : σ → Prop} {E : α → Prop}
    {G G' : σ → α → Prop} (hiff : ∀ s a, P s → E a → (G s a ↔ G' s a))
    (hkeep : ∀ s a t, P s → E a → G' s a → step s a=some t → P t) {s : σ} {as : List α}
    (hs : P s) (he : ∀ a ∈ as, E a) : Along step G s as ↔ Along step G' s as := by
  induction as generalizing s with
  | nil => simp
  | cons a as ih =>
    have ha := he a (by simp)
    have hrest : ∀ t, G' s a → step s a=some t → (Along step G t as ↔ Along step G' t as) :=
      fun t hg ht => ih (hkeep s a t hs ha hg ht) fun b hb => he b (by simp [hb])
    constructor
    · rintro ⟨hg,h⟩
      have hg' := (hiff s a hs ha).mp hg
      exact ⟨hg',fun t ht => (hrest t hg' ht).mp (h t ht)⟩
    · rintro ⟨hg',h⟩
      exact ⟨(hiff s a hs ha).mpr hg',fun t ht => (hrest t hg' ht).mpr (h t ht)⟩

/-- All states of the run, the first and the last included, exist and satisfy `P`. -/
def Always (step : σ → α → Option σ) (P : σ → Prop) (s : σ) (as : List α) : Prop :=
  ∀ pre, pre.IsPrefix as → ∃ t, run step s pre=some t ∧ P t

theorem Always.start {step : σ → α → Option σ} {P : σ → Prop} {s : σ} {as : List α}
    (h : Always step P s as) : P s := by
  obtain ⟨t,ht,hp⟩ := h [] List.nil_prefix
  cases ht
  exact hp

theorem always_nil {step : σ → α → Option σ} {P : σ → Prop} {s : σ} (h : P s) :
    Always step P s [] := by
  intro pre hpre
  rw [List.prefix_nil.mp hpre]
  exact ⟨s,rfl,h⟩

theorem always_cons {step : σ → α → Option σ} {P : σ → Prop} {s : σ} {a : α} {as : List α} :
    Always step P s (a::as) ↔ P s ∧ ∃ t, step s a=some t ∧ Always step P t as := by
  constructor
  · intro h
    refine ⟨h.start,?_⟩
    obtain ⟨t,ht,-⟩ := h [a] (by simp)
    have hs : step s a=some t := by simpa using ht
    refine ⟨t,hs,fun pre hpre => ?_⟩
    simpa [hs] using h (a::pre) (List.cons_prefix_cons.mpr ⟨rfl,hpre⟩)
  · rintro ⟨hp,t,hs,h⟩ pre hpre
    cases pre with
    | nil => exact ⟨s,rfl,hp⟩
    | cons b pre =>
      obtain ⟨rfl,hp'⟩ := List.cons_prefix_cons.mp hpre
      simpa [hs] using h pre hp'

/-- Exact guard rule. Inside the envelope `E`, a guarded step from the invariant `P` succeeds and
keeps it, and any other step loses the property `Q` that the invariant carries. Then a run keeps
`Q` throughout precisely when all its steps are guarded. -/
theorem always_iff_along {step : σ → α → Option σ} {P Q : σ → Prop} {E G : σ → α → Prop}
    (hcarry : ∀ s, P s → Q s)
    (hkeep : ∀ s a, P s → E s a → G s a → ∃ t, step s a=some t ∧ P t)
    (hlose : ∀ s a t, P s → E s a → step s a=some t → Q t → G s a)
    {s : σ} {as : List α} (hs : P s) (he : Along step E s as) :
    Always step Q s as ↔ Along step G s as := by
  induction as generalizing s with
  | nil => simpa using always_nil (hcarry s hs)
  | cons a as ih =>
    rw [always_cons]
    constructor
    · rintro ⟨-,t,ht,h⟩
      have hg := hlose s a t hs he.1 ht h.start
      obtain ⟨u,hu,hp⟩ := hkeep s a hs he.1 hg
      cases ht.symm.trans hu
      refine ⟨hg,fun u hu => ?_⟩
      cases ht.symm.trans hu
      exact (ih hp (he.tail ht)).mp h
    · intro hg
      obtain ⟨t,ht,hp⟩ := hkeep s a hs he.1 hg.1
      exact ⟨hcarry s hs,t,ht,(ih hp (he.tail ht)).mpr (hg.tail ht)⟩

/-- All states that the run reaches satisfy `P`, whether or not the machine can finish it. -/
def Throughout (step : σ → α → Option σ) (P : σ → Prop) (s : σ) (as : List α) : Prop :=
  ∀ pre t, pre.IsPrefix as → run step s pre=some t → P t

/-- Guard rule for reached states. -/
theorem throughout_of_along {step : σ → α → Option σ} {P : σ → Prop} {G : σ → α → Prop}
    (hkeep : ∀ s a t, P s → G s a → step s a=some t → P t) {s : σ} {as : List α} (hs : P s)
    (hg : Along step G s as) : Throughout step P s as := by
  induction as generalizing s with
  | nil =>
    intro pre t hpre hrun
    rw [List.prefix_nil.mp hpre] at hrun
    cases hrun
    exact hs
  | cons a as ih =>
    intro pre t hpre hrun
    cases pre with
    | nil =>
      cases hrun
      exact hs
    | cons b pre =>
      obtain ⟨rfl,hp⟩ := List.cons_prefix_cons.mp hpre
      obtain ⟨u,hu,hrun'⟩ := Option.bind_eq_some_iff.mp hrun
      exact ih (hkeep s b u hs hg.1 hu) (hg.tail hu) pre t hp hrun'

/-- What every step keeps, every run keeps. -/
theorem run_invariant {step : σ → α → Option σ} {P : σ → Prop}
    (hkeep : ∀ s a t, P s → step s a=some t → P t) {s t : σ} {as : List α} (hs : P s)
    (hrun : run step s as=some t) : P t := by
  induction as generalizing s with
  | nil =>
    cases hrun
    exact hs
  | cons a as ih =>
    obtain ⟨u,hu,hrun'⟩ := Option.bind_eq_some_iff.mp hrun
    exact ih (hkeep s a u hs hu) hrun'

/-- A run is no longer than a measure that every step lowers. -/
theorem run_length_le {step : σ → α → Option σ} {μ : σ → ℕ}
    (hless : ∀ s a t, step s a=some t → μ t < μ s) {s t : σ} {as : List α}
    (hrun : run step s as=some t) : as.length+μ t ≤ μ s := by
  induction as generalizing s with
  | nil =>
    cases hrun
    exact (Nat.zero_add _).le
  | cons a as ih =>
    obtain ⟨u,hu,hrun'⟩ := Option.bind_eq_some_iff.mp hrun
    have hstep := hless s a u hu
    have hrest := ih hrun'
    rw [List.length_cons]
    omega

/-- Two runs with actions that `R` relates end in states that `P` relates, if one step of each does. -/
theorem run_related {step : σ → α → Option σ} {P : σ → σ → Prop} {R : α → α → Prop}
    (hstep : ∀ s s' a a' t t', P s s' → R a a' → step s a=some t → step s' a'=some t' → P t t')
    {s s' t t' : σ} {as as' : List α} (hR : List.Forall₂ R as as') (hs : P s s')
    (hrun : run step s as=some t) (hrun' : run step s' as'=some t') : P t t' := by
  induction hR generalizing s s' with
  | nil =>
    cases hrun
    cases hrun'
    exact hs
  | cons ha _ ih =>
    obtain ⟨u,hu,hrest⟩ := Option.bind_eq_some_iff.mp hrun
    obtain ⟨u',hu',hrest'⟩ := Option.bind_eq_some_iff.mp hrun'
    exact ih (hstep _ _ _ _ _ _ hs ha hu hu') hrest hrest'

/-- A run that leaves its guard does so at some reached state. -/
theorem exists_of_not_along {step : σ → α → Option σ} {G : σ → α → Prop} {s : σ} {as : List α}
    (h : ¬Along step G s as) :
    ∃ pre a t, (pre++[a]).IsPrefix as ∧ run step s pre=some t ∧ ¬G t a := by
  induction as generalizing s with
  | nil => exact absurd trivial h
  | cons a as ih =>
    by_cases hg : G s a
    · have hrest : ∃ t, step s a=some t ∧ ¬Along step G t as := by
        by_contra hno
        push Not at hno
        exact h ⟨hg,hno⟩
      obtain ⟨t,ht,hna⟩ := hrest
      obtain ⟨pre,b,u,hpre,hrun,hb⟩ := ih hna
      refine ⟨a::pre,b,u,List.cons_prefix_cons.mpr ⟨rfl,hpre⟩,?_,hb⟩
      simpa [ht] using hrun
    · exact ⟨[],a,s,by simp,rfl,hg⟩

/-- A relation that the steps of a run carry over to a second machine relates whole runs. -/
theorem run_simulates_of_mem {τ : Type*} {step : σ → α → Option σ} {step' : τ → α → Option τ}
    {R : σ → τ → Prop} {as : List α}
    (hstep : ∀ s s' a t, a ∈ as → R s s' → step s a=some t → ∃ t', step' s' a=some t' ∧ R t t')
    {s t : σ} {s' : τ} (hs : R s s') (hrun : run step s as=some t) :
    ∃ t', run step' s' as=some t' ∧ R t t' := by
  induction as generalizing s s' with
  | nil =>
    cases hrun
    exact ⟨s',rfl,hs⟩
  | cons a as ih =>
    obtain ⟨u,hu,hrun'⟩ := Option.bind_eq_some_iff.mp hrun
    obtain ⟨u',hu',hr⟩ := hstep s s' a u (by simp) hs hu
    obtain ⟨t',ht',hrt⟩ := ih (fun s s' b t hb => hstep s s' b t (by simp [hb])) hr hrun'
    exact ⟨t',by simpa [hu'] using ht',hrt⟩

/-- A relation that every step of the first machine carries over to the second one relates whole
runs. -/
theorem run_simulates {τ : Type*} {step : σ → α → Option σ} {step' : τ → α → Option τ}
    {R : σ → τ → Prop}
    (hstep : ∀ s s' a t, R s s' → step s a=some t → ∃ t', step' s' a=some t' ∧ R t t')
    {s t : σ} {s' : τ} {as : List α} (hs : R s s') (hrun : run step s as=some t) :
    ∃ t', run step' s' as=some t' ∧ R t t' :=
  run_simulates_of_mem (fun s s' a t _ => hstep s s' a t) hs hrun

/-- Steps that agree on the actions of a run give the same run. -/
theorem run_congr {step step' : σ → α → Option σ} {as : List α}
    (h : ∀ a ∈ as, ∀ s, step s a=step' s a) (s : σ) : run step s as=run step' s as := by
  induction as generalizing s with
  | nil => rfl
  | cons a as ih =>
    rw [run_cons,run_cons,h a (by simp)]
    cases step' s a with
    | none => rfl
    | some t => exact ih (fun b hb => h b (by simp [hb])) t

/-- A step that either stops the run or updates the state stops it at the first action it refuses. -/
theorem run_ite {ok : α → Prop} [DecidablePred ok] {next : σ → α → σ} (s : σ) (as : List α) :
    run (fun s a => if ok a then some (next s a) else none) s as=
      if ∀ a ∈ as, ok a then some (as.foldl next s) else none := by
  induction as generalizing s with
  | nil => simp
  | cons a as ih =>
    by_cases ha : ok a
    · simp [ha,ih]
    · simp [ha]

/-- A machine with two components, whose actions each work on one of them, runs the two
subsequences of its actions independently of how they are interleaved. -/
theorem run_interleaved {β γ : Type*} {step : σ → α → Option σ} {mk : β → γ → σ} {left : α → Bool}
    {stepL : β → α → Option β} {stepR : γ → α → γ}
    (hl : ∀ b c a, left a=true → step (mk b c) a=(stepL b a).map fun b' => mk b' c)
    (hr : ∀ b c a, left a=false → step (mk b c) a=some (mk b (stepR c a))) (b : β) (c : γ)
    (as : List α) :
    run step (mk b c) as=(run stepL b (as.filter left)).map fun b' =>
      mk b' ((as.filter fun a => !left a).foldl stepR c) := by
  induction as generalizing b c with
  | nil => rfl
  | cons a as ih =>
    cases ha : left a with
    | true =>
      rw [run_cons,hl b c a ha,List.filter_cons_of_pos ha,List.filter_cons_of_neg (by simp [ha]),
        run_cons]
      cases stepL b a with
      | none => rfl
      | some b' => exact ih b' c
    | false =>
      have hskip : (a::as).filter left=as.filter left := List.filter_cons_of_neg (by simp [ha])
      have htake : ((a::as).filter fun a => !left a)=a::as.filter fun a => !left a :=
        List.filter_cons_of_pos (by simp [ha])
      rw [run_cons,hr b c a ha,hskip,htake]
      exact ih b (stepR c a)

end Run
end NeOs.Library

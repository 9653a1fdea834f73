import NeOs.Library.Traced

/-! Computations over a state that emit events and may fault, and how they simulate computations
without it. A fault leaves the state in which it happened. -/
namespace NeOs.Library

def Stateful (σ ε ψ α : Type) : Type := σ → Traced ε ψ α × σ

namespace Stateful
variable {σ ε φ ψ α β γ δ : Type}

def andThen (x : Stateful σ ε ψ α) (f : α → Stateful σ ε ψ β) : Stateful σ ε ψ β := fun s =>
  match (x s).1.result with
  | .ok a => (⟨(x s).1.events++(f a (x s).2).1.events,(f a (x s).2).1.result⟩,(f a (x s).2).2)
  | .error e => (⟨(x s).1.events,.error e⟩,(x s).2)

instance : Monad (Stateful σ ε ψ) where
  pure a := fun s => (Traced.done [] a,s)
  bind := andThen

/-- A computation that does not see the state. What its faults count as is told by `as`. -/
def lift (as : φ → ψ) (x : Traced ε φ α) : Stateful σ ε ψ α := fun s =>
  (⟨x.events,x.result.mapError as⟩,s)

def update (f : σ → σ) : Stateful σ ε ψ Unit := fun s => (Traced.done [] (),f s)

def fail (e : ψ) : Stateful σ ε ψ α := fun s => (Traced.fail e,s)

theorem bind_done {x : Stateful σ ε ψ α} {s t : σ} {es : List ε} {a : α}
    (h : x s=(Traced.done es a,t)) (f : α → Stateful σ ε ψ β) :
    (x >>= f) s=(⟨es++(f a t).1.events,(f a t).1.result⟩,(f a t).2) := by
  change andThen x f s=_
  simp only [andThen,h]
  rfl

theorem eq_done {x : Traced ε φ α} {es : List ε} {a : α} (hev : x.events=es)
    (hres : x.result=.ok a) : x=Traced.done es a := by
  obtain ⟨es',r⟩ := x
  obtain rfl : es'=es := hev
  obtain rfl : r=.ok a := hres
  rfl

section Yields

/-- From `s` the computation ends, silently, with a result and in a state of which `P` holds. -/
def Yields (s : σ) (x : Stateful σ ε ψ α) (P : α → σ → Prop) : Prop :=
  ∃ a t, x s=(Traced.done [] a,t) ∧ P a t

theorem Yields.pure {s : σ} {a : α} {P : α → σ → Prop} (h : P a s) :
    Yields s (Pure.pure a : Stateful σ ε ψ α) P :=
  ⟨a,s,rfl,h⟩

theorem Yields.bind {s : σ} {x : Stateful σ ε ψ α} {f : α → Stateful σ ε ψ β} {P : α → σ → Prop}
    {Q : β → σ → Prop} (hx : Yields s x P) (hf : ∀ a t, P a t → Yields t (f a) Q) :
    Yields s (x >>= f) Q := by
  obtain ⟨a,t,hx,hP⟩ := hx
  obtain ⟨b,u,hf,hQ⟩ := hf a t hP
  refine ⟨b,u,?_,hQ⟩
  rw [bind_done hx,hf]
  rfl

theorem Yields.imp {s : σ} {x : Stateful σ ε ψ α} {P Q : α → σ → Prop} (h : Yields s x P)
    (himp : ∀ a t, P a t → Q a t) : Yields s x Q := by
  obtain ⟨a,t,hx,hP⟩ := h
  exact ⟨a,t,hx,himp a t hP⟩

/-- A silent loop follows a fold. -/
theorem Yields.foldlM {f : α → γ → Stateful σ ε ψ α} {g : β → γ → β} {R : α → β → σ → Prop}
    (h : ∀ a b s c, R a b s → Yields s (f a c) fun a' t => R a' (g b c) t) (l : List γ) {a : α}
    {b : β} {s : σ} (hR : R a b s) : Yields s (l.foldlM f a) fun a' t => R a' (l.foldl g b) t := by
  induction l generalizing a b s with
  | nil => exact Yields.pure hR
  | cons c l ih => exact (h a b s c hR).bind fun a' t ht => ih ht

end Yields

section Simulates
variable (as : φ → ψ) (E : σ → Prop)

/-- From `s` the computation `x` does what `y` does: it emits the same events, `Q` relates their
results, and a fault of `y` is one of `x`, as `as` tells, in a state of which `E` holds. -/
def Simulates (s : σ) (x : Stateful σ ε ψ α) (y : Traced ε φ β) (Q : List ε → α → β → σ → Prop) :
    Prop :=
  (x s).1.events=y.events ∧
    match y.result with
    | .ok b => ∃ a, (x s).1.result=.ok a ∧ Q y.events a b (x s).2
    | .error e => (x s).1.result=.error (as e) ∧ E (x s).2

variable {as} {E} {s : σ} {x : Stateful σ ε ψ α} {y : Traced ε φ β} {Q : List ε → α → β → σ → Prop}

theorem simulates_done {es : List ε} {a : α} {b : β} {t : σ} (h : x s=(Traced.done es a,t))
    (hQ : Q es a b t) : Simulates as E s x (Traced.done es b) Q :=
  ⟨by rw [h]; rfl,a,by rw [h]; rfl,by rw [h]; exact hQ⟩

theorem simulates_pure {a : α} {b : β} (h : Q [] a b s) :
    Simulates as E s (pure a : Stateful σ ε ψ α) (pure b) Q :=
  simulates_done rfl h

/-- A computation that does not see the state simulates itself. -/
theorem simulates_lift {Q : List ε → β → β → σ → Prop} (hE : E s)
    (hQ : ∀ b, y.result=.ok b → Q y.events b b s) : Simulates as E s (lift as y) y Q := by
  obtain ⟨es,r⟩ := y
  cases r with
  | error e => exact ⟨rfl,rfl,hE⟩
  | ok b => exact ⟨rfl,b,rfl,hQ b rfl⟩

theorem Simulates.bind {f : α → Stateful σ ε ψ γ} {g : β → Traced ε φ δ}
    {R : List ε → γ → δ → σ → Prop} (hx : Simulates as E s x y Q)
    (hf : ∀ a b t, y.result=.ok b → Q y.events a b t →
      Simulates as E t (f a) (g b) fun es c d u => R (y.events++es) c d u) :
    Simulates as E s (x >>= f) (y >>= g) R := by
  obtain ⟨es,r⟩ := y
  obtain ⟨hev,hres⟩ := hx
  cases r with
  | error e =>
    have hbind : (x >>= f) s=(⟨(x s).1.events,.error (as e)⟩,(x s).2) := by
      change andThen x f s=_
      simp only [andThen,hres.1]
    refine ⟨?_,?_,?_⟩
    · rw [hbind]
      exact hev
    · rw [hbind]
    · rw [hbind]
      exact hres.2
  | ok b =>
    obtain ⟨a,ha,hQ⟩ := hres
    have hdone : x s=(Traced.done es a,(x s).2) := Prod.ext (eq_done hev ha) rfl
    obtain ⟨hev',hres'⟩ := hf a b (x s).2 rfl hQ
    have hbind := bind_done hdone f
    have hplain : (Traced.mk es (.ok b) >>= g)=⟨es++(g b).events,(g b).result⟩ := rfl
    rw [hplain]
    unfold Simulates
    rw [hbind]
    exact ⟨congrArg (es++·) hev',hres'⟩

/-- A computation that does not see the state comes first on both sides. -/
theorem simulates_lift_bind {f : β → Stateful σ ε ψ γ} {g : β → Traced ε φ δ}
    {R : List ε → γ → δ → σ → Prop} (hE : E s)
    (hf : ∀ b, y.result=.ok b → Simulates as E s (f b) (g b) fun es c d u => R (y.events++es) c d u) :
    Simulates as E s (lift as y >>= f) (y >>= g) R := by
  refine (simulates_lift (Q := fun _ a b t => a=b ∧ t=s) hE fun _ _ => ⟨rfl,rfl⟩).bind ?_
  rintro a b t hb ⟨rfl,rfl⟩
  exact hf a hb

/-- A silent computation comes first. -/
theorem Yields.simulates {P : α → σ → Prop} {f : α → Stateful σ ε ψ γ} {y : Traced ε φ δ}
    {R : List ε → γ → δ → σ → Prop} (hx : Yields s x P)
    (hf : ∀ a t, P a t → Simulates as E t (f a) y R) : Simulates as E s (x >>= f) y R := by
  obtain ⟨a,t,hx,hP⟩ := hx
  have h := hf a t hP
  unfold Simulates at *
  rw [bind_done hx]
  exact h

theorem Simulates.imp {R : List ε → α → β → σ → Prop} (h : Simulates as E s x y Q)
    (himp : ∀ a b t, y.result=.ok b → Q y.events a b t → R y.events a b t) :
    Simulates as E s x y R := by
  obtain ⟨es,r⟩ := y
  obtain ⟨hev,hres⟩ := h
  cases r with
  | error e => exact ⟨hev,hres⟩
  | ok b =>
    obtain ⟨a,ha,hQ⟩ := hres
    exact ⟨hev,a,ha,himp a b _ rfl hQ⟩

end Simulates
end Stateful
end NeOs.Library

-- Steps that end with a result or with an error, and in either case with a state.

namespace EStateM

variable {ε σ α β : Type}

theorem bind_eq_ok_iff {x : EStateM ε σ α} {f : α → EStateM ε σ β} {s t : σ} {b : β} :
    (x >>= f) s = .ok b t ↔ ∃ a u, x s = .ok a u ∧ f a u = .ok b t := by
  simp only [Bind.bind, EStateM.bind]
  constructor
  · intro h
    cases hs : x s with
    | ok a u => exact ⟨a, u, rfl, by simpa only [hs] using h⟩
    | error e u => simp only [hs, reduceCtorEq] at h
  · rintro ⟨a, u, hs, hf⟩
    simpa only [hs] using hf

theorem bind_of_ok {x : EStateM ε σ α} {f : α → EStateM ε σ β} {s t : σ} {a : α}
    (h : x s = .ok a t) : (x >>= f) s = f a t := by
  simp only [Bind.bind, EStateM.bind, h]

theorem bind_of_error {x : EStateM ε σ α} {f : α → EStateM ε σ β} {s t : σ} {e : ε}
    (h : x s = .error e t) : (x >>= f) s = .error e t := by
  simp only [Bind.bind, EStateM.bind, h]

theorem get_bind {f : σ → EStateM ε σ α} {s : σ} : (get >>= f) s = f s s := rfl

def after (x : EStateM ε σ α) (s : σ) : σ :=
  match x s with
  | .ok _ t | .error _ t => t

theorem after_congr {x y : EStateM ε σ α} {s : σ} (h : x s = y s) : x.after s = y.after s := by
  simp only [after, h]

theorem after_of_ok {x : EStateM ε σ α} {s t : σ} {a : α} (h : x s = .ok a t) :
    x.after s = t := by
  simp [after, h]

-- How a step ends, apart from the state.
def ending (x : EStateM ε σ α) (s : σ) : Except ε α :=
  match x s with
  | .ok a _ => .ok a
  | .error e _ => .error e

-- The state after a step is related to the state before it.
def Keeps (R : σ → σ → Prop) (x : EStateM ε σ α) : Prop :=
  ∀ s, R s (x.after s)

theorem Keeps.bind {R : σ → σ → Prop} {x : EStateM ε σ α} {f : α → EStateM ε σ β}
    (hx : Keeps R x) (hf : ∀ a, Keeps R (f a)) (htrans : ∀ s t u, R s t → R t u → R s u) :
    Keeps R (x >>= f) := by
  intro s
  have hs := hx s
  simp only [after, Bind.bind, EStateM.bind] at hs ⊢
  cases he : x s with
  | ok a t =>
      rw [he] at hs
      exact htrans _ _ _ hs (hf a t)
  | error e t =>
      rw [he] at hs
      exact hs

end EStateM

-- Scripts of commands over a store. An error stops the script where it
-- stands, and the writes before it stay: there is no rollback.

/-- A script over the store `σ`, with errors of type `ε`. -/
abbrev Script (ε σ α : Type) := EStateM ε σ α

namespace Script

variable {ε σ α β : Type}

@[simp] theorem run_pure (a : α) (s : σ) : (pure a : Script ε σ α) s = .ok a s := rfl

@[simp] theorem run_bind (x : Script ε σ α) (f : α → Script ε σ β) (s : σ) :
    (x >>= f) s = match x s with
      | .ok a t => f a t
      | .error e t => .error e t := rfl

/-- A step that succeeds hands its value and its store to the rest. -/
theorem bind_ok {x : Script ε σ α} {f : α → Script ε σ β} {s t : σ} {a : α}
    (h : x s = .ok a t) : (x >>= f) s = f a t := by
  rw [run_bind, h]

/-- A step that fails ends the script, with the store as the step left it. -/
theorem bind_error {x : Script ε σ α} {f : α → Script ε σ β} {s t : σ} {e : ε}
    (h : x s = .error e t) : (x >>= f) s = .error e t := by
  rw [run_bind, h]

/-- A script succeeds when its first step and the rest succeed, one after the other. -/
theorem bind_eq_ok {x : Script ε σ α} {f : α → Script ε σ β} {s u : σ} {b : β} :
    (x >>= f) s = .ok b u ↔ ∃ a t, x s = .ok a t ∧ f a t = .ok b u := by
  rcases h : x s with ⟨a, t⟩ | ⟨e, t⟩
  · rw [bind_ok h]
    constructor
    · intro hf
      exact ⟨a, t, rfl, hf⟩
    · rintro ⟨a', t', he, hf⟩
      cases he
      exact hf
  · rw [bind_error h]
    constructor
    · intro he
      cases he
    · rintro ⟨a', t', he, _⟩
      cases he

/-- Steps that end alike can be followed by the same rest. -/
theorem bind_congr {x y : Script ε σ α} {s t : σ} (h : x s = y t) (f : α → Script ε σ β) :
    (x >>= f) s = (y >>= f) t := by
  rw [run_bind, run_bind, h]

theorem run_ite {c : Prop} [Decidable c] (x y : Script ε σ α) (s : σ) :
    (if c then x else y) s = if c then x s else y s := by
  split <;> rfl

/-- The same command for each item of a list, in order. -/
def forEach {m : Type → Type} [Monad m] (l : List β) (f : β → m Unit) : m Unit :=
  match l with
  | [] => pure ()
  | b :: l => do
    f b
    forEach l f

/-- A command that always succeeds makes a loop that always succeeds: the store is the fold. -/
theorem forEach_ok {f : β → Script ε σ Unit} {g : σ → β → σ} (h : ∀ b s, f b s = .ok () (g s b))
    (l : List β) (s : σ) : forEach l f s = .ok () (l.foldl g s) := by
  induction l generalizing s with
  | nil => rfl
  | cons b l ih =>
    rw [forEach, bind_ok (h b s), ih]
    rfl

/-! ## What a script does to the store -/

/-- The store after a script, also after an error. -/
def after (x : Script ε σ α) (s : σ) : σ :=
  match x s with
  | .ok _ t => t
  | .error _ t => t

/-- From each store in `P`, the script succeeds, stays in `P` and moves along `R`. -/
def Does (P : σ → Prop) (R : σ → σ → Prop) (x : Script ε σ α) : Prop :=
  ∀ s, P s → ∃ a t, x s = .ok a t ∧ P t ∧ R s t

/-- From each store in `P`, the script stays in `P` and moves along `R`, error or not. -/
def Keeps (P : σ → Prop) (R : σ → σ → Prop) (x : Script ε σ α) : Prop :=
  ∀ s, P s → P (after x s) ∧ R s (after x s)

variable {P : σ → Prop} {R S T : σ → σ → Prop}

theorem after_ok {x : Script ε σ α} {s t : σ} {a : α} (h : x s = .ok a t) : after x s = t := by
  rw [after, h]

theorem after_error {x : Script ε σ α} {s t : σ} {e : ε} (h : x s = .error e t) :
    after x s = t := by
  rw [after, h]

theorem Does.keeps {x : Script ε σ α} (h : Does P R x) : Keeps P R x := by
  intro s hs
  obtain ⟨a, t, hx, ht⟩ := h s hs
  rwa [after_ok hx]

/-- What a script did when it ran. -/
theorem Does.of_ok {x : Script ε σ α} {s t : σ} {a : α} (hx : x s = .ok a t) (hs : P s)
    (h : Does P R x) : R s t := by
  obtain ⟨b, u, hu, -, hr⟩ := h s hs
  rw [hx] at hu
  cases hu
  exact hr

theorem Keeps.of_ok {x : Script ε σ α} {s t : σ} {a : α} (h : Keeps P R x) (hx : x s = .ok a t)
    (hs : P s) : R s t := by
  have hr := (h s hs).2
  rwa [after_ok hx] at hr

theorem Does.mono {x : Script ε σ α} (h : Does P R x) (hRS : ∀ s t, R s t → S s t) :
    Does P S x := by
  intro s hs
  obtain ⟨a, t, hx, ht, hr⟩ := h s hs
  exact ⟨a, t, hx, ht, hRS s t hr⟩

theorem Keeps.mono {x : Script ε σ α} (h : Keeps P R x) (hRS : ∀ s t, R s t → S s t) :
    Keeps P S x := fun s hs => ⟨(h s hs).1, hRS _ _ (h s hs).2⟩

theorem Does.pure (a : α) (hR : ∀ s, R s s) : Does P R (pure a : Script ε σ α) := fun s hs =>
  ⟨a, s, rfl, hs, hR s⟩

theorem Does.ite {c : Prop} [Decidable c] {x y : Script ε σ α} (hx : c → Does P R x)
    (hy : ¬ c → Does P R y) : Does P R (if c then x else y) := by
  by_cases h : c
  · rw [if_pos h]
    exact hx h
  · rw [if_neg h]
    exact hy h

theorem Keeps.ite {c : Prop} [Decidable c] {x y : Script ε σ α} (hx : c → Keeps P R x)
    (hy : ¬ c → Keeps P R y) : Keeps P R (if c then x else y) := by
  by_cases h : c
  · rw [if_pos h]
    exact hx h
  · rw [if_neg h]
    exact hy h

/-- Two steps: what the first does along `R` and the second along `S`, both do along `T`. -/
theorem Does.seq {x : Script ε σ α} {f : α → Script ε σ β} (hx : Does P R x)
    (hf : ∀ a, Does P S (f a)) (hT : ∀ s t u, R s t → S t u → T s u) : Does P T (x >>= f) := by
  intro s hs
  obtain ⟨a, t, hxs, ht, hr⟩ := hx s hs
  obtain ⟨b, u, hfs, hu, hs'⟩ := hf a t ht
  exact ⟨b, u, by rw [bind_ok hxs, hfs], hu, hT s t u hr hs'⟩

/-- A first step that succeeds, then a step that may fail. -/
theorem Does.andThen {x : Script ε σ α} {f : α → Script ε σ β} (hx : Does P R x)
    (hf : ∀ a, Keeps P S (f a)) (hT : ∀ s t u, R s t → S t u → T s u) :
    Keeps P T (x >>= f) := by
  intro s hs
  obtain ⟨a, t, hxs, ht, hr⟩ := hx s hs
  obtain ⟨hu, hs'⟩ := hf a t ht
  rw [after, bind_ok hxs, ← after]
  exact ⟨hu, hT s t _ hr hs'⟩

/-- Two steps that may fail: after an error in the first, only the first counts. -/
theorem Keeps.seq {x : Script ε σ α} {f : α → Script ε σ β} (hx : Keeps P R x)
    (hf : ∀ a, Keeps P S (f a)) (hT : ∀ s t u, R s t → S t u → T s u)
    (hR : ∀ s t, R s t → T s t) : Keeps P T (x >>= f) := by
  intro s hs
  obtain ⟨ht, hr⟩ := hx s hs
  rcases h : x s with ⟨a, t⟩ | ⟨e, t⟩
  · rw [after_ok h] at ht hr
    obtain ⟨hu, hs'⟩ := hf a t ht
    rw [after, bind_ok h, ← after]
    exact ⟨hu, hT s t _ hr hs'⟩
  · rw [after_error h] at ht hr
    rw [after, bind_error h]
    exact ⟨ht, hR s t hr⟩

theorem Does.forEach {f : β → Script ε σ Unit} (hf : ∀ b, Does P R (f b)) (hR : ∀ s, R s s)
    (hT : ∀ s t u, R s t → R t u → R s u) (l : List β) : Does P R (forEach l f) := by
  induction l with
  | nil => exact .pure () hR
  | cons b l ih => exact (hf b).seq (fun _ => ih) hT

/-! ## Guarded steps -/

/-- What a guarded step throws is handled in the store where it stopped. -/
theorem run_tryCatch (x : Script ε σ α) (f : ε → Script ε σ α) (s : σ) :
    tryCatch x f s = match x s with
      | .ok a t => .ok a t
      | .error e t => f e t := by
  change EStateM.tryCatch x f s = _
  unfold EStateM.tryCatch
  rcases x s with ⟨a, t⟩ | ⟨e, t⟩ <;> rfl

/-- A step under a guard that always succeeds, always succeeds. -/
theorem Does.tryCatch {x : Script ε σ α} {f : ε → Script ε σ α} (hx : Keeps P R x)
    (hf : ∀ e, Does P S (f e)) (hR : ∀ s t, R s t → T s t)
    (hT : ∀ s t u, R s t → S t u → T s u) : Does P T (tryCatch x f) := by
  intro s hs
  obtain ⟨ht, hr⟩ := hx s hs
  rw [run_tryCatch]
  rcases h : x s with ⟨a, t⟩ | ⟨e, t⟩
  · rw [after_ok h] at ht hr
    exact ⟨a, t, rfl, ht, hR s t hr⟩
  · rw [after_error h] at ht hr
    obtain ⟨b, u, hfs, hu, hs'⟩ := hf e t ht
    exact ⟨b, u, hfs, hu, hT s t u hr hs'⟩

end Script

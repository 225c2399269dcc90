import Mathlib.Tactic.Common

/-! Data refinement between computations on a state that may fault. Related
states lead to the same result and related states, or to matching faults. The
concrete side may also run out of a resource, and owes nothing where the abstract
side is undefined. States, results and faults are arbitrary types. -/

namespace ARCServer.DataRefinement

universe u v

variable {σ τ α κ : Type u} {ε δ : Type v}

theorem bind_ok {x : StateT σ (Except ε) α} {f : α → StateT σ (Except ε) κ} {s s' : σ} {a : α}
    (h : x s = .ok (a, s')) : (x >>= f) s = f a s' := by
  simp only [bind, StateT.bind, h, Except.bind]

theorem bind_error {x : StateT σ (Except ε) α} {f : α → StateT σ (Except ε) κ} {s : σ} {e : ε}
    (h : x s = .error e) : (x >>= f) s = .error e := by
  simp only [bind, StateT.bind, h, Except.bind]

theorem bind_error_iff {x : StateT σ (Except ε) α} {f : α → StateT σ (Except ε) κ} {s : σ}
    {e : ε} : (x >>= f) s = .error e ↔
      x s = .error e ∨ ∃ a s', x s = .ok (a, s') ∧ f a s' = .error e := by
  cases h : x s with
  | error d =>
    rw [bind_error h]
    simp only [Except.error.injEq, reduceCtorEq, false_and, exists_false, or_false]
  | ok r =>
    rw [bind_ok h]
    refine ⟨fun failed => Or.inr ⟨r.1, r.2, rfl, failed⟩, ?_⟩
    rintro (⟨⟨⟩⟩ | ⟨a, s', ⟨⟩, failed⟩)
    exact failed

theorem bind_pure_error_iff {x : StateT σ (Except ε) α} {g : α → κ} {s : σ} {e : ε} :
    (x >>= fun a => pure (g a)) s = .error e ↔ x s = .error e := by
  rw [bind_error_iff, or_iff_left]
  rintro ⟨a, s', -, ⟨⟩⟩

/-- How the faults of a concrete and of an abstract computation correspond. -/
structure Faults (ε δ : Type v) where
  same : ε → δ → Prop
  exhausted : ε → Prop
  undefined : δ → Prop

inductive Outcome (R : σ → τ → Prop) (F : Faults ε δ) :
    Except ε (α × σ) → Except δ (α × τ) → Prop
  | done {a : α} {s : σ} {t : τ} (related : R s t) : Outcome R F (.ok (a, s)) (.ok (a, t))
  | fault {e : ε} {d : δ} (same : F.same e d) : Outcome R F (.error e) (.error d)
  | exhausted {e : ε} {r : Except δ (α × τ)} (limit : F.exhausted e) :
      Outcome R F (.error e) r
  | undefined {r : Except ε (α × σ)} {d : δ} (outside : F.undefined d) :
      Outcome R F r (.error d)

/-- `c` does to related states what `a` does. -/
def Refines (R : σ → τ → Prop) (F : Faults ε δ) (c : StateT σ (Except ε) α)
    (a : StateT τ (Except δ) α) : Prop :=
  ∀ s t, R s t → Outcome R F (c s) (a t)

variable {R : σ → τ → Prop} {F : Faults ε δ}

theorem Outcome.of_ok {r : Except ε (α × σ)} {a : α} {t : τ}
    (h : Outcome R F r (.ok (a, t))) :
    (∃ s, r = .ok (a, s) ∧ R s t) ∨ ∃ e, r = .error e ∧ F.exhausted e := by
  cases h with
  | done related => exact Or.inl ⟨_, rfl, related⟩
  | exhausted limit => exact Or.inr ⟨_, rfl, limit⟩

theorem Outcome.bind {f : α → StateT σ (Except ε) κ} {g : α → StateT τ (Except δ) κ}
    {r : Except ε (α × σ)} {q : Except δ (α × τ)} (first : Outcome R F r q)
    (second : ∀ a, Refines R F (f a) (g a)) :
    Outcome R F (r.bind fun p => f p.1 p.2) (q.bind fun p => g p.1 p.2) := by
  cases first with
  | done related => exact second _ _ _ related
  | fault same => exact .fault same
  | exhausted limit => exact .exhausted limit
  | undefined outside => exact .undefined outside

theorem Refines.pure (a : α) : Refines R F (pure a) (pure a) :=
  fun _ _ related => .done related

theorem Refines.bind {c : StateT σ (Except ε) α} {a : StateT τ (Except δ) α}
    {f : α → StateT σ (Except ε) κ} {g : α → StateT τ (Except δ) κ} (first : Refines R F c a)
    (second : ∀ x, Refines R F (f x) (g x)) : Refines R F (c >>= f) (a >>= g) :=
  fun s t related => (first s t related).bind second

theorem Refines.ite {p : Prop} [Decidable p] {c c' : StateT σ (Except ε) α}
    {a a' : StateT τ (Except δ) α} (yes : Refines R F c a) (no : Refines R F c' a') :
    Refines R F (if p then c else c') (if p then a else a') := by
  split
  · exact yes
  · exact no

theorem Refines.mapM {ω : Type*} {c : ω → StateT σ (Except ε) α}
    {a : ω → StateT τ (Except δ) α} (each : ∀ op, Refines R F (c op) (a op)) (ops : List ω) :
    Refines R F (ops.mapM c) (ops.mapM a) := by
  induction ops with
  | nil => exact .pure []
  | cons op ops ih =>
    rw [List.mapM_cons, List.mapM_cons]
    exact (each op).bind fun x => ih.bind fun xs => .pure (x :: xs)

/-- From any related states, a whole run gives the results of its specification
where that is defined and the resource lasts. -/
theorem Refines.result {c : StateT σ (Except ε) α} {a : StateT τ (Except δ) α}
    (h : Refines R F c a) {s : σ} {t t' : τ} {x : α} (related : R s t)
    (spec : a t = .ok (x, t')) :
    (∃ s', c s = .ok (x, s') ∧ R s' t') ∨ ∃ e, c s = .error e ∧ F.exhausted e :=
  (spec ▸ h s t related).of_ok

end ARCServer.DataRefinement

import ARCServer.InterleavedPrograms

/-! One program alone on the shared state: what it can come to, under an assumption on
the outcomes of its actions, and rules to prove something about all of that. -/

namespace ARCServer.ProgramsAlone

open InterleavedPrograms

/-- What an action does, and the outcomes that are reckoned with. -/
structure World (σ ω Act : Type) (Resp : Act → Type) where
  step : (act : Act) → ω → σ → Option (Resp act × σ)
  allowed : Act → ω → σ → Prop

namespace World

variable {σ ω Act : Type} {Resp : Act → Type} {α β : Type} (W : World σ ω Act Resp)

inductive Completes : Prog Act Resp α → σ → List (Event Act Resp) → α → σ → Prop
  | ret (a : α) (s : σ) : Completes (.ret a) s [] a s
  | step {act : Act} {next : Resp act → Prog Act Resp α} {outcome : ω} {r : Resp act}
      {s s' s'' : σ} {past : List (Event Act Resp)} {a : α} (allow : W.allowed act outcome s)
      (taken : W.step act outcome s = some (r, s')) (rest : Completes (next r) s' past a s'') :
      Completes (.step act next) s (⟨act, r⟩ :: past) a s''

/-- However the program completes, `post` holds of its actions, its result and the state. -/
def Ensures : Prog Act Resp α → σ → (List (Event Act Resp) → α → σ → Prop) → Prop
  | .ret a, s, post => post [] a s
  | .step act next, s, post => ∀ outcome r s', W.allowed act outcome s →
      W.step act outcome s = some (r, s') →
        Ensures (next r) s' fun past a s'' => post (⟨act, r⟩ :: past) a s''

variable {W}

theorem Ensures.completes {p : Prog Act Resp α} {s s' : σ} {past : List (Event Act Resp)} {a : α}
    (h : W.Completes p s past a s') {post : List (Event Act Resp) → α → σ → Prop}
    (ensures : W.Ensures p s post) : post past a s' := by
  induction h generalizing post with
  | ret a s => exact ensures
  | step allow taken rest ih => exact ih (ensures _ _ _ allow taken)

theorem Completes.mono {p : Prog Act Resp α} {s s' : σ} {past : List (Event Act Resp)} {a : α}
    (h : W.Completes p s past a s') {allowed : Act → ω → σ → Prop}
    (imp : ∀ act outcome s, W.allowed act outcome s → allowed act outcome s) :
    World.Completes ⟨W.step, allowed⟩ p s past a s' := by
  induction h with
  | ret a s => exact .ret a s
  | step allow taken rest ih => exact .step (imp _ _ _ allow) taken ih

theorem Ensures.mono {p : Prog Act Resp α} {s : σ}
    {post post' : List (Event Act Resp) → α → σ → Prop} (h : W.Ensures p s post)
    (imp : ∀ past a s', post past a s' → post' past a s') : W.Ensures p s post' := by
  induction p generalizing s post post' with
  | ret a => exact imp _ _ _ h
  | step act next ih =>
    intro outcome r s' allow taken
    exact ih r (h outcome r s' allow taken) fun past a s'' => imp _ _ _

theorem ensures_pure {a : α} {s : σ} {post : List (Event Act Resp) → α → σ → Prop} :
    W.Ensures (pure a : Prog Act Resp α) s post ↔ post [] a s := Iff.rfl

theorem ensures_bind {p : Prog Act Resp α} {f : α → Prog Act Resp β} {s : σ}
    {post : List (Event Act Resp) → β → σ → Prop} :
    W.Ensures (p >>= f) s post ↔ W.Ensures p s fun past a s' =>
      W.Ensures (f a) s' fun later b s'' => post (past ++ later) b s'' := by
  induction p generalizing s post with
  | ret a => exact Iff.rfl
  | step act next ih =>
    refine forall_congr' fun outcome => forall_congr' fun r => forall_congr' fun s' =>
      imp_congr_right fun allow => imp_congr_right fun taken => ?_
    exact ih r

theorem ensures_of_uses {kind : Act → Prop} {p : Prog Act Resp α} (uses : p.Uses kind)
    {keeps : σ → Prop} (step : ∀ act outcome r s s', kind act → W.allowed act outcome s →
      W.step act outcome s = some (r, s') → keeps s → keeps s') {s : σ} (first : keeps s) :
    W.Ensures p s fun _ _ s' => keeps s' := by
  induction p generalizing s with
  | ret a => exact first
  | step act next ih =>
    intro outcome r s' allow taken
    exact ih r (uses.2 r) (step act outcome r s s' uses.1 allow taken first)

/-- A program that follows a protocol keeps what its admitted actions keep of the actions so
far and the shared state. -/
theorem ensures_of_follows {Φ : Type} {P : Protocol Act Resp Φ} {φ : Φ}
    {before : List (Event Act Resp)} {p : Prog Act Resp α} {post : α → Φ → Prop}
    (follows : P.Follows (P.after φ before) p post) (keeps : List (Event Act Resp) → σ → Prop)
    (step : ∀ before act outcome r s s', P.admits (P.after φ before) act →
      W.allowed act outcome s → W.step act outcome s = some (r, s') → keeps before s →
        keeps (before ++ [⟨act, r⟩]) s')
    {s : σ} (first : keeps before s) :
    W.Ensures p s fun past a s' =>
      post a (P.after φ (before ++ past)) ∧ keeps (before ++ past) s' := by
  induction p generalizing before s with
  | ret a =>
    rw [World.Ensures, List.append_nil]
    exact ⟨follows, first⟩
  | step act next ih =>
    intro outcome r s' allow taken
    have later : P.Follows (P.after φ (before ++ [⟨act, r⟩])) (next r) post := by
      rw [P.after_concat]
      exact follows.2 r
    refine (ih r later (step before act outcome r s s' follows.1 allow taken first)).mono ?_
    intro past a s'' ends
    rw [List.append_assoc] at ends
    exact ends

def exec (W : World σ ω Act Resp) (check : Act → σ → Bool) (outcome : ω) :
    Prog Act Resp α → σ → Option (List (Event Act Resp) × α × σ)
  | .ret a, s => some ([], a, s)
  | .step act next, s =>
    if check act s then
      (W.step act outcome s).bind fun (r, s') =>
        (exec W check outcome (next r) s').map fun (past, rest) => (⟨act, r⟩ :: past, rest)
    else none

theorem completes_of_exec {check : Act → σ → Bool} {outcome : ω}
    (passes : ∀ act s, check act s = true → W.allowed act outcome s) {p : Prog Act Resp α}
    {s s' : σ} {past : List (Event Act Resp)} {a : α}
    (h : W.exec check outcome p s = some (past, a, s')) : W.Completes p s past a s' := by
  induction p generalizing s past with
  | ret b =>
    cases h
    exact .ret _ _
  | step act next ih =>
    rw [exec] at h
    split at h
    · next ok =>
      obtain ⟨⟨r, s₁⟩, taken, rest⟩ := Option.bind_eq_some_iff.mp h
      obtain ⟨⟨later, final⟩, ran, same⟩ := Option.map_eq_some_iff.mp rest
      cases same
      exact .step (passes act s ok) taken (ih r ran)
    · cases h

end World

section Alone

variable {σ ω ρ Act : Type} {Resp : Act → Type} {α : Type} (S : System σ ω ρ Act Resp α)

abbrev alone (i : ℕ) (allowed : Act → ω → σ → Prop) : World σ ω Act Resp := ⟨S.step i, allowed⟩

end Alone

end ARCServer.ProgramsAlone

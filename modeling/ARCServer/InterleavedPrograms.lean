import Mathlib.Data.List.Induction
import Mathlib.Data.List.Perm.Basic
import Mathlib.Data.Nat.Basic
import Mathlib.Tactic.Common

/-! Programs that act on shared state one atomic action at a time, and any number
of them interleaved. A program is a tree of actions that branches on the answers.
A protocol says which actions a program may take next, from a local state that is
computed from the actions taken so far; an invariant of shared state and local
states is then checked once for each action, not for each program point. -/

namespace ARCServer.InterleavedPrograms

inductive Prog (Act : Type) (Resp : Act → Type) (α : Type) : Type
  | ret (a : α)
  | step (act : Act) (next : Resp act → Prog Act Resp α)

section Programs

variable {Act : Type} {Resp : Act → Type} {α β : Type}

def Prog.bind : Prog Act Resp α → (α → Prog Act Resp β) → Prog Act Resp β
  | .ret a, f => f a
  | .step act next, f => .step act fun r => (next r).bind f

instance : Monad (Prog Act Resp) where
  pure := .ret
  bind := .bind

def perform (act : Act) : Prog Act Resp (Resp act) := .step act .ret

structure Event (Act : Type) (Resp : Act → Type) where
  act : Act
  answer : Resp act

inductive Prog.Returns : Prog Act Resp α → List (Event Act Resp) → α → Prop
  | ret (a : α) : Returns (.ret a) [] a
  | step {act : Act} {next : Resp act → Prog Act Resp α} {r : Resp act}
      {past : List (Event Act Resp)} {a : α} (rest : Returns (next r) past a) :
      Returns (.step act next) (⟨act, r⟩ :: past) a

def Prog.runWith (answer : (act : Act) → Resp act) :
    Prog Act Resp α → α × List (Event Act Resp)
  | .ret a => (a, [])
  | .step act next =>
    let rest := (next (answer act)).runWith answer
    (rest.1, ⟨act, answer act⟩ :: rest.2)

theorem Prog.returns_runWith (answer : (act : Act) → Resp act) (p : Prog Act Resp α) :
    p.Returns (p.runWith answer).2 (p.runWith answer).1 := by
  induction p with
  | ret a => exact .ret a
  | step act next ih => exact .step (ih (answer act))

def Prog.Uses (kind : Act → Prop) : Prog Act Resp α → Prop
  | .ret _ => True
  | .step act next => kind act ∧ ∀ r, (next r).Uses kind

theorem uses_pure (kind : Act → Prop) (a : α) : (pure a : Prog Act Resp α).Uses kind := trivial

theorem uses_perform {kind : Act → Prop} {act : Act} (h : kind act) :
    (perform act : Prog Act Resp (Resp act)).Uses kind := ⟨h, fun _ => trivial⟩

theorem uses_bind {kind : Act → Prop} {p : Prog Act Resp α} {f : α → Prog Act Resp β}
    (first : p.Uses kind) (rest : ∀ a, (f a).Uses kind) : (p >>= f).Uses kind := by
  induction p with
  | ret a => exact rest a
  | step act next ih => exact ⟨first.1, fun r => ih r (first.2 r)⟩

theorem Prog.Uses.mono {kind more : Act → Prop} {p : Prog Act Resp α} (h : p.Uses kind)
    (sub : ∀ act, kind act → more act) : p.Uses more := by
  induction p with
  | ret a => trivial
  | step act next ih => exact ⟨sub act h.1, fun r => ih r (h.2 r)⟩

/-- A local state with the actions it admits and how answers change it. -/
structure Protocol (Act : Type) (Resp : Act → Type) (Φ : Type) where
  admits : Φ → Act → Prop
  next : Φ → (act : Act) → Resp act → Φ

namespace Protocol

variable {Φ : Type} (P : Protocol Act Resp Φ)

/-- Whatever the answers, only admitted actions are taken and the result meets `post`. -/
def Follows : Φ → Prog Act Resp α → (α → Φ → Prop) → Prop
  | φ, .ret a, post => post a φ
  | φ, .step act next, post =>
    P.admits φ act ∧ ∀ r, Follows (P.next φ act r) (next r) post

@[simp] theorem follows_pure (φ : Φ) (a : α) (post : α → Φ → Prop) :
    P.Follows φ (pure a : Prog Act Resp α) post ↔ post a φ := Iff.rfl

@[simp] theorem follows_perform (φ : Φ) (act : Act) (post : Resp act → Φ → Prop) :
    P.Follows φ (perform act) post ↔ P.admits φ act ∧ ∀ r, post r (P.next φ act r) := Iff.rfl

@[simp] theorem follows_bind (φ : Φ) (p : Prog Act Resp α) (f : α → Prog Act Resp β)
    (post : β → Φ → Prop) :
    P.Follows φ (p >>= f) post ↔ P.Follows φ p fun a φ' => P.Follows φ' (f a) post := by
  induction p generalizing φ with
  | ret a => exact Iff.rfl
  | step act next ih => exact and_congr_right fun _ => forall_congr' fun r => ih r _

theorem follows_of_uses {P : Protocol Act Resp Φ} {kind : Act → Prop} {p : Prog Act Resp α} {φ : Φ}
    {post : α → Φ → Prop} (uses : p.Uses kind)
    (neutral : ∀ act, kind act → P.admits φ act ∧ ∀ r, P.next φ act r = φ)
    (h : ∀ a, post a φ) : P.Follows φ p post := by
  induction p with
  | ret a => exact h a
  | step act next ih =>
    refine ⟨(neutral act uses.1).1, fun r => ?_⟩
    rw [(neutral act uses.1).2 r]
    exact ih r (uses.2 r)

theorem Follows.mono {P : Protocol Act Resp Φ} {φ : Φ} {p : Prog Act Resp α}
    {post weaker : α → Φ → Prop} (h : P.Follows φ p post)
    (sub : ∀ a φ', post a φ' → weaker a φ') : P.Follows φ p weaker := by
  induction p generalizing φ with
  | ret a => exact sub a φ h
  | step act next ih => exact ⟨h.1, fun r => ih r (h.2 r)⟩

def after (φ : Φ) (past : List (Event Act Resp)) : Φ :=
  past.foldl (fun φ event => P.next φ event.act event.answer) φ

theorem Follows.returns {P : Protocol Act Resp Φ} {φ : Φ} {p : Prog Act Resp α}
    {post : α → Φ → Prop} (h : P.Follows φ p post) {past : List (Event Act Resp)} {a : α}
    (hr : p.Returns past a) : post a (P.after φ past) := by
  induction hr generalizing φ with
  | ret a => exact h
  | step rest ih => exact ih (h.2 _)

theorem after_concat (φ : Φ) (past : List (Event Act Resp)) (event : Event Act Resp) :
    P.after φ (past ++ [event]) = P.next (P.after φ past) event.act event.answer := by
  rw [after, List.foldl_append]
  rfl

def recording (admits : List (Event Act Resp) → Act → Prop) :
    Protocol Act Resp (List (Event Act Resp)) := ⟨admits, fun past act r => past ++ [⟨act, r⟩]⟩

theorem after_recording (admits : List (Event Act Resp) → Act → Prop)
    (before past : List (Event Act Resp)) :
    (recording admits).after before past = before ++ past := by
  induction past generalizing before with
  | nil => exact (List.append_nil before).symm
  | cons event past ih =>
    rw [List.append_cons]
    exact ih (before ++ [event])

end Protocol

end Programs

/-- What an action does to the shared state, and the program of each request.
The answer and the new state may depend on an outcome that the environment
chooses; an action that cannot be taken is blocked. -/
structure System (σ ω ρ Act : Type) (Resp : Act → Type) (α : Type) where
  step : ℕ → (act : Act) → ω → σ → Option (Resp act × σ)
  handler : ρ → Prog Act Resp α

structure Thread (ρ Act : Type) (Resp : Act → Type) (α : Type) where
  request : ρ
  code : Prog Act Resp α
  past : List (Event Act Resp)

structure Config (σ ρ Act : Type) (Resp : Act → Type) (α : Type) where
  shared : σ
  threads : List (Thread ρ Act Resp α)

inductive Move (ρ ω : Type)
  | start (request : ρ)
  | act (i : ℕ) (outcome : ω)

namespace System

variable {σ ω ρ Act : Type} {Resp : Act → Type} {α Φ : Type}
variable (S : System σ ω ρ Act Resp α)

def move (c : Config σ ρ Act Resp α) : Move ρ ω → Option (Config σ ρ Act Resp α)
  | .start request =>
    some { c with threads := c.threads ++ [⟨request, S.handler request, []⟩] }
  | .act i outcome =>
    match c.threads[i]? with
    | none => none
    | some t =>
      match t.code with
      | .ret _ => none
      | .step act next =>
        match S.step i act outcome c.shared with
        | none => none
        | some (r, s) =>
          some ⟨s, c.threads.set i ⟨t.request, next r, t.past ++ [⟨act, r⟩]⟩⟩

theorem move_act {c c' : Config σ ρ Act Resp α} {i : ℕ} {outcome : ω}
    (h : S.move c (.act i outcome) = some c') :
    ∃ t act next r s, c.threads[i]? = some t ∧ t.code = .step act next ∧
      S.step i act outcome c.shared = some (r, s) ∧
      c' = ⟨s, c.threads.set i ⟨t.request, next r, t.past ++ [⟨act, r⟩]⟩⟩ := by
  unfold move at h
  dsimp only at h
  split at h
  · cases h
  · next t ht =>
    split at h
    · cases h
    · next act next hcode =>
      split at h
      · cases h
      · next r s hstep =>
        exact ⟨t, act, next, r, s, ht, hcode, hstep, (Option.some.inj h).symm⟩

def run (c : Config σ ρ Act Resp α) (moves : List (Move ρ ω)) :
    Option (Config σ ρ Act Resp α) := moves.foldlM S.move c

theorem run_concat (c : Config σ ρ Act Resp α) (moves : List (Move ρ ω)) (m : Move ρ ω) :
    S.run c (moves ++ [m]) = (S.run c moves).bind fun d => S.move d m := by
  rw [run, List.foldlM_append]
  refine congrArg (Option.bind (S.run c moves)) (funext fun d => ?_)
  cases h : S.move d m <;> simp [h]

def EachMove (allowed : Config σ ρ Act Resp α → Move ρ ω → Prop)
    (c : Config σ ρ Act Resp α) (moves : List (Move ρ ω)) : Prop :=
  ∀ k d m, S.run c (moves.take k) = some d → moves[k]? = some m → allowed d m

def Always (property : Config σ ρ Act Resp α → Prop)
    (c : Config σ ρ Act Resp α) (moves : List (Move ρ ω)) : Prop :=
  ∀ k d, S.run c (moves.take k) = some d → property d

def nextAction (c : Config σ ρ Act Resp α) (i : ℕ) : Option Act :=
  c.threads[i]?.bind fun t =>
    match t.code with
    | .ret _ => none
    | .step act _ => some act

theorem nextAction_eq {c : Config σ ρ Act Resp α} {i : ℕ} {t : Thread ρ Act Resp α} {act : Act}
    {next : Resp act → Prog Act Resp α} (ht : c.threads[i]? = some t)
    (hcode : t.code = .step act next) : nextAction c i = some act := by
  rw [nextAction, ht, Option.bind_some, hcode]

theorem move_of_nextAction {c : Config σ ρ Act Resp α} {i : ℕ} {act : Act} {outcome : ω}
    {r : Resp act} {s : σ} (hact : nextAction c i = some act)
    (hstep : S.step i act outcome c.shared = some (r, s)) :
    ∃ d, S.move c (.act i outcome) = some d ∧ d.shared = s := by
  obtain ⟨t, ht, code⟩ := Option.bind_eq_some_iff.mp hact
  cases hcode : t.code with
  | ret a =>
    rw [hcode] at code
    cases code
  | step act' next =>
    rw [hcode] at code
    cases code
    refine ⟨⟨s, c.threads.set i ⟨t.request, next r, t.past ++ [⟨act, r⟩]⟩⟩, ?_, rfl⟩
    simp only [move, ht, hcode, hstep]

def checkEach (allowed : Config σ ρ Act Resp α → Move ρ ω → Bool) :
    Config σ ρ Act Resp α → List (Move ρ ω) → Bool
  | _, [] => true
  | c, m :: moves => allowed c m && (S.move c m).all fun d => checkEach allowed d moves

theorem eachMove_of_check {allowed : Config σ ρ Act Resp α → Move ρ ω → Bool}
    {c : Config σ ρ Act Resp α} {moves : List (Move ρ ω)}
    (h : S.checkEach allowed c moves = true) : S.EachMove (fun c m => allowed c m) c moves := by
  induction moves generalizing c with
  | nil =>
    intro k d m _ hm
    cases hm
  | cons m moves ih =>
    obtain ⟨here, later⟩ := Bool.and_eq_true_iff.mp h
    intro k d m' hrun hm
    cases k with
    | zero =>
      cases hrun
      cases hm
      exact here
    | succ k =>
      obtain ⟨d', hmove, hrest⟩ := Option.bind_eq_some_iff.mp hrun
      rw [hmove] at later
      exact ih later k d m' hrest hm

theorem run_take_succ (c : Config σ ρ Act Resp α) {moves : List (Move ρ ω)} {k : ℕ}
    {m : Move ρ ω} (h : moves[k]? = some m) :
    S.run c (moves.take (k + 1)) = (S.run c (moves.take k)).bind fun d => S.move d m := by
  rw [List.take_add_one, h]
  exact S.run_concat c (moves.take k) m

/-- What holds at first and is kept by every allowed move holds all along. -/
theorem always_of_step {allowed : Config σ ρ Act Resp α → Move ρ ω → Prop}
    {property : Config σ ρ Act Resp α → Prop} {c : Config σ ρ Act Resp α}
    {moves : List (Move ρ ω)} (each : S.EachMove allowed c moves) (first : property c)
    (step : ∀ d m d', property d → allowed d m → S.move d m = some d' → property d') :
    S.Always property c moves := by
  intro k
  induction k with
  | zero =>
    intro d h
    cases h
    exact first
  | succ k ih =>
    intro d h
    cases hm : moves[k]? with
    | none =>
      rw [List.take_add_one, hm, Option.toList_none, List.append_nil] at h
      exact ih d h
    | some m =>
      rw [S.run_take_succ c hm] at h
      obtain ⟨before, hbefore, hmove⟩ := Option.bind_eq_some_iff.mp h
      exact step before m d (ih before hbefore) (each k before m hbefore hm) hmove

theorem eachMove_true (c : Config σ ρ Act Resp α) (moves : List (Move ρ ω)) :
    S.EachMove (fun _ _ => True) c moves := fun _ _ _ _ _ => trivial

theorem Always.last {property : Config σ ρ Act Resp α → Prop} {c d : Config σ ρ Act Resp α}
    {moves : List (Move ρ ω)} (h : S.Always property c moves) (hd : S.run c moves = some d) :
    property d := h moves.length d (by rw [List.take_length]; exact hd)

section Protocols

variable (P : Protocol Act Resp Φ) (first : ρ → Φ)

def localState (t : Thread ρ Act Resp α) : Φ := P.after (first t.request) t.past

def locals (c : Config σ ρ Act Resp α) : List Φ := c.threads.map (localState P first)

def Disciplined (post : ρ → α → Φ → Prop) (c : Config σ ρ Act Resp α) : Prop :=
  ∀ t ∈ c.threads, P.Follows (localState P first t) t.code (post t.request)

variable {P first} {post : ρ → α → Φ → Prop}

theorem Disciplined.admits {c : Config σ ρ Act Resp α} (h : Disciplined P first post c)
    {i : ℕ} {t : Thread ρ Act Resp α} {act : Act} {next : Resp act → Prog Act Resp α}
    (ht : c.threads[i]? = some t) (hcode : t.code = .step act next) :
    P.admits (localState P first t) act := by
  have follows := h t (List.mem_of_getElem? ht)
  rw [hcode] at follows
  exact follows.1

theorem Disciplined.admits_nextAction {c : Config σ ρ Act Resp α} (h : Disciplined P first post c)
    {i : ℕ} {t : Thread ρ Act Resp α} {act : Act} (ht : c.threads[i]? = some t)
    (hact : nextAction c i = some act) : P.admits (localState P first t) act := by
  rw [nextAction, ht, Option.bind_some] at hact
  cases hcode : t.code with
  | ret a =>
    rw [hcode] at hact
    cases hact
  | step act' next =>
    rw [hcode] at hact
    cases hact
    exact h.admits ht hcode

theorem localState_step (t : Thread ρ Act Resp α) {act : Act}
    (next : Resp act → Prog Act Resp α) (r : Resp act) :
    localState P first ⟨t.request, next r, t.past ++ [⟨act, r⟩]⟩ =
      P.next (localState P first t) act r := P.after_concat _ _ _

theorem Disciplined.move (handlers : ∀ request, P.Follows (first request) (S.handler request)
    (post request)) {c c' : Config σ ρ Act Resp α} {m : Move ρ ω} (h : Disciplined P first post c)
    (hm : S.move c m = some c') : Disciplined P first post c' := by
  cases m with
  | start request =>
    cases hm
    intro t mem
    rcases List.mem_append.mp mem with old | new
    · exact h t old
    · rw [List.mem_singleton.mp new]
      exact handlers request
  | act i outcome =>
    obtain ⟨t, act, next, r, s, ht, hcode, -, rfl⟩ := S.move_act hm
    intro t' mem
    rcases List.mem_or_eq_of_mem_set mem with old | rfl
    · exact h t' old
    · have follows := h t (List.mem_of_getElem? ht)
      rw [hcode] at follows
      rw [localState_step]
      exact follows.2 r

theorem locals_set {c : Config σ ρ Act Resp α} (s : σ) (i : ℕ) (t : Thread ρ Act Resp α) {act : Act}
    (next : Resp act → Prog Act Resp α) (r : Resp act) :
    locals P first (⟨s, c.threads.set i ⟨t.request, next r, t.past ++ [⟨act, r⟩]⟩⟩ :
        Config σ ρ Act Resp α) =
      (locals P first c).set i (P.next (localState P first t) act r) := by
  rw [locals, List.map_set, localState_step]
  rfl

theorem locals_getElem? {c : Config σ ρ Act Resp α} {i : ℕ} {t : Thread ρ Act Resp α}
    (ht : c.threads[i]? = some t) : (locals P first c)[i]? = some (localState P first t) := by
  rw [locals, List.getElem?_map, ht]
  rfl

theorem thread_of_local {c : Config σ ρ Act Resp α} {i : ℕ} {φ : Φ}
    (h : (locals P first c)[i]? = some φ) :
    ∃ t, c.threads[i]? = some t ∧ localState P first t = φ := by
  rw [locals, List.getElem?_map] at h
  exact Option.map_eq_some_iff.mp h

theorem always_threads (handlers : ∀ request, P.Follows (first request) (S.handler request)
      (post request))
    {good : ρ → List (Event Act Resp) → Prop} (arrive : ∀ request, good request [])
    (step : ∀ request past act r, P.admits (P.after (first request) past) act →
      good request past → good request (past ++ [⟨act, r⟩])) (s : σ) (moves : List (Move ρ ω)) :
    S.Always (fun c => Disciplined P first post c ∧ ∀ t ∈ c.threads, good t.request t.past)
      ⟨s, []⟩ moves := by
  refine S.always_of_step (S.eachMove_true _ _)
    ⟨fun _ mem => absurd mem List.not_mem_nil, fun _ mem => absurd mem List.not_mem_nil⟩ ?_
  rintro d m d' ⟨disciplined, holds⟩ - hmove
  refine ⟨disciplined.move S handlers hmove, fun t mem => ?_⟩
  cases m with
  | start request =>
    cases hmove
    rcases List.mem_append.mp mem with old | new
    · exact holds t old
    · rw [List.mem_singleton.mp new]
      exact arrive request
  | act i outcome =>
    obtain ⟨u, act, next, r, s', ht, hcode, -, rfl⟩ := S.move_act hmove
    rcases List.mem_or_eq_of_mem_set mem with old | rfl
    · exact holds t old
    · exact step u.request u.past act r (disciplined.admits ht hcode)
        (holds u (List.mem_of_getElem? ht))

/-- The protocol rule: an invariant of the shared state and the local states is
kept by every run if a new request keeps it and every admitted action keeps it. -/
theorem always_locals (handlers : ∀ request, P.Follows (first request) (S.handler request)
      (post request))
    {allowed : Config σ ρ Act Resp α → Move ρ ω → Prop} (inv : σ → List Φ → Prop)
    (arrive : ∀ s φs request, inv s φs → inv s (φs ++ [first request]))
    (step : ∀ c i outcome φ act r s, (locals P first c)[i]? = some φ → nextAction c i = some act →
      S.step i act outcome c.shared = some (r, s) → P.admits φ act →
      allowed c (.act i outcome) → inv c.shared (locals P first c) →
      inv s ((locals P first c).set i (P.next φ act r)))
    {s : σ} (initial : inv s []) {moves : List (Move ρ ω)}
    (each : S.EachMove allowed ⟨s, []⟩ moves) :
    S.Always (fun c => Disciplined P first post c ∧ inv c.shared (locals P first c))
      ⟨s, []⟩ moves := by
  refine S.always_of_step each ⟨fun _ mem => absurd mem List.not_mem_nil, initial⟩ ?_
  rintro d m d' ⟨disciplined, holds⟩ allow hmove
  refine ⟨disciplined.move S handlers hmove, ?_⟩
  cases m with
  | start request =>
    cases hmove
    rw [locals, List.map_append]
    exact arrive d.shared _ request holds
  | act i outcome =>
    obtain ⟨t, act, next, r, s', ht, hcode, hstep, rfl⟩ := S.move_act hmove
    rw [locals_set]
    exact step d i outcome _ act r s' (locals_getElem? ht) (nextAction_eq ht hcode) hstep
      (disciplined.admits ht hcode) allow holds

end Protocols

end System

section Counting

variable {α β : Type} {l : List α} {i : ℕ} {a : α}

theorem split_at_index (h : l[i]? = some a) :
    ∃ u v, l = u ++ a :: v ∧ ∀ b, l.set i b = u ++ b :: v := by
  obtain ⟨inside, rfl⟩ := List.getElem?_eq_some_iff.mp h
  refine ⟨l.take i, l.drop (i + 1), ?_, fun b => ?_⟩
  · rw [List.getElem_cons_drop, List.take_append_drop]
  · rw [List.set_eq_take_append_cons_drop, if_pos inside]

theorem set_same (h : l[i]? = some a) : l.set i a = l := by
  obtain ⟨inside, rfl⟩ := List.getElem?_eq_some_iff.mp h
  exact List.set_getElem_self inside

theorem of_getElem?_concat (h : (l ++ [a])[i]? = some b) :
    l[i]? = some b ∨ i = l.length ∧ b = a := by
  by_cases inside : i < l.length
  · exact .inl ((List.getElem?_append_left inside).symm.trans h)
  · have last := (List.getElem?_append_right (not_lt.mp inside)).symm.trans h
    have bound := (List.getElem?_eq_some_iff.mp h).1
    rw [List.length_append, List.length_singleton] at bound
    exact .inr ⟨by omega, List.mem_singleton.mp (List.mem_of_getElem? last)⟩

theorem countP_set (h : l[i]? = some a) (p : α → Bool) (b : α) :
    (l.set i b).countP p + (if p a then 1 else 0) = l.countP p + (if p b then 1 else 0) := by
  obtain ⟨u, v, rfl, changed⟩ := split_at_index h
  rw [changed]
  simp only [List.countP_append, List.countP_cons]
  omega

theorem filterMap_set_perm (h : l[i]? = some a) (f : α → Option β) (b : α) :
    ((l.set i b).filterMap f ++ (f a).toList).Perm (l.filterMap f ++ (f b).toList) := by
  obtain ⟨u, v, rfl, changed⟩ := split_at_index h
  rw [changed]
  have around : ∀ c, ((u ++ c :: v).filterMap f).Perm
      ((u ++ v).filterMap f ++ (f c).toList) := by
    intro c
    refine (List.perm_middle.filterMap f).trans ?_
    rw [List.filterMap_cons]
    cases f c with
    | none => rw [Option.toList_none, List.append_nil]
    | some x => exact (List.perm_append_singleton x _).symm
  refine ((around b).append_right _).trans (.trans ?_ ((around a).symm.append_right _))
  rw [List.append_assoc, List.append_assoc]
  exact List.perm_append_comm.append_left _

theorem eq_of_nodup_filterMap {f : α → Option β}
    (h : (l.filterMap f).Nodup) {i j : ℕ} {x y : α} {b : β} (hi : l[i]? = some x)
    (hj : l[j]? = some y) (hx : f x = some b) (hy : f y = some b) : i = j := by
  induction l generalizing i j with
  | nil => cases hi
  | cons a l ih =>
    have tail : ∀ k z, l[k]? = some z → f z = some b → b ∈ l.filterMap f := fun k z hk hz =>
      List.mem_filterMap.mpr ⟨z, List.mem_of_getElem? hk, hz⟩
    cases i with
    | zero =>
      cases j with
      | zero => rfl
      | succ j =>
        cases hi
        rw [List.filterMap_cons_some hx] at h
        exact absurd (tail j y hj hy) (List.nodup_cons.mp h).1
    | succ i =>
      cases j with
      | zero =>
        cases hj
        rw [List.filterMap_cons_some hy] at h
        exact absurd (tail i x hi hx) (List.nodup_cons.mp h).1
      | succ j =>
        have rest : (l.filterMap f).Nodup := by
          refine h.sublist ?_
          exact (List.sublist_cons_self a l).filterMap f
        rw [ih rest hi hj]

end Counting

end ARCServer.InterleavedPrograms

import ARCServer.ProgramsAlone

/-! Requests one after another: one thread runs each program to its end before it begins
the next. Such a run is one of the interleaved runs, so what these keep it keeps, and it
is only blocked where all the requests together are. -/

namespace ARCServer.SerialRuns

open InterleavedPrograms ProgramsAlone

section Programs

variable {σ ω Act : Type} {Resp : Act → Type} {α β : Type}
variable (effect : (act : Act) → ω → σ → Option (Resp act × σ))

def execute : Prog Act Resp α → (ℕ → ω) → σ → Option (List (Event Act Resp) × α × σ)
  | .ret a, _, s => some ([], a, s)
  | .step act next, outcomes, s =>
    (effect act (outcomes 0) s).bind fun taken =>
      (execute (next taken.1) (fun n => outcomes (n + 1)) taken.2).map fun rest =>
        (⟨act, taken.1⟩ :: rest.1, rest.2)

def Executes (p : Prog Act Resp α) (outcomes : ℕ → ω) (s : σ) (a : α) (s' : σ) : Prop :=
  ∃ past, execute effect p outcomes s = some (past, a, s')

variable {effect} {outcomes : ℕ → ω} {s t s' : σ} {act : Act} {a : α} {b : β}

theorem execute_step {next : Resp act → Prog Act Resp α} {past : List (Event Act Resp)}
    (h : execute effect (.step act next) outcomes s = some (past, a, s')) :
    ∃ r t later, effect act (outcomes 0) s = some (r, t) ∧
      execute effect (next r) (fun n => outcomes (n + 1)) t = some (later, a, s') ∧
      past = ⟨act, r⟩ :: later := by
  obtain ⟨⟨r, t⟩, taken, rest⟩ := Option.bind_eq_some_iff.mp h
  obtain ⟨⟨later, b, u⟩, ran, same⟩ := Option.map_eq_some_iff.mp rest
  cases same
  exact ⟨r, t, later, taken, ran, rfl⟩

theorem completes_of_execute {p : Prog Act Resp α} {past : List (Event Act Resp)}
    (h : execute effect p outcomes s = some (past, a, s')) :
    (World.mk effect fun _ _ _ => True).Completes p s past a s' := by
  induction p generalizing outcomes s past with
  | ret b =>
    cases h
    exact .ret _ _
  | step act next ih =>
    obtain ⟨r, t, later, taken, ran, rfl⟩ := execute_step h
    exact .step trivial taken (ih r ran)

theorem Executes.ret (a : α) (outcomes : ℕ → ω) (s : σ) :
    Executes effect (.ret a : Prog Act Resp α) outcomes s a s := ⟨[], rfl⟩

theorem Executes.step {next : Resp act → Prog Act Resp α} {r : Resp act}
    (taken : effect act (outcomes 0) s = some (r, t))
    (rest : Executes effect (next r) (fun n => outcomes (n + 1)) t a s') :
    Executes effect (.step act next) outcomes s a s' := by
  obtain ⟨past, ran⟩ := rest
  refine ⟨⟨act, r⟩ :: past, ?_⟩
  rw [execute, taken, Option.bind_some, ran]
  rfl

theorem Executes.bind {p : Prog Act Resp β} {f : β → Prog Act Resp α}
    (first : Executes effect p outcomes s b t)
    (rest : ∀ later, Executes effect (f b) later t a s') :
    Executes effect (p >>= f) outcomes s a s' := by
  obtain ⟨past, ran⟩ := first
  induction p generalizing outcomes s past with
  | ret b' =>
    cases ran
    exact rest outcomes
  | step act next ih =>
    obtain ⟨r, u, later, taken, ran', -⟩ := execute_step ran
    exact Executes.step taken (ih r later ran')

end Programs

section Requests

variable {σ ω ρ Act : Type} {Resp : Act → Type} {α : Type} (S : System σ ω ρ Act Resp α)

def serve (c : Config σ ρ Act Resp α) (request : ρ) (outcomes : ℕ → ω) :
    Option (α × Config σ ρ Act Resp α) :=
  (execute (S.step c.threads.length) (S.handler request) outcomes c.shared).map fun ran =>
    (ran.2.1, ⟨ran.2.2, c.threads ++ [⟨request, .ret ran.2.1, ran.1⟩]⟩)

def serveAll (c : Config σ ρ Act Resp α) :
    List (ρ × (ℕ → ω)) → Option (List α × Config σ ρ Act Resp α)
  | [] => some ([], c)
  | (request, outcomes) :: rest =>
    (serve S c request outcomes).bind fun served =>
      (serveAll served.2 rest).map fun later => (served.1 :: later.1, later.2)

def Idle (c : Config σ ρ Act Resp α) : Prop := ∀ t ∈ c.threads, ∃ a, t.code = .ret a

variable {S} {c d : Config σ ρ Act Resp α} {request : ρ} {outcomes : ℕ → ω} {a : α}

theorem Executes.serve {s : σ}
    (h : Executes (S.step c.threads.length) (S.handler request) outcomes c.shared a s) :
    ∃ past, serve S c request outcomes = some (a, ⟨s, c.threads ++ [⟨request, .ret a, past⟩]⟩) := by
  obtain ⟨past, ran⟩ := h
  refine ⟨past, ?_⟩
  rw [SerialRuns.serve, ran]
  rfl

theorem move_newest {s s' : σ} {threads : List (Thread ρ Act Resp α)} {act : Act}
    {next : Resp act → Prog Act Resp α} {before : List (Event Act Resp)} {r : Resp act}
    {outcome : ω} (taken : S.step threads.length act outcome s = some (r, s')) :
    S.move ⟨s, threads ++ [⟨request, .step act next, before⟩]⟩ (.act threads.length outcome) =
      some ⟨s', threads ++ [⟨request, next r, before ++ [⟨act, r⟩]⟩]⟩ := by
  have there (t : Thread ρ Act Resp α) : (threads ++ [t])[threads.length]? = some t :=
    List.getElem?_concat_length
  simp only [System.move, there, taken, List.set_append_right _ _ le_rfl, Nat.sub_self,
    List.set_cons_zero]

theorem run_of_execute {p : Prog Act Resp α} {s s' : σ} {threads : List (Thread ρ Act Resp α)}
    {past : List (Event Act Resp)} (before : List (Event Act Resp))
    (h : execute (S.step threads.length) p outcomes s = some (past, a, s')) :
    ∃ acts : List ω,
      S.run ⟨s, threads ++ [⟨request, p, before⟩]⟩ (acts.map (.act threads.length)) =
        some ⟨s', threads ++ [⟨request, .ret a, before ++ past⟩]⟩ := by
  induction p generalizing outcomes s before past with
  | ret b =>
    cases h
    exact ⟨[], by rw [List.append_nil]; rfl⟩
  | step act next ih =>
    obtain ⟨r, t, later, taken, ran, rfl⟩ := execute_step h
    obtain ⟨acts, rest⟩ := ih r (before ++ [⟨act, r⟩]) ran
    refine ⟨outcomes 0 :: acts, Option.bind_eq_some_iff.mpr ⟨_, move_newest taken, ?_⟩⟩
    rw [List.append_assoc] at rest
    exact rest

/-- A request that is served alone is served in one of the interleaved runs. -/
theorem run_of_serve (h : serve S c request outcomes = some (a, d)) :
    ∃ acts : List ω, S.run c (.start request :: acts.map (.act c.threads.length)) = some d := by
  obtain ⟨⟨past, b, s⟩, ran, same⟩ := Option.map_eq_some_iff.mp h
  cases same
  exact run_of_execute [] ran

theorem reached_serve {c₀ : Config σ ρ Act Resp α} (reached : ∃ moves, S.run c₀ moves = some c)
    (h : serve S c request outcomes = some (a, d)) : ∃ moves, S.run c₀ moves = some d := by
  obtain ⟨moves, before⟩ := reached
  obtain ⟨acts, later⟩ := run_of_serve h
  refine ⟨moves ++ .start request :: acts.map (.act c.threads.length), ?_⟩
  rw [System.run, List.foldlM_append]
  exact Option.bind_eq_some_iff.mpr ⟨c, before, later⟩

theorem serve_threads (h : serve S c request outcomes = some (a, d)) :
    ∃ past, d.threads = c.threads ++ [⟨request, .ret a, past⟩] := by
  obtain ⟨⟨past, b, s⟩, -, same⟩ := Option.map_eq_some_iff.mp h
  cases same
  exact ⟨past, rfl⟩

theorem Idle.serve (idle : Idle c) (h : serve S c request outcomes = some (a, d)) : Idle d := by
  obtain ⟨past, grown⟩ := serve_threads h
  intro t mem
  rw [grown] at mem
  rcases List.mem_append.mp mem with old | new
  · exact idle t old
  · rw [List.mem_singleton.mp new]
    exact ⟨a, rfl⟩

structure Lively (S : System σ ω ρ Act Resp α) (inv : Config σ ρ Act Resp α → Prop) : Prop where
  keeps : ∀ c m d, inv c → S.move c m = some d → inv d
  ready : ∀ c (i : ℕ) t, inv c → c.threads[i]? = some t → (∀ a, t.code ≠ .ret a) →
    (∀ (j : ℕ) u, c.threads[j]? = some u → j ≠ i → ∃ a, u.code = .ret a) →
      ∀ outcome, (S.move c (.act i outcome)).isSome

variable {inv : Config σ ρ Act Resp α → Prop}

theorem execute_isSome (lively : Lively S inv) {threads : List (Thread ρ Act Resp α)}
    (idle : ∀ t ∈ threads, ∃ a, t.code = .ret a) {p : Prog Act Resp α} {s : σ}
    {before : List (Event Act Resp)} (holds : inv ⟨s, threads ++ [⟨request, p, before⟩]⟩)
    (outcomes : ℕ → ω) : (execute (S.step threads.length) p outcomes s).isSome := by
  induction p generalizing outcomes s before with
  | ret a => rfl
  | step act next ih =>
    have there (t : Thread ρ Act Resp α) : (threads ++ [t])[threads.length]? = some t :=
      List.getElem?_concat_length
    have enabled := lively.ready _ threads.length _ holds (there _) (fun a same => by cases same)
      (fun j u at_j other => by
        have before : j < threads.length := by
          have inside := (List.getElem?_eq_some_iff.mp at_j).1
          rw [List.length_append, List.length_singleton] at inside
          omega
        exact idle u (List.mem_of_getElem? ((List.getElem?_append_left before).symm.trans at_j)))
      (outcomes 0)
    obtain ⟨d, moved⟩ := Option.isSome_iff_exists.mp enabled
    obtain ⟨u, act', next', r, s', at_u, code, taken, -⟩ := S.move_act moved
    rw [there] at at_u
    cases at_u
    cases code
    have later := lively.keeps _ _ _ holds (move_newest taken)
    obtain ⟨rest, ran⟩ := Option.isSome_iff_exists.mp (ih r later fun n => outcomes (n + 1))
    rw [execute, taken, Option.bind_some, ran]
    rfl

/-- Where some request can always go on, a request that is alone is never blocked. -/
theorem serve_isSome (lively : Lively S inv) (idle : Idle c) (holds : inv c) (request : ρ)
    (outcomes : ℕ → ω) : (serve S c request outcomes).isSome := by
  have started : inv ⟨c.shared, c.threads ++ [⟨request, S.handler request, []⟩]⟩ :=
    lively.keeps c (.start request) _ holds rfl
  exact (Option.isSome_map ..).trans (execute_isSome lively idle started outcomes)

end Requests

end ARCServer.SerialRuns

import ARCServer.FeatureMemory

/-! Guests are stored with the pointer that the SDK handed out, so what a comparison
reads later depends on who has extracted on that engine in the meantime. -/

namespace ARCServer.GuestFeatures

open InterleavedPrograms EnginePool FaceSdk RequestHandlers RequestSession PoolExclusivity
  FeatureMemory MachineIntegers

/-- Every cached guest reads as the feature that the request which stored it, one to add a
guest under that id, extracted from its image. -/
def GuestsIntact (c : Requests) : Prop :=
  ∀ entry ∈ c.shared.cache_guest, ∃ t bytes, c.threads[entry.creator]? = some t ∧
    t.request = .addFeatureG bytes entry.guest.UserID ∧
      Extracted t.request t.past (bytesOf c.shared.memory entry.guest.model)

/-- The move is no extraction into a buffer that a cached guest points to, unless it puts
the same bytes there. -/
def sparesGuests (c : Requests) : Move Request Outside → Bool
  | .start _ => true
  | .act i outside =>
    match System.nextAction c i with
    | some (.sdk (.extractFRFeature e _ _)) => c.shared.cache_guest.all fun entry =>
        !outside.replaces e c.shared.memory entry.guest.model
    | _ => true

def Owned (memory : Memory) (φs : List Session) (entry : GuestEntry) : Prop :=
  ∃ φ bytes f, φs[entry.creator]? = some φ ∧ φ.request = .addFeatureG bytes entry.guest.UserID ∧
    φ.feature = some f ∧ bytesOf memory entry.guest.model = f.bytes

section Steps

variable {s s' : Server} {φs : List Session} {i : ℕ} {φ : Session} {act : Action}
  {r : act.Response} {outside : Outside} {entry : GuestEntry}

theorem Owned.arrive {memory : Memory} (h : Owned memory φs entry) (ψ : Session) :
    Owned memory (φs ++ [ψ]) entry := by
  obtain ⟨φ, bytes, f, creator, rest⟩ := h
  refine ⟨φ, bytes, f, ?_, rest⟩
  rw [List.getElem?_append_left (List.getElem?_eq_some_iff.mp creator).1, creator]

theorem Owned.step {memory memory' : Memory} (h : Owned memory φs entry)
    (at_i : φs[i]? = some φ) (adm : session.admits φ act)
    (same : bytesOf memory' entry.guest.model = bytesOf memory entry.guest.model) :
    Owned memory' (φs.set i (session.next φ act r)) entry := by
  obtain ⟨ψ, bytes, f, creator, request, feature, read⟩ := h
  by_cases own : i = entry.creator
  · subst own
    rw [at_i] at creator
    cases creator
    refine ⟨session.next φ act r, bytes, f, ?_, ?_, next_feature adm feature, same.trans read⟩
    · exact List.getElem?_set_self (List.getElem?_eq_some_iff.mp at_i).1
    · rw [next_request, request]
  · refine ⟨ψ, bytes, f, ?_, request, feature, same.trans read⟩
    rw [List.getElem?_set_ne own, creator]

theorem owned_pushed {guest : GuestModel} (kept : Kept s.memory φ) (at_i : φs[i]? = some φ)
    (adm : session.admits φ (.db (.pushGuest guest))) : Owned s.memory φs ⟨i, guest⟩ := by
  obtain ⟨⟨bytes, request⟩, model, holding⟩ := adm
  obtain ⟨f, feature, same⟩ := Option.map_eq_some_iff.mp model
  rw [feature, Option.map_some, Option.some.injEq] at holding
  refine ⟨φ, bytes, f, at_i, request, feature, ?_⟩
  rw [← same]
  exact kept f feature (by rw [← holding]; rfl)

theorem owned_step (owned : ∀ entry ∈ s.cache_guest, Owned s.memory φs entry)
    (kept : ∀ ψ ∈ φs, Kept s.memory ψ) (at_i : φs[i]? = some φ) (adm : session.admits φ act)
    (hstep : arcServer.step i act outside s = some (r, s'))
    (spared : ∀ entry ∈ s.cache_guest,
      bytesOf s'.memory entry.guest.model = bytesOf s.memory entry.guest.model) :
    ∀ entry ∈ s'.cache_guest, Owned s'.memory (φs.set i (session.next φ act r)) entry := by
  have old : ∀ entry ∈ s.cache_guest,
      Owned s'.memory (φs.set i (session.next φ act r)) entry := fun entry mem =>
    (owned entry mem).step at_i adm (spared entry mem)
  rcases cache_guest_step hstep with same | ⟨guest, rfl, grown⟩
  · rw [same]
    exact old
  · rw [grown]
    intro entry mem
    rcases List.mem_append.mp mem with before | new
    · exact old entry before
    · rw [List.mem_singleton.mp new]
      have stored := owned_pushed (kept φ (List.mem_of_getElem? at_i)) at_i adm
      exact stored.step at_i adm (by rw [(step_db hstep).memory])

structure GuestsSound (s : Server) (φs : List Session) : Prop where
  pool : Sound s.pool (φs.map Session.phase)
  kept : ∀ φ ∈ φs, Kept s.memory φ
  owned : ∀ entry ∈ s.cache_guest, Owned s.memory φs entry

theorem GuestsSound.initial (initEngine : ℕ → Int) (empty : s.cache_guest = []) :
    GuestsSound (started initEngine s).shared [] := by
  refine ⟨Sound.initial initEngine, fun φ mem => absurd mem List.not_mem_nil, fun entry mem => ?_⟩
  rw [show (started initEngine s).shared.cache_guest = [] from empty] at mem
  cases mem

theorem GuestsSound.arrive (h : GuestsSound s φs) (request : Request) :
    GuestsSound s (φs ++ [.start request]) := by
  refine ⟨?_, ?_, fun entry mem => (h.owned entry mem).arrive _⟩
  · rw [List.map_append]
    exact h.pool.arrive
  · exact List.forall_mem_append.mpr ⟨h.kept, List.forall_mem_singleton.mpr nofun⟩

theorem GuestsSound.step (h : GuestsSound s φs) (at_i : φs[i]? = some φ)
    (adm : session.admits φ act) (hstep : arcServer.step i act outside s = some (r, s'))
    (spared : ∀ entry ∈ s.cache_guest,
      bytesOf s'.memory entry.guest.model = bytesOf s.memory entry.guest.model) :
    GuestsSound s' (φs.set i (session.next φ act r)) :=
  ⟨sound_step h.pool at_i adm hstep, kept_step h.pool h.kept at_i adm hstep,
    owned_step h.owned h.kept at_i adm hstep spared⟩

end Steps

theorem always_owned {initEngine : ℕ → Int} {s : Server} (empty : s.cache_guest = [])
    {moves : Run}
    (each : arcServer.EachMove (fun c m => sparesGuests c m) (started initEngine s) moves) :
    arcServer.Always (fun c => ∀ entry ∈ c.shared.cache_guest,
      Owned c.shared.memory (sessions c) entry) (started initEngine s) moves := by
  have all := arcServer.always_locals follows_handler GuestsSound (fun _ _ request h =>
    h.arrive request) ?_ (GuestsSound.initial initEngine empty) each
  · exact fun k d hd => (all k d hd).2.owned
  · intro c i outside φ act r s' at_i hact hstep adm spared h
    refine h.step at_i adm hstep fun entry mem => ?_
    rcases memory_step hstep with same | ⟨e, inputImg, face, rfl, changed⟩
    · rw [same]
    · rw [sparesGuests, hact] at spared
      rw [changed]
      exact bytesOf_overwrite_iff.mpr (by simpa using List.all_eq_true.mp spared entry mem)

theorem intact_of_owned {c : Requests} (traced : ∀ t ∈ c.threads, Traced t.request t.past)
    (owned : ∀ entry ∈ c.shared.cache_guest, Owned c.shared.memory (sessions c) entry) :
    GuestsIntact c := by
  intro entry mem
  obtain ⟨φ, bytes, f, creator, request, feature, read⟩ := owned entry mem
  obtain ⟨t, ht, rfl⟩ := System.thread_of_local creator
  have trace := traced t (List.mem_of_getElem? ht)
  refine ⟨t, bytes, ht, trace.request_eq.symm.trans request, ?_⟩
  rw [read]
  exact trace.extracted f feature

theorem GuestsIntact.feature_eq {c : Requests} (h : GuestsIntact c)
    (traced : ∀ t ∈ c.threads, Traced t.request t.past) {entry : GuestEntry}
    (mem : entry ∈ c.shared.cache_guest) {t : RequestThread}
    (ht : c.threads[entry.creator]? = some t) :
    ∃ f, (sessionOf t).feature = some f ∧ f.bytes = bytesOf c.shared.memory entry.guest.model := by
  obtain ⟨t', bytes, ht', -, extracted⟩ := h entry mem
  rw [ht] at ht'
  cases ht'
  exact (traced t (List.mem_of_getElem? ht)).feature_eq extracted

theorem spares_of_intact {c : Requests} {m : Move Request Outside}
    (disciplined : System.Disciplined session Session.start (fun _ _ φ => φ.phase = .idle) c)
    (traced : ∀ t ∈ c.threads, Traced t.request t.past) (before : GuestsIntact c)
    (after : ∀ d, arcServer.move c m = some d → GuestsIntact d)
    (traced_after : ∀ d, arcServer.move c m = some d → ∀ t ∈ d.threads, Traced t.request t.past) :
    sparesGuests c m := by
  cases m with
  | start request => rfl
  | act i outside =>
    rw [sparesGuests]
    split
    · next e inputImg face hact =>
      refine List.all_eq_true.mpr fun entry mem => ?_
      rw [Bool.not_eq_eq_eq_not, Bool.not_true, ← bytesOf_overwrite_iff]
      obtain ⟨t, bytes, ht, -, -⟩ := before entry mem
      obtain ⟨f, feature, read⟩ := before.feature_eq traced mem ht
      -- the request that stored the guest has extracted before, so it is another one
      have other : i ≠ entry.creator := by
        rintro rfl
        have fresh : (sessionOf t).feature = none := (disciplined.admits_nextAction ht hact).2.1
        rw [feature] at fresh
        cases fresh
      obtain ⟨d, hmove, shared⟩ := arcServer.move_of_nextAction hact
        (show arcServer.step i (.sdk (.extractFRFeature e inputImg face)) outside c.shared =
          some _ from rfl)
      have same_thread : d.threads[entry.creator]? = some t := by
        obtain ⟨u, act, next, r, s', -, -, -, rfl⟩ := arcServer.move_act hmove
        exact (List.getElem?_set_ne other).trans ht
      obtain ⟨f', feature', read'⟩ := (after d hmove).feature_eq (traced_after d hmove)
        (by rw [shared]; exact mem) same_thread
      rw [feature] at feature'
      rw [shared, ← Option.some.inj feature', read] at read'
      exact read'.symm
    · rfl

/-- Stored guests stay as they are in a run exactly if every extraction spares them. -/
theorem always_guestsIntact_iff {initEngine : ℕ → Int} {s : Server} (empty : s.cache_guest = [])
    {moves : Run} :
    arcServer.Always GuestsIntact (started initEngine s) moves ↔
      arcServer.EachMove (fun c m => sparesGuests c m) (started initEngine s) moves := by
  have traced := always_traced initEngine s moves
  constructor
  · intro intact k d m hd hm
    have after : ∀ d', arcServer.move d m = some d' →
        arcServer.run (started initEngine s) (moves.take (k + 1)) = some d' := by
      intro d' hmove
      rw [arcServer.run_take_succ _ hm, hd]
      exact hmove
    exact spares_of_intact (always_sound initEngine s moves k d hd).1 (traced k d hd)
      (intact k d hd) (fun d' hmove => intact (k + 1) d' (after d' hmove))
      fun d' hmove => traced (k + 1) d' (after d' hmove)
  · exact fun each k d hd => intact_of_owned (traced k d hd) (always_owned empty each k d hd)

section Runs

def guestsListed (c : Requests) : Bool :=
  c.shared.cache_guest.all fun entry => c.threads[entry.creator]?.any fun t =>
    (extractions t.past).contains (bytesOf c.shared.memory entry.guest.model)

theorem guestsListed_of_intact {c : Requests} (h : GuestsIntact c) : guestsListed c = true := by
  refine List.all_eq_true.mpr fun entry mem => ?_
  obtain ⟨t, bytes, ht, -, extracted⟩ := h entry mem
  rw [ht, Option.any_some]
  exact List.contains_iff_mem.mpr (mem_extractions extracted)

def visitRun (seen : Outside) : Run :=
  .start (.addFeatureG [0xff] 1) :: List.replicate 16 (.act 0 (oneFace [1, 2])) ++
    .start (.compareFace [0xff] "10.0.0.2") :: List.replicate 20 (.act 1 seen)

def matchedModel : Event Action Action.Response → Option FaceModel
  | ⟨.sdk (.facePairMatching _ model _), _⟩ => some model
  | _ => none

def matchedBy (i : ℕ) (c : Requests) : Option (List (List Byte)) :=
  c.threads[i]?.map fun t => (t.past.filterMap matchedModel).map (bytesOf c.shared.memory)

theorem always_guestsIntact_same_face :
    (arcServer.run (started (fun _ => 0) freshServer) (visitRun (oneFace [1, 2]))).isSome ∧
      arcServer.Always GuestsIntact (started (fun _ => 0) freshServer)
        (visitRun (oneFace [1, 2])) :=
  ⟨by decide, (always_guestsIntact_iff rfl).mpr (arcServer.eachMove_of_check (by decide))⟩

/-- The comparison gets the engine that was just given back, and its extraction
replaces the feature of the guest it is then matched with. -/
theorem guest_overwritten :
    (arcServer.run (started (fun _ => 0) freshServer) (visitRun (oneFace [3, 4]))).map
        (matchedBy 1) = some (some [[3, 4]]) ∧
      ¬arcServer.Always GuestsIntact (started (fun _ => 0) freshServer)
        (visitRun (oneFace [3, 4])) := by
  refine ⟨by decide, fun intact => ?_⟩
  have lost : (arcServer.run (started (fun _ => 0) freshServer) (visitRun (oneFace [3, 4]))).map
      guestsListed = some false := by decide
  obtain ⟨d, hd, listed⟩ := Option.map_eq_some_iff.mp lost
  rw [guestsListed_of_intact (System.Always.last _ intact hd)] at listed
  cases listed

end Runs

end ARCServer.GuestFeatures

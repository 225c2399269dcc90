import Mathlib.Data.List.Induction
import Mathlib.Data.Nat.Basic
import Mathlib.Tactic.Common

/-! Reassembly of self-delimiting frames from a stream cut into reads. A handler
runs once after each read, sees everything unread, and hands over one frame or
waits. Symbols, frames, deliveries and faults are arbitrary types; nothing here
depends on how a frame is laid out. -/

namespace ARCServer.FrameStream

variable {β φ γ ε : Type*}

structure Connection (β γ : Type*) where
  unread : List β
  delivered : List γ
  deriving DecidableEq, Repr

abbrev Handler (β γ ε : Type*) := List β → Except ε (Option γ × List β)

def receive (next : Handler β γ ε) (s : Connection β γ) (read : List β) :
    Except ε (Connection β γ) :=
  match next (s.unread ++ read) with
  | .error e => .error e
  | .ok (out, rest) => .ok ⟨rest, s.delivered ++ out.toList⟩

def run (next : Handler β γ ε) (reads : List (List β)) : Except ε (Connection β γ) :=
  reads.foldlM (receive next) ⟨[], []⟩

@[simp] theorem run_nil (next : Handler β γ ε) : run next [] = .ok ⟨[], []⟩ := rfl

theorem run_concat (next : Handler β γ ε) (reads : List (List β)) (read : List β) :
    run next (reads ++ [read]) = (run next reads).bind fun s => receive next s read := by
  unfold run
  rw [List.foldlM_append]
  cases List.foldlM (receive next) ⟨[], []⟩ reads with
  | error e => rfl
  | ok s =>
    simp only [Except.bind, bind, List.foldlM_cons, List.foldlM_nil]
    cases receive next s read <;> rfl

theorem run_take_succ (next : Handler β γ ε) (reads : List (List β)) {k : ℕ} {read : List β}
    (h : reads[k]? = some read) :
    run next (reads.take (k + 1)) =
      (run next (reads.take k)).bind fun s => receive next s read := by
  rw [List.take_add_one, h]
  exact run_concat next (reads.take k) read

theorem receive_ok_iff (next : Handler β γ ε) (s : Connection β γ) (read : List β) :
    (∃ s', receive next s read = .ok s') ↔ ∃ r, next (s.unread ++ read) = .ok r := by
  unfold receive
  cases next (s.unread ++ read) <;> simp

theorem run_ok_iff (next : Handler β γ ε) (reads : List (List β)) :
    (∃ s, run next reads = .ok s) ↔
      ∀ k s read, run next (reads.take k) = .ok s → reads[k]? = some read →
        ∃ r, next (s.unread ++ read) = .ok r := by
  induction reads using List.reverseRecOn with
  | nil => simp
  | append_singleton reads last ih =>
    constructor
    · rintro ⟨final, h⟩ k s read hs hread
      rw [run_concat] at h
      cases before : run next reads with
      | error e =>
        rw [before] at h
        simp only [Except.bind, reduceCtorEq] at h
      | ok t =>
        rw [before] at h
        by_cases inside : k < reads.length
        · rw [List.take_append_of_le_length (by omega)] at hs
          rw [List.getElem?_append_left inside] at hread
          exact ih.mp ⟨t, before⟩ k s read hs hread
        · have bound : k < (reads ++ [last]).length := (List.getElem?_eq_some_iff.mp hread).1
          simp only [List.length_append, List.length_singleton] at bound
          obtain rfl : k = reads.length := by omega
          simp only [List.take_left, before, Except.ok.injEq] at hs
          simp only [List.getElem?_concat_length, Option.some.injEq] at hread
          subst hs hread
          exact (receive_ok_iff next t last).mp ⟨final, h⟩
    · intro calls
      obtain ⟨t, before⟩ : ∃ t, run next reads = .ok t := by
        refine ih.mpr fun k s read hs hread => calls k s read ?_ ?_
        · have inside : k < reads.length := (List.getElem?_eq_some_iff.mp hread).1
          rwa [List.take_append_of_le_length (by omega)]
        · have inside : k < reads.length := (List.getElem?_eq_some_iff.mp hread).1
          rwa [List.getElem?_append_left inside]
      have here := calls reads.length t last (by rw [List.take_left, before])
        List.getElem?_concat_length
      rw [run_concat, before]
      exact (receive_ok_iff next t last).mpr here

theorem run_unread_length_le {next : Handler β γ ε}
    (shrinks : ∀ buf out rest, next buf = .ok (out, rest) → rest.length ≤ buf.length)
    (reads : List (List β)) {s : Connection β γ} (h : run next reads = .ok s) :
    s.unread.length ≤ reads.flatten.length := by
  induction reads using List.reverseRecOn generalizing s with
  | nil =>
    simp only [run_nil, Except.ok.injEq] at h
    subst h
    exact le_rfl
  | append_singleton reads last ih =>
    rw [run_concat] at h
    cases before : run next reads with
    | error e =>
      rw [before] at h
      simp only [Except.bind, reduceCtorEq] at h
    | ok t =>
      rw [before] at h
      have grown := ih before
      simp only [Except.bind, receive] at h
      cases call : next (t.unread ++ last) with
      | error e => simp only [call, reduceCtorEq] at h
      | ok r =>
        simp only [call, Except.ok.injEq] at h
        subst h
        have less := shrinks _ r.1 r.2 call
        simp only [List.length_append, List.flatten_append, List.flatten_singleton] at less ⊢
        omega

def stream (encode : φ → List β) (fs : List φ) : List β := fs.flatMap encode

@[simp] theorem stream_nil (encode : φ → List β) : stream encode [] = [] := rfl

@[simp] theorem stream_cons (encode : φ → List β) (f : φ) (fs : List φ) :
    stream encode (f :: fs) = encode f ++ stream encode fs := rfl

@[simp] theorem stream_append (encode : φ → List β) (fs gs : List φ) :
    stream encode (fs ++ gs) = stream encode fs ++ stream encode gs :=
  List.flatMap_append

def completed (encode : φ → List β) : List φ → ℕ → ℕ
  | [], _ => 0
  | f :: fs, n =>
    if (encode f).length ≤ n then completed encode fs (n - (encode f).length) + 1 else 0

theorem le_completed_iff (encode : φ → List β) (fs : List φ) (k n : ℕ) :
    k ≤ completed encode fs n ↔
      k ≤ fs.length ∧ (stream encode (fs.take k)).length ≤ n := by
  induction fs generalizing k n with
  | nil => simp +contextual [completed]
  | cons f fs ih =>
    cases k with
    | zero => simp
    | succ k =>
      rw [completed]
      simp only [List.take_succ_cons, stream_cons, List.length_append, List.length_cons]
      split
      · rw [Nat.add_le_add_iff_right, ih]
        omega
      · omega

theorem completed_stream (encode : φ → List β) (fs : List φ) :
    completed encode fs (stream encode fs).length = fs.length := by
  refine le_antisymm ((le_completed_iff encode fs _ _).mp le_rfl).1 ?_
  exact (le_completed_iff encode fs _ _).mpr ⟨le_rfl, by rw [List.take_length]⟩

theorem completed_zero {encode : φ → List β} (nonempty : ∀ f, encode f ≠ []) (fs : List φ) :
    completed encode fs 0 = 0 := by
  cases fs with
  | nil => rfl
  | cons f fs =>
    have pos := List.length_pos_iff.mpr (nonempty f)
    rw [completed, if_neg (by omega)]

/-- What a handler must do for the frames to be delivered one per call: hand
over the frame at the front, and wait on any proper part of one. -/
structure Framing (next : Handler β γ ε) (encode : φ → List β) (deliver : φ → γ) : Prop where
  nonempty : ∀ f, encode f ≠ []
  idle : next [] = .ok (none, [])
  complete : ∀ f rest, next (encode f ++ rest) = .ok (some (deliver f), rest)
  waits : ∀ f part, part <+: encode f → part ≠ encode f → next part = .ok (none, part)

/-- The deliveries are the first frames, and the unread symbols are what was
received after them. -/
structure Progress (encode : φ → List β) (deliver : φ → γ) (fs : List φ)
    (received : List β) (s : Connection β γ) : Prop where
  delivered : s.delivered = (fs.take s.delivered.length).map deliver
  unread : stream encode (fs.take s.delivered.length) ++ s.unread = received

section Progress

variable {next : Handler β γ ε} {encode : φ → List β} {deliver : φ → γ}
variable {fs : List φ} {received : List β} {s : Connection β γ}

theorem Progress.count_le (h : Progress encode deliver fs received s) :
    s.delivered.length ≤ fs.length := by
  have count := congrArg List.length h.delivered
  simp only [List.length_map, List.length_take] at count
  omega

theorem Progress.count_le_completed (h : Progress encode deliver fs received s) :
    s.delivered.length ≤ completed encode fs received.length := by
  rw [le_completed_iff]
  refine ⟨h.count_le, ?_⟩
  rw [← h.unread, List.length_append]
  omega

theorem Progress.unread_front (h : Progress encode deliver fs received s)
    (part : received <+: stream encode fs) :
    s.unread <+: stream encode (fs.drop s.delivered.length) := by
  rw [← h.unread] at part
  conv at part => rhs; rw [← List.take_append_drop s.delivered.length fs, stream_append]
  exact (List.prefix_append_right_inj _).mp part

theorem Progress.front_of_lt (h : Progress encode deliver fs received s)
    (part : received <+: stream encode fs)
    (lt : s.delivered.length < completed encode fs received.length) :
    ∃ f, fs[s.delivered.length]? = some f ∧ encode f <+: s.unread := by
  obtain ⟨bound, fits⟩ := (le_completed_iff encode fs _ _).mp (Nat.succ_le_of_lt lt)
  refine ⟨fs[s.delivered.length], List.getElem?_eq_getElem bound, ?_⟩
  have front := h.unread_front part
  rw [List.drop_eq_getElem_cons bound, stream_cons] at front
  refine List.prefix_of_prefix_length_le (List.prefix_append _ _) front ?_
  rw [List.take_add_one, List.getElem?_eq_getElem bound, stream_append, List.length_append,
    ← h.unread, List.length_append] at fits
  simpa [stream] using fits

theorem Progress.lt_of_front (laws : Framing next encode deliver)
    (h : Progress encode deliver fs received s) (part : received <+: stream encode fs)
    {f : φ} (front : encode f <+: s.unread) :
    s.delivered.length < completed encode fs received.length := by
  have pos := List.length_pos_iff.mpr (laws.nonempty f)
  have inStream := front.trans (h.unread_front part)
  have room := front.length_le
  have bound : s.delivered.length < fs.length := by
    by_contra past
    rw [List.drop_eq_nil_of_le (not_lt.mp past), stream_nil, List.prefix_nil] at inStream
    exact laws.nonempty f inStream
  rw [List.drop_eq_getElem_cons bound, stream_cons] at inStream
  obtain ⟨more, same⟩ := inStream
  -- Both frames are read off the same symbols, so they end at the same place.
  have both := (laws.complete f more).symm.trans
    ((congrArg next same).trans (laws.complete fs[s.delivered.length] _))
  simp only [Except.ok.injEq, Prod.mk.injEq] at both
  have ends := congrArg List.length same
  rw [both.2, List.length_append, List.length_append] at ends
  refine (le_completed_iff encode fs _ _).mpr ⟨bound, ?_⟩
  rw [List.take_add_one, List.getElem?_eq_getElem bound, stream_append, ← h.unread]
  simp only [Option.toList_some, stream_cons, stream_nil, List.append_nil, List.length_append]
  omega

/-- One read: the handler does not fault, progress is kept, and exactly one
frame more is delivered when one was complete. -/
theorem receive_progress (laws : Framing next encode deliver)
    (h : Progress encode deliver fs received s) {read : List β}
    (part : received ++ read <+: stream encode fs) :
    ∃ s', receive next s read = .ok s' ∧
      Progress encode deliver fs (received ++ read) s' ∧
      s'.delivered.length =
        if s.delivered.length < completed encode fs (received ++ read).length
        then s.delivered.length + 1 else s.delivered.length := by
  -- The buffer as the handler sees it is a connection in progress too.
  have seen : Progress encode deliver fs (received ++ read) ⟨s.unread ++ read, s.delivered⟩ := by
    refine ⟨h.delivered, ?_⟩
    rw [← h.unread, List.append_assoc]
  split
  case isTrue lt =>
    obtain ⟨f, hf, rest, hrest⟩ := seen.front_of_lt part lt
    have whole := seen.unread
    simp only at hf hrest whole
    refine ⟨⟨rest, s.delivered ++ [deliver f]⟩, ?_, ⟨?_, ?_⟩, by simp⟩
    · rw [receive, ← hrest, laws.complete]
      rfl
    · simp only [List.length_append, List.length_singleton]
      rw [List.take_add_one, List.map_append, ← h.delivered, hf]
      rfl
    · simp only [List.length_append, List.length_singleton]
      rw [List.take_add_one, hf, stream_append, ← whole, ← hrest]
      simp
  case isFalse notlt =>
    refine ⟨⟨s.unread ++ read, s.delivered⟩, ?_, seen, rfl⟩
    have inStream : s.unread ++ read <+: _ := seen.unread_front part
    have waiting : next (s.unread ++ read) = .ok (none, s.unread ++ read) := by
      by_cases bound : s.delivered.length < fs.length
      · simp only [List.drop_eq_getElem_cons bound, stream_cons] at inStream
        have proper : ¬ encode fs[s.delivered.length] <+: s.unread ++ read := by
          intro front
          have lt := seen.lt_of_front laws part front
          exact notlt lt
        rcases List.prefix_or_prefix_of_prefix inStream (List.prefix_append _ _) with
          shorter | longer
        · exact laws.waits _ _ shorter fun whole => proper (whole ▸ List.prefix_rfl)
        · exact absurd longer proper
      · rw [List.drop_eq_nil_of_le (not_lt.mp bound), stream_nil, List.prefix_nil] at inStream
        rw [inStream]
        exact laws.idle
    rw [receive, waiting]
    simp

theorem run_progress (laws : Framing next encode deliver) {reads : List (List β)}
    (part : reads.flatten <+: stream encode fs) :
    ∃ s, run next reads = .ok s ∧ Progress encode deliver fs reads.flatten s := by
  induction reads using List.reverseRecOn with
  | nil => exact ⟨⟨[], []⟩, rfl, rfl, rfl⟩
  | append_singleton reads last ih =>
    simp only [List.flatten_append, List.flatten_singleton] at part ⊢
    obtain ⟨s, before, h⟩ := ih ((List.prefix_append _ _).trans part)
    obtain ⟨s', after, h', -⟩ := receive_progress laws h part
    refine ⟨s', ?_, h'⟩
    rw [run_concat, before]
    exact after

def NothingWaiting (encode : φ → List β) (s : Connection β γ) : Prop :=
  ∀ f, ¬ encode f <+: s.unread

theorem Progress.nothingWaiting_iff (laws : Framing next encode deliver)
    (h : Progress encode deliver fs received s) (part : received <+: stream encode fs) :
    NothingWaiting encode s ↔ s.delivered.length = completed encode fs received.length := by
  have bound := h.count_le_completed
  constructor
  · intro nothing
    by_contra behind
    obtain ⟨f, -, front⟩ := h.front_of_lt part (by omega)
    exact nothing f front
  · intro caught f front
    have lt := h.lt_of_front laws part front
    omega

end Progress

section Pace

variable {next : Handler β γ ε} {encode : φ → List β} {deliver : φ → γ}
variable {fs : List φ} {reads : List (List β)}

def Paced (encode : φ → List β) (fs : List φ) (reads : List (List β)) : Prop :=
  ∀ k < reads.length,
    completed encode fs (reads.take (k + 1)).flatten.length ≤
      completed encode fs (reads.take k).flatten.length + 1

structure Drained (next : Handler β γ ε) (encode : φ → List β) (deliver : φ → γ)
    (fs : List φ) (reads : List (List β)) : Prop where
  finished : run next reads = .ok ⟨[], fs.map deliver⟩
  prompt : ∀ k s, run next (reads.take k) = .ok s → NothingWaiting encode s

theorem take_flatten_front (reads : List (List β)) (k : ℕ) :
    (reads.take k).flatten <+: reads.flatten := by
  refine ⟨(reads.drop k).flatten, ?_⟩
  rw [← List.flatten_append, List.take_append_drop]

theorem take_succ_flatten (reads : List (List β)) {k : ℕ} (inside : k < reads.length) :
    (reads.take (k + 1)).flatten = (reads.take k).flatten ++ reads[k] := by
  rw [List.take_add_one, List.getElem?_eq_getElem inside, List.flatten_append]
  simp

theorem run_take_progress (laws : Framing next encode deliver)
    (whole : reads.flatten = stream encode fs) (k : ℕ) :
    (reads.take k).flatten <+: stream encode fs ∧
      ∃ s, run next (reads.take k) = .ok s ∧
        Progress encode deliver fs (reads.take k).flatten s := by
  have part : (reads.take k).flatten <+: stream encode fs := whole ▸ take_flatten_front reads k
  exact ⟨part, run_progress laws part⟩

theorem run_take_succ_count (laws : Framing next encode deliver)
    (whole : reads.flatten = stream encode fs) {k : ℕ} (inside : k < reads.length)
    {s s' : Connection β γ} (hs : run next (reads.take k) = .ok s)
    (hs' : run next (reads.take (k + 1)) = .ok s') :
    s'.delivered.length =
      if s.delivered.length < completed encode fs (reads.take (k + 1)).flatten.length
      then s.delivered.length + 1 else s.delivered.length := by
  obtain ⟨-, t, ht, progress⟩ := run_take_progress laws whole k
  obtain rfl : t = s := by
    rw [hs] at ht
    exact (Except.ok.inj ht).symm
  have next_part := (run_take_progress laws whole (k + 1)).1
  rw [take_succ_flatten reads inside] at next_part ⊢
  obtain ⟨t', ht', -, count⟩ := receive_progress laws progress next_part
  rw [run_take_succ next reads (List.getElem?_eq_getElem inside), hs] at hs'
  rw [← count, Except.ok.inj (hs'.symm.trans ht')]

theorem Paced.caught_up (laws : Framing next encode deliver)
    (whole : reads.flatten = stream encode fs) (paced : Paced encode fs reads)
    (k : ℕ) {s : Connection β γ} (hs : run next (reads.take k) = .ok s) :
    s.delivered.length = completed encode fs (reads.take k).flatten.length := by
  induction k generalizing s with
  | zero =>
    simp only [List.take_zero, run_nil, Except.ok.injEq] at hs
    subst hs
    simp [completed_zero laws.nonempty]
  | succ k ih =>
    by_cases inside : k < reads.length
    · obtain ⟨-, t, ht, -⟩ := run_take_progress laws whole k
      have before := ih ht
      have count := run_take_succ_count laws whole inside ht hs
      have pace := paced k inside
      have mono : s.delivered.length ≤ completed encode fs (reads.take (k + 1)).flatten.length := by
        obtain ⟨-, t', ht', progress⟩ := run_take_progress laws whole (k + 1)
        rw [← Except.ok.inj (ht'.symm.trans hs)]
        exact progress.count_le_completed
      split at count <;> omega
    · have past : reads.take (k + 1) = reads.take k := by
        rw [List.take_of_length_le (by omega), List.take_of_length_le (by omega)]
      rw [past] at hs ⊢
      exact ih hs

theorem finished_iff_count (laws : Framing next encode deliver)
    (whole : reads.flatten = stream encode fs) {s : Connection β γ} (hs : run next reads = .ok s) :
    run next reads = .ok ⟨[], fs.map deliver⟩ ↔ s.delivered.length = fs.length := by
  rw [hs, Except.ok.injEq]
  constructor
  · rintro rfl
    exact List.length_map _
  · intro all
    obtain ⟨-, t, ht, progress⟩ := run_take_progress laws whole reads.length
    rw [List.take_length] at ht progress
    obtain rfl := Except.ok.inj (ht.symm.trans hs)
    have delivered := progress.delivered
    have unread := progress.unread
    rw [all, List.take_length] at delivered unread
    rw [whole, List.append_right_eq_self] at unread
    cases t with
    | mk rest out =>
      simp only at delivered unread
      rw [delivered, unread]

/-- A stream is drained exactly when every read completes at most one frame. -/
theorem drained_iff_paced (laws : Framing next encode deliver)
    (whole : reads.flatten = stream encode fs) :
    Drained next encode deliver fs reads ↔ Paced encode fs reads := by
  constructor
  · intro drained k inside
    obtain ⟨part, s, hs, progress⟩ := run_take_progress laws whole k
    obtain ⟨part', s', hs', progress'⟩ := run_take_progress laws whole (k + 1)
    have now := (progress.nothingWaiting_iff laws part).mp (drained.prompt k s hs)
    have later := (progress'.nothingWaiting_iff laws part').mp (drained.prompt (k + 1) s' hs')
    have count := run_take_succ_count laws whole inside hs hs'
    split at count <;> omega
  · intro paced
    refine ⟨?_, fun k s hs => ?_⟩
    · obtain ⟨-, s, hs, -⟩ := run_take_progress laws whole reads.length
      have all := paced.caught_up laws whole reads.length hs
      rw [List.take_length] at hs all
      rw [whole, completed_stream] at all
      exact (finished_iff_count laws whole hs).mpr all
    · obtain ⟨part, t, ht, progress⟩ := run_take_progress laws whole k
      obtain rfl := Except.ok.inj (ht.symm.trans hs)
      exact (progress.nothingWaiting_iff laws part).mpr (paced.caught_up laws whole k ht)

def CatchesUp (encode : φ → List β) (fs : List φ) (reads : List (List β)) : Prop :=
  ∀ k ≤ reads.length,
    fs.length ≤ completed encode fs (reads.take k).flatten.length + (reads.length - k)

theorem run_count_le (laws : Framing next encode deliver)
    (whole : reads.flatten = stream encode fs) {k : ℕ} (inside : k ≤ reads.length)
    {s t : Connection β γ} (hs : run next (reads.take k) = .ok s) (ht : run next reads = .ok t) :
    t.delivered.length ≤ s.delivered.length + (reads.length - k) := by
  induction h : reads.length - k generalizing k s with
  | zero =>
    obtain rfl : k = reads.length := by omega
    rw [List.take_length] at hs
    rw [Except.ok.inj (hs.symm.trans ht)]
    omega
  | succ left ih =>
    obtain ⟨-, s', hs', -⟩ := run_take_progress laws whole (k + 1)
    have count := run_take_succ_count laws whole (show k < reads.length by omega) hs hs'
    have rest := ih (show k + 1 ≤ reads.length by omega) hs' (by omega)
    split at count <;> omega

theorem CatchesUp.missing_le (laws : Framing next encode deliver)
    (whole : reads.flatten = stream encode fs) (pace : CatchesUp encode fs reads) {k : ℕ}
    (inside : k ≤ reads.length) {s : Connection β γ} (hs : run next (reads.take k) = .ok s) :
    fs.length ≤ s.delivered.length + (reads.length - k) := by
  induction k generalizing s with
  | zero =>
    have start := pace 0 (by omega)
    rw [List.take_zero, List.flatten_nil, List.length_nil, completed_zero laws.nonempty] at start
    omega
  | succ k ih =>
    obtain ⟨-, t, ht, -⟩ := run_take_progress laws whole k
    have before := ih (by omega) ht
    have count := run_take_succ_count laws whole (show k < reads.length by omega) ht hs
    have here := pace (k + 1) inside
    split at count <;> omega

theorem finished_iff_catchesUp (laws : Framing next encode deliver)
    (whole : reads.flatten = stream encode fs) :
    run next reads = .ok ⟨[], fs.map deliver⟩ ↔ CatchesUp encode fs reads := by
  obtain ⟨-, t, ht, progress⟩ := run_take_progress laws whole reads.length
  rw [List.take_length] at ht
  rw [finished_iff_count laws whole ht]
  constructor
  · intro all k inside
    obtain ⟨-, s, hs, before⟩ := run_take_progress laws whole k
    have bound := run_count_le laws whole inside hs ht
    have caught := before.count_le_completed
    omega
  · intro pace
    have bound := pace.missing_le laws whole le_rfl (by rw [List.take_length]; exact ht)
    have count := progress.count_le
    omega

end Pace

end ARCServer.FrameStream

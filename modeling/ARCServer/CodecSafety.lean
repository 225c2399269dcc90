import ARCServer.FrameCodec
import ARCServer.FrameStream

/-! When the codecs stay inside the readable bytes, and when one call consumes
one frame. Both depend on the declared length, the flag and the number of
readable bytes only. -/

namespace ARCServer.CodecSafety

open MachineIntegers FrameCodec FrameStream

theorem onMessage_eq (service : Service) (buf : Buffer) :
    service.onMessage buf =
      if buf.length ≤ 4 ∨ buf.length < toSizeT (declaredLength buf) then .ok (none, buf)
      else if buf.length < 8 then .error .overread
      else match service.layout (frameFlag buf) with
        | none => .ok (none, buf.drop 8)
        | some layout => layout.body (declaredLength buf) (buf.drop 8) := by
  rw [Service.onMessage_eq, onFrame_eq, dispatch_eq]
  split_ifs
  · rfl
  · rfl
  · cases service.layout (frameFlag buf) <;> rfl

theorem declaredLength_nonneg {buf : Buffer} (small : buf.length < 9223372036854775808)
    (received : ¬ buf.length < toSizeT (declaredLength buf)) : 0 ≤ declaredLength buf := by
  by_contra neg
  exact received (lt_toSizeT_of_neg (declaredLength_isInt32 buf) (not_le.mp neg) small)

/-- The frame at the front is incomplete, or its headers lie within both the
readable bytes and its declared length. -/
def HeaderFits (service : Service) (buf : Buffer) : Prop :=
  buf.length ≤ 4 ∨ buf.length < toSizeT (declaredLength buf) ∨
    8 ≤ buf.length ∧
      match service.layout (frameFlag buf) with
      | none => True
      | some (.raw _) => 8 ≤ declaredLength buf
      | some (.tagged _) => 12 ≤ declaredLength buf
      | some (.query _) => 12 ≤ buf.length

theorem body_ok_iff (layout : Layout) {len : Int} (range : IsInt32 len) (nonneg : 0 ≤ len)
    {buf : Buffer} (received : len ≤ 8 + buf.length) :
    (∃ r, layout.body len buf = .ok r) ↔
      match layout with
      | .raw _ => 8 ≤ len
      | .tagged _ => 12 ≤ len
      | .query _ => 4 ≤ buf.length := by
  cases layout with
  | raw callback =>
    rw [rawBody_eq callback range nonneg]
    split <;> simp <;> omega
  | tagged callback =>
    rw [taggedBody_eq callback range nonneg]
    split_ifs <;> simp <;> omega
  | query callback =>
    rw [queryBody_eq]
    split <;> simp <;> omega

theorem onMessage_ok_iff (service : Service) {buf : Buffer}
    (small : buf.length < 9223372036854775808) :
    (∃ r, service.onMessage buf = .ok r) ↔ HeaderFits service buf := by
  rw [onMessage_eq]
  unfold HeaderFits
  by_cases waiting : buf.length ≤ 4 ∨ buf.length < toSizeT (declaredLength buf)
  · rw [if_pos waiting]
    exact iff_of_true ⟨_, rfl⟩ (waiting.imp id Or.inl)
  rw [if_neg waiting]
  obtain ⟨long, received⟩ := not_or.mp waiting
  rw [or_iff_right long, or_iff_right received]
  by_cases cut : buf.length < 8
  · rw [if_pos cut]
    simp only [reduceCtorEq, exists_false, false_iff]
    omega
  rw [if_neg cut, and_iff_right (not_lt.mp cut)]
  have nonneg := declaredLength_nonneg small received
  have range := declaredLength_isInt32 buf
  rw [toSizeT_of_nonneg range nonneg] at received
  have body : (buf.drop 8).length = buf.length - 8 := List.length_drop
  cases service.layout (frameFlag buf) with
  | none => exact iff_of_true ⟨_, rfl⟩ trivial
  | some layout =>
    dsimp only
    rw [body_ok_iff layout range nonneg (by omega)]
    cases layout with
    | raw callback => exact Iff.rfl
    | tagged callback => exact Iff.rfl
    | query callback =>
      dsimp only
      omega

theorem consumes_onMessage (service : Service) : Consumes service.onMessage := by
  intro buf out rest h
  rw [onMessage_eq] at h
  split_ifs at h with waiting
  · cases h
    exact List.suffix_rfl
  · cases layout : service.layout (frameFlag buf) with
    | none =>
      simp only [layout] at h
      cases h
      exact List.drop_suffix 8 buf
    | some body =>
      simp only [layout] at h
      exact (consumes_body body _ _ _ _ h).trans (List.drop_suffix 8 buf)

/-- The reads of one connection. A `std::vector<char>` holds fewer than 2^63
bytes, so a client cannot have more than that waiting. -/
structure ClientStream where
  reads : List (List Byte)
  fits : reads.flatten.length < 9223372036854775808

theorem run_inside_iff_headersFit (service : Service) (client : ClientStream) :
    (∃ s, run service.onMessage client.reads = .ok s) ↔
      ∀ k s read, run service.onMessage (client.reads.take k) = .ok s →
        client.reads[k]? = some read → HeaderFits service (s.unread ++ read) := by
  rw [run_ok_iff]
  refine forall_congr' fun k => forall_congr' fun s => forall_congr' fun read =>
    imp_congr_right fun hs => imp_congr_right fun hread => onMessage_ok_iff service ?_
  obtain ⟨inside, rfl⟩ := List.getElem?_eq_some_iff.mp hread
  have held := run_unread_length_le
    (fun buf out rest h => (consumes_onMessage service buf out rest h).length_le) _ hs
  have received := (take_flatten_front client.reads (k + 1)).length_le
  rw [take_succ_flatten client.reads inside] at received
  have fits := client.fits
  simp only [List.length_append] at received ⊢
  omega

theorem short_comp_outside :
    run Service.compare.onMessage [[4, 0, 0, 0, 0x63, 0x6f, 0x6d, 0x70]] = .error .copy ∧
      run Service.guest.onMessage [[0, 0, 0, 0, 0]] = .error .overread := by
  decide

structure CompleteFrame (buf : Buffer) : Prop where
  readable : 4 < buf.length
  received : declaredLength buf ≤ buf.length
  header : 8 ≤ declaredLength buf
  tagged : frameFlag buf ∈ [0x61646466, 0x61646467, 0x6170706c, 0x71757279] →
    12 ≤ declaredLength buf

def ConsumesWhole (service : Service) (buf : Buffer) : Prop :=
  match service.layout (frameFlag buf) with
  | some (.raw _) => True
  | some (.tagged _) => True
  | some (.query _) => declaredLength buf = 12
  | none => declaredLength buf = 8

theorem layout_eq_raw_or_mem (service : Service) {flag : Int} {layout : Layout}
    (h : service.layout flag = some layout) :
    (∃ callback, layout = .raw callback) ∨
      flag ∈ [0x61646466, 0x61646467, 0x6170706c, 0x71757279] := by
  cases service with
  | compare =>
    simp only [Service.layout] at h
    split_ifs at h with comp user guest
    · exact Or.inl ⟨_, (Option.some.inj h).symm⟩
    · exact Or.inr (by simp [user])
    · exact Or.inr (by simp [guest])
  | guest =>
    simp only [Service.layout] at h
    split_ifs at h with add query
    · exact Or.inr (by simp [add])
    · exact Or.inr (by simp [query])

theorem drop_eq_drop_iff {buf : Buffer} {m n : ℕ} (hm : m ≤ buf.length) (hn : n ≤ buf.length) :
    buf.drop m = buf.drop n ↔ m = n := by
  refine ⟨fun h => ?_, fun h => by rw [h]⟩
  have lengths := congrArg List.length h
  simp only [List.length_drop] at lengths
  omega

/-- One call removes exactly the declared bytes of a complete frame when the
branch of its flag retrieves them all, and in no other case. -/
theorem onMessage_consumes_iff (service : Service) {buf : Buffer} (frame : CompleteFrame buf) :
    (∃ out, service.onMessage buf = .ok (out, buf.drop (declaredLength buf).toNat)) ↔
      ConsumesWhole service buf := by
  obtain ⟨readable, received, header, tagged⟩ := frame
  have range := declaredLength_isInt32 buf
  have nonneg : 0 ≤ declaredLength buf := by omega
  have size := toSizeT_of_nonneg range nonneg
  have body : (buf.drop 8).length = buf.length - 8 := List.length_drop
  have whole : (buf.drop 8).drop ((declaredLength buf).toNat - 8) =
      buf.drop (declaredLength buf).toNat := by
    rw [List.drop_drop, show 8 + ((declaredLength buf).toNat - 8) = (declaredLength buf).toNat by
      omega]
  rw [onMessage_eq, size, if_neg (by omega), if_neg (by omega)]
  unfold ConsumesWhole
  cases branch : service.layout (frameFlag buf) with
  | none =>
    simp only [Except.ok.injEq, Prod.mk.injEq, exists_eq_left',
      drop_eq_drop_iff (show 8 ≤ buf.length by omega)
        (show (declaredLength buf).toNat ≤ buf.length by omega)]
    omega
  | some layout =>
    have words := layout_eq_raw_or_mem service branch
    cases layout with
    | raw callback =>
      dsimp only
      rw [rawBody_eq callback range nonneg, if_pos (by omega), whole]
      exact iff_of_true ⟨_, rfl⟩ trivial
    | tagged callback =>
      have id := tagged (words.resolve_left (by simp))
      dsimp only
      rw [taggedBody_eq callback range nonneg, if_neg (by omega), if_pos (by omega), whole]
      exact iff_of_true ⟨_, rfl⟩ trivial
    | query callback =>
      have id := tagged (words.resolve_left (by simp))
      dsimp only
      rw [queryBody_eq, if_neg (by omega), List.drop_drop]
      simp only [Except.ok.injEq, Prod.mk.injEq, exists_eq_left',
        drop_eq_drop_iff (show 8 + 4 ≤ buf.length by omega)
          (show (declaredLength buf).toNat ≤ buf.length by omega)]
      omega

def compFrame : Buffer := [9, 0, 0, 0, 0x63, 0x6f, 0x6d, 0x70, 1, 2]

theorem compFrame_consumed :
    ∃ out, Service.compare.onMessage compFrame =
      .ok (out, compFrame.drop (declaredLength compFrame).toNat) := by
  have flag : frameFlag compFrame = 0x636f6d70 := by decide
  have complete : CompleteFrame compFrame := ⟨by decide, by decide, by decide, by decide⟩
  refine (onMessage_consumes_iff .compare complete).mpr ?_
  rw [ConsumesWhole, flag]
  exact trivial

def longQuery : Buffer := [16, 0, 0, 0, 0x71, 0x75, 0x72, 0x79, 7, 0, 0, 0, 1, 2, 3, 4]

def unknownFrame : Buffer := [9, 0, 0, 0, 0x78, 0x78, 0x78, 0x78, 5]

/-- The last bytes of both frames stay in the buffer as the next header. -/
theorem frame_split :
    (CompleteFrame longQuery ∧ ¬ ∃ out,
      Service.guest.onMessage longQuery = .ok (out, longQuery.drop 16)) ∧
    (CompleteFrame unknownFrame ∧ ¬ ∃ out,
      Service.compare.onMessage unknownFrame = .ok (out, unknownFrame.drop 9)) := by
  have query : Service.guest.onMessage longQuery = .ok (some (.query 7), [1, 2, 3, 4]) := by
    decide +kernel
  have unknown : Service.compare.onMessage unknownFrame = .ok (none, [5]) := by
    decide
  refine ⟨⟨⟨by decide, by decide, by decide, by decide⟩, ?_⟩,
    ⟨by decide, by decide, by decide, by decide⟩, ?_⟩
  · rintro ⟨out, h⟩
    rw [query] at h
    simp [longQuery] at h
  · rintro ⟨out, h⟩
    rw [unknown] at h
    simp [unknownFrame] at h

end ARCServer.CodecSafety

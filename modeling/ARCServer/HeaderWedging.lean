import ARCServer.CodecSafety

/-! Which headers keep a connection waiting for ever. The declared length is an `int32_t`
and is compared with a `size_t`, so a negative length is larger than any buffer. -/

namespace ARCServer.HeaderWedging

open MachineIntegers DataRefinement FrameCodec FrameStream CodecSafety

variable {service : Service} {buf : Buffer}

def takeFrame (service : Service) (len : Int) : Buffered (Option Request) := do
  retrieve kHeaderLen
  let flag_be32 ← loadInt32
  let flag := networkToHost32 flag_be32
  retrieve kHeaderLen
  service.dispatch len flag

structure TakesBytes (service : Service) (buf : Buffer) : Prop where
  entered : service.onMessage buf = takeFrame service (declaredLength buf) buf
  shorter : ∀ out rest, service.onMessage buf = .ok (out, rest) → rest.length < buf.length

/-- Once enough bytes are readable the next call takes some, whatever they are. A
`std::vector<char>` holds fewer than 2^63. -/
def NeverWedges (service : Service) (buf : Buffer) : Prop :=
  ∃ B < 2147483648, ∀ more : Buffer, B ≤ (buf ++ more).length →
    (buf ++ more).length < 9223372036854775808 → TakesBytes service (buf ++ more)

def WaitsForEver (service : Service) (buf : Buffer) : Prop :=
  ∀ more : Buffer, (buf ++ more).length < 9223372036854775808 →
    service.onMessage (buf ++ more) = .ok (none, buf ++ more)

theorem declaredLength_append (long : 4 ≤ buf.length) (more : Buffer) :
    declaredLength (buf ++ more) = declaredLength buf := by
  match buf, long with
  | b0 :: b1 :: b2 :: b3 :: rest, _ => rfl

theorem takesBytes_of_received (readable : 4 < buf.length)
    (received : toSizeT (declaredLength buf) ≤ buf.length) : TakesBytes service buf where
  entered := by
    have counted : readableBytes buf = .ok (buf.length, buf) := rfl
    rw [Service.onMessage_eq, Operations.onFrame, takeFrame, kHeaderLen]
    simp only [queueOperations]
    rw [bind_ok counted, if_pos readable, bind_ok (loadInt32_ok readable.le), bind_ok counted,
      if_pos received]
  shorter := by
    intro out rest h
    rw [onMessage_eq, if_neg (by omega)] at h
    split_ifs at h with cut
    have left : (buf.drop 8).length < buf.length := by
      rw [List.length_drop]
      omega
    cases layout : service.layout (frameFlag buf) with
    | none =>
      rw [layout] at h
      cases h
      exact left
    | some body =>
      rw [layout] at h
      exact (consumes_body body _ _ _ _ h).length_le.trans_lt left

theorem onMessage_of_negative (neg : declaredLength buf < 0)
    (small : buf.length < 9223372036854775808) : service.onMessage buf = .ok (none, buf) := by
  rw [onMessage_eq, if_pos (Or.inr ?_)]
  exact lt_toSizeT_of_neg (declaredLength_isInt32 buf) neg small

theorem waitsForEver_of_negative (long : 4 ≤ buf.length) (neg : declaredLength buf < 0) :
    WaitsForEver service buf := by
  intro more small
  exact onMessage_of_negative (by rw [declaredLength_append long]; exact neg) small

/-- `len` bytes and one more than the header suffice. -/
theorem neverWedges_of_nonneg (long : 4 ≤ buf.length) (nonneg : 0 ≤ declaredLength buf) :
    NeverWedges service buf := by
  have range := declaredLength_isInt32 buf
  refine ⟨max 5 (declaredLength buf).toNat, ?_, fun more enough _ => ?_⟩
  · have upper := range.2
    omega
  · have same := declaredLength_append long more
    refine takesBytes_of_received (by omega) ?_
    rw [same, toSizeT_of_nonneg range nonneg]
    omega

theorem not_neverWedges_of_waits (small : buf.length < 9223372036854775808)
    (waits : WaitsForEver service buf) : ¬ NeverWedges service buf := by
  rintro ⟨B, bound, takes⟩
  let more : Buffer := List.replicate (B - buf.length) 0
  have size : (buf ++ more).length = max B buf.length := by
    rw [List.length_append, List.length_replicate]
    omega
  have fits : (buf ++ more).length < 9223372036854775808 := by omega
  have shorter := (takes more (by omega) fits).shorter none (buf ++ more) (waits more fits)
  exact Nat.lt_irrefl _ shorter

/-- The headers that do not wedge a connection are those that are not negative. -/
theorem neverWedges_iff (service : Service) {buf : Buffer} (long : 5 ≤ buf.length)
    (small : buf.length < 9223372036854775808) :
    NeverWedges service buf ∧ ¬ WaitsForEver service buf ↔ 0 ≤ declaredLength buf := by
  constructor
  · rintro ⟨-, moves⟩
    by_contra neg
    exact moves (waitsForEver_of_negative (by omega) (not_le.mp neg))
  · intro nonneg
    have never : NeverWedges service buf := neverWedges_of_nonneg (by omega) nonneg
    exact ⟨never, fun waits => not_neverWedges_of_waits small waits never⟩

theorem neverWedges_five : 0 ≤ declaredLength [5, 0, 0, 0, 0x63] ∧
    NeverWedges .compare [5, 0, 0, 0, 0x63] ∧ ¬ WaitsForEver .compare [5, 0, 0, 0, 0x63] :=
  ⟨by decide, (neverWedges_iff .compare (by decide) (by decide)).mpr (by decide)⟩

/-- Nothing is ever taken after the length -1. -/
theorem minus_one_wedges :
    ¬ NeverWedges .compare [0xff, 0xff, 0xff, 0xff, 0x63] ∧
      WaitsForEver .compare [0xff, 0xff, 0xff, 0xff, 0x63] ∧
      ¬ NeverWedges .guest [0xff, 0xff, 0xff, 0xff, 0x61] ∧
      WaitsForEver .guest [0xff, 0xff, 0xff, 0xff, 0x61] := by
  have compare : WaitsForEver .compare [0xff, 0xff, 0xff, 0xff, 0x63] :=
    waitsForEver_of_negative (by decide) (by decide)
  have guest : WaitsForEver .guest [0xff, 0xff, 0xff, 0xff, 0x61] :=
    waitsForEver_of_negative (by decide) (by decide)
  exact ⟨not_neverWedges_of_waits (by decide) compare, compare,
    not_neverWedges_of_waits (by decide) guest, guest⟩

theorem onMessage_front {front rest : Buffer} (neg : declaredLength (front ++ rest) < 0)
    (small : front.length < 9223372036854775808) :
    service.onMessage front = .ok (none, front) := by
  by_cases short : front.length ≤ 4
  · rw [onMessage_eq, if_pos (Or.inl short)]
  · rw [declaredLength_append (by omega)] at neg
    exact onMessage_of_negative neg small

theorem run_front {reads : List (List Byte)} {rest : Buffer}
    (neg : declaredLength (reads.flatten ++ rest) < 0)
    (small : reads.flatten.length < 9223372036854775808) :
    run service.onMessage reads = .ok ⟨reads.flatten, []⟩ := by
  induction reads using List.reverseRecOn generalizing rest with
  | nil => rfl
  | append_singleton reads last ih =>
    have flat : (reads ++ [last]).flatten = reads.flatten ++ last := by simp
    rw [flat] at neg small ⊢
    have before : run service.onMessage reads = .ok ⟨reads.flatten, []⟩ := by
      rw [List.append_assoc] at neg
      refine ih neg ?_
      rw [List.length_append] at small
      omega
    rw [run_concat, before, Except.bind, receive, onMessage_front neg small]
    rfl

theorem run_of_negative (service : Service) (client : ClientStream)
    (neg : declaredLength client.reads.flatten < 0) :
    run service.onMessage client.reads = .ok ⟨client.reads.flatten, []⟩ := by
  rw [← List.append_nil client.reads.flatten] at neg
  exact run_front neg client.fits

end ARCServer.HeaderWedging

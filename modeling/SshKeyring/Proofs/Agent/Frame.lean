import SshKeyring.Agent.Frame
import SshKeyring.Proofs.Wire

/-! Frames and the front of a buffer. The first frame is cut off once it is there as a whole and not
before; nothing that follows it changes what is cut off. A count that is too large is refused
however little of its message is there. -/

namespace SshKeyring.Frame

open Wire

theorem lt_countLimit {n : Nat} (h : n ≤ maxLength) : n < countLimit :=
  Nat.lt_of_le_of_lt h (by decide)

/-- The frame of a request holds its message. -/
theorem encode_eq_ok_iff {r : Request} {frame : Bytes} : encode r = .ok frame ↔
    ∃ body, r.encode = .ok body ∧ body.length < countLimit ∧ frame = stringBytes body := by
  unfold encode
  rw [mapError_eq_ok, bind_eq_ok]
  simp only [wrap, putString_eq_ok_iff]

/-! ### The count -/

theorem announced?_append {count : Bytes} (h : count.length = 4) (rest : Bytes) :
    announced? (count ++ rest) = some (Bytes.toNat count) := by
  match count, h with
  | [_, _, _, _], _ => rfl

theorem announced?_of_short {b : Bytes} (h : b.length < 4) : announced? b = none := by
  match b, h with
  | [], _ => rfl
  | [_], _ => rfl
  | [_, _], _ => rfl
  | [_, _, _], _ => rfl

theorem announced?_eq_none_iff {buffer : Bytes} : announced? buffer = none ↔ buffer.length < 4 := by
  refine ⟨fun h => ?_, announced?_of_short⟩
  match buffer, h with
  | [], _ => decide
  | [_], _ => simp
  | [_, _], _ => simp
  | [_, _, _], _ => simp

theorem toNat_count {n : Nat} (h : n < countLimit) :
    Bytes.toNat (putWord (UInt32.ofNat n)) = n := by
  rw [toNat_putWord, toNat_ofNat_count h]

theorem announced?_count {n : Nat} (h : n < countLimit) (rest : Bytes) :
    announced? (putWord (UInt32.ofNat n) ++ rest) = some n := by
  rw [announced?_append (length_putWord _), toNat_count h]

theorem exists_of_announced? {buffer : Bytes} {n : Nat} (h : announced? buffer = some n) :
    ∃ count rest : Bytes, buffer = count ++ rest ∧ count.length = 4 ∧ Bytes.toNat count = n := by
  match buffer, h with
  | a :: b :: c :: d :: rest, h => exact ⟨[a, b, c, d], rest, rfl, rfl, Option.some.inj h⟩

/-- A count that is there stays, whatever comes in behind it. -/
theorem announced?_append_of_some {buffer : Bytes} {n : Nat} (h : announced? buffer = some n)
    (more : Bytes) : announced? (buffer ++ more) = some n := by
  obtain ⟨count, rest, rfl, hcount, rfl⟩ := exists_of_announced? h
  rw [List.append_assoc, announced?_append hcount]

/-! ### The first frame -/

/-- A complete frame is cut off, whatever follows it. -/
theorem cut?_append {body : Bytes} (h : body.length < countLimit) (rest : Bytes) :
    cut? (stringBytes body ++ rest) = some (body, rest) := by
  have inside : (stringBytes body ++ rest).drop 4 = body ++ rest := by
    rw [stringBytes, List.append_assoc]
    exact List.drop_left' (length_putWord _)
  unfold cut?
  rw [inside, stringBytes, List.append_assoc, announced?_count h]
  simp

/-- What is cut off is the frame of a message. -/
theorem cut?_eq_some_iff {buffer body rest : Bytes} :
    cut? buffer = some (body, rest) ↔
      body.length < countLimit ∧ buffer = stringBytes body ++ rest := by
  constructor
  · intro h
    obtain ⟨n, hn, h⟩ := Option.bind_eq_some_iff.1 h
    obtain ⟨count, inside, rfl, hcount, rfl⟩ := exists_of_announced? hn
    rw [List.drop_left' hcount] at h
    dsimp only at h
    split at h
    · next hlen =>
      obtain ⟨rfl, rfl⟩ := Prod.mk.inj (Option.some.inj h)
      have hlt := Bytes.toNat_lt count
      rw [hcount] at hlt
      refine ⟨by rwa [hlen], ?_⟩
      rw [stringBytes, hlen, putWord_toNat hcount, List.append_assoc, List.take_append_drop]
    · cases h
  · rintro ⟨hl, rfl⟩
    exact cut?_append hl rest

theorem cut?_eq_none_iff {buffer : Bytes} {n : Nat} (h : announced? buffer = some n) :
    cut? buffer = none ↔ buffer.length < 4 + n := by
  obtain ⟨count, inside, rfl, hcount, rfl⟩ := exists_of_announced? h
  unfold cut?
  rw [h, List.drop_left' hcount]
  change (if (inside.take (Bytes.toNat count)).length = Bytes.toNat count then _ else none) = none ↔
    _
  rw [List.length_take, List.length_append, hcount]
  split
  · simp only [reduceCtorEq, false_iff]
    omega
  · simp only [true_iff]
    omega

/-- The first frame of a buffer is not complete: its count is not all there yet, or it is not too
large and some of the bytes that it counts are missing. -/
def Incomplete (buffer : Bytes) : Prop :=
  buffer.length < 4 ∨
    ∃ n, announced? buffer = some n ∧ n ≤ maxLength ∧ buffer.length < 4 + n

/-- The front of a frame without its end is short of its count or has that and part of its
message. -/
theorem shape_of_prefix {front body : Bytes} (h : front <+: stringBytes body)
    (hpart : front ≠ stringBytes body) :
    front.length < 4 ∨
      ∃ part, front = putWord (UInt32.ofNat body.length) ++ part ∧ part.length < body.length := by
  obtain hshort | hlong := Nat.lt_or_ge front.length 4
  · exact .inl hshort
  have hcount : putWord (UInt32.ofNat body.length) <+: front :=
    List.prefix_of_prefix_length_le (List.prefix_append _ _) h (by rwa [length_putWord])
  obtain ⟨part, rfl⟩ := hcount
  have hbody : part <+: body := (List.prefix_append_right_inj _).1 h
  refine .inr ⟨part, rfl, Nat.lt_of_le_of_ne hbody.length_le fun hlen => hpart ?_⟩
  rw [hbody.eq_of_length hlen, stringBytes]

/-- A frame that is not there to its end is not complete. -/
theorem incomplete_of_front {front body : Bytes} (hl : body.length ≤ maxLength)
    (h : front <+: stringBytes body) (hpart : front ≠ stringBytes body) : Incomplete front := by
  obtain hshort | ⟨part, rfl, hlt⟩ := shape_of_prefix h hpart
  · exact .inl hshort
  · refine .inr ⟨body.length, announced?_count (lt_countLimit hl) part, hl, ?_⟩
    rw [List.length_append, length_putWord]
    omega

theorem split_append {body : Bytes} (h : body.length ≤ maxLength) (rest : Bytes) :
    split (stringBytes body ++ rest) = .ok (some (body, rest)) := by
  have count : announced? (stringBytes body ++ rest) = some body.length := by
    rw [stringBytes, List.append_assoc, announced?_count (lt_countLimit h)]
  rw [split, count]
  dsimp only
  rw [if_neg (Nat.not_lt.2 h), cut?_append (lt_countLimit h)]

theorem split_eq_some_iff {buffer body rest : Bytes} :
    split buffer = .ok (some (body, rest)) ↔
      body.length ≤ maxLength ∧ buffer = stringBytes body ++ rest := by
  constructor
  · intro h
    unfold split at h
    split at h
    · next n hn =>
      split at h
      · cases h
      · next hmax =>
        obtain ⟨hl, rfl⟩ := cut?_eq_some_iff.1 (Except.ok.inj h)
        rw [stringBytes, List.append_assoc, announced?_count hl] at hn
        obtain rfl := Option.some.inj hn
        exact ⟨Nat.not_lt.1 hmax, rfl⟩
    · cases h
  · rintro ⟨hl, rfl⟩
    exact split_append hl rest

theorem split_eq_none_iff {buffer : Bytes} : split buffer = .ok none ↔ Incomplete buffer := by
  unfold split Incomplete
  split
  · next n hn =>
    have long : ¬ buffer.length < 4 := by
      rw [← announced?_eq_none_iff, hn]
      exact Option.some_ne_none n
    by_cases hmax : n > maxLength
    · simp only [if_pos hmax, reduceCtorEq, false_iff, not_or, not_exists]
      refine ⟨long, ?_⟩
      rintro m ⟨hm, hle, -⟩
      obtain rfl := Option.some.inj (hn.symm.trans hm)
      omega
    · rw [if_neg hmax, Except.ok.injEq, cut?_eq_none_iff hn]
      constructor
      · exact fun h => .inr ⟨n, hn, Nat.not_lt.1 hmax, h⟩
      · rintro (h | ⟨m, hm, -, h⟩)
        · exact absurd h long
        · rwa [← Option.some.inj (hn.symm.trans hm)] at h
  · next hn => simp [announced?_eq_none_iff.1 hn]

theorem split_append_of_error {buffer : Bytes} {e : WireError} (h : split buffer = .error e)
    (more : Bytes) : split (buffer ++ more) = .error e := by
  unfold split at h ⊢
  split at h
  · next n hn =>
    split at h
    · next hmax =>
      rw [announced?_append_of_some hn]
      dsimp only
      rw [if_pos hmax, h]
    · cases h
  · cases h

/-! ### Decoding -/

theorem perform_decode (buffer : Bytes) :
    decode.perform buffer =
      match split buffer with
      | .error e => (.error (.protocol (.wire e)), buffer)
      | .ok none => (.ok none, buffer)
      | .ok (some (body, rest)) =>
        (((Response.decode body).mapError AgentError.protocol).map some, rest) := by
  unfold decode
  rw [Steps.perform_bind, Steps.perform_get]
  dsimp only
  rcases split buffer with e | _ | ⟨body, rest⟩
  · rfl
  · rfl
  · dsimp only
    rw [Steps.perform_bind]
    cases Response.decode body <;> rfl

theorem perform_decode_of_frame {body : Bytes} (hl : body.length ≤ maxLength) (rest : Bytes) :
    decode.perform (stringBytes body ++ rest) =
      (((Response.decode body).mapError AgentError.protocol).map some, rest) := by
  rw [perform_decode, split_append hl]

theorem perform_decode_of_prefix {front body : Bytes} (hl : body.length ≤ maxLength)
    (h : front <+: stringBytes body) (hpart : front ≠ stringBytes body) :
    decode.perform front = (.ok none, front) := by
  rw [perform_decode, split_eq_none_iff.2 (incomplete_of_front hl h hpart)]

/-- Nothing is taken out of a buffer while its first frame is not complete. -/
theorem incomplete_of_decode {buffer left : Bytes} (h : decode.perform buffer = (.ok none, left)) :
    left = buffer ∧ Incomplete buffer := by
  rw [perform_decode] at h
  split at h
  · cases h
  · next hsplit =>
    cases h
    exact ⟨rfl, split_eq_none_iff.1 hsplit⟩
  · next body rest hsplit => cases hbody : Response.decode body <;> simp [hbody, Except.map] at h

/-- The message that is taken out is that of the first frame. -/
theorem frame_of_decode {buffer left : Bytes} {a : Response}
    (h : decode.perform buffer = (.ok (some a), left)) :
    ∃ body : Bytes, body.length ≤ maxLength ∧ buffer = stringBytes body ++ left ∧
      Response.decode body = .ok a := by
  rw [perform_decode] at h
  split at h
  · cases h
  · cases h
  · next body rest hsplit =>
    obtain ⟨hl, rfl⟩ := split_eq_some_iff.1 hsplit
    obtain ⟨hresult, rfl⟩ := Prod.mk.inj h
    obtain ⟨b, hb, hsome⟩ := map_eq_ok.1 hresult
    obtain rfl := Option.some.inj hsome
    exact ⟨body, hl, rfl, mapError_eq_ok.1 hb⟩

/-- A message or a fault that is there stays the same, whatever comes in behind it. -/
theorem perform_decode_append {buffer left : Bytes} {result : Except AgentError (Option Response)}
    (h : decode.perform buffer = (result, left)) (hresult : result ≠ .ok none) (more : Bytes) :
    decode.perform (buffer ++ more) = (result, left ++ more) := by
  rw [perform_decode] at h ⊢
  split at h
  · next e hsplit =>
    rw [split_append_of_error hsplit]
    cases h
    rfl
  · cases h
    exact absurd rfl hresult
  · next body rest hsplit =>
    obtain ⟨hl, rfl⟩ := split_eq_some_iff.1 hsplit
    rw [List.append_assoc, split_append hl]
    cases h
    rfl

end SshKeyring.Frame

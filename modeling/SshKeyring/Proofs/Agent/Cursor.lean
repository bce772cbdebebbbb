import SshKeyring.Agent.Cursor
import SshKeyring.Proofs.Agent.Stream
import SshKeyring.Proofs.Wire

/-! What calls on a cursor do. A read gets its bytes where the data is there, and is cut short where
the stream ends before that. A flush hands a front of what is pending to the stream and drops the
rest; nothing else that is written reaches the stream. -/

namespace SshKeyring.Cursor

open Wire

/-! ### Reading -/

theorem perform_read (task : CursorTask) (n : Nat) (c : Cursor) :
    (read task n).perform c =
      ((Stream.collect n [] c.stream.reads).1.mapError (.whileReading task),
        { c with stream.reads := (Stream.collect n [] c.stream.reads).2 }) := rfl

theorem perform_readString (c : Cursor) :
    readString.perform c =
      match Stream.collect 4 [] c.stream.reads with
      | (.error e, reads) =>
        (.error (.whileReading .readingU32 e), { c with stream.reads := reads })
      | (.ok count, reads) =>
        if Bytes.toNat count > Frame.maxLength then
          (.error (.tooLong (Bytes.toNat count)), { c with stream.reads := reads })
        else (readBytes (Bytes.toNat count)).perform { c with stream.reads := reads } := by
  unfold readString readU32
  rw [Steps.perform_bind, Steps.perform_bind, perform_read]
  rcases Stream.collect 4 [] c.stream.reads with ⟨_ | count, reads⟩
  · rfl
  · by_cases h : Bytes.toNat count > Frame.maxLength
    · simp only [mapError_ok, Steps.perform_pure, if_pos h]
      rfl
    · simp only [mapError_ok, Steps.perform_pure, if_neg h]

/-- Reading a string touches nothing but what is to be read. -/
theorem readString_snd (c : Cursor) :
    ∃ reads, (readString.perform c).2 = { c with stream.reads := reads } := by
  rw [perform_readString]
  split
  · exact ⟨_, rfl⟩
  · split
    · exact ⟨_, rfl⟩
    · exact ⟨_, rfl⟩

theorem readString_fst_eq_ok {c : Cursor} {body : Bytes} (h : (readString.perform c).1 = .ok body) :
    body.length ≤ Frame.maxLength ∧
      Stream.Reads c.stream.reads (stringBytes body) (readString.perform c).2.stream.reads := by
  rw [perform_readString] at h ⊢
  split at h
  · cases h
  · next count reads hcount =>
    obtain ⟨bytes, hlen, rfl, hfront⟩ := Stream.reads_of_collect hcount
    split at h
    · cases h
    · next hmax =>
      rw [if_neg hmax]
      obtain ⟨_, hn, rfl, hback⟩ := Stream.reads_of_collect (Prod.ext (mapError_eq_ok.1 h) rfl)
      refine ⟨Nat.not_lt.1 (hn ▸ hmax), ?_⟩
      rw [stringBytes, hn, putWord_toNat hlen]
      exact hfront.trans hback

/-- A read gets its bytes from a stream that brings them before its end. -/
theorem perform_read_of_reads (task : CursorTask) {b rest : Bytes} {c : Cursor}
    (h : Stream.Reads c.stream.reads (b ++ rest) []) :
    ∃ reads, (read task b.length).perform c = (.ok b, { c with stream.reads := reads }) ∧
      Stream.Reads reads rest [] := by
  obtain ⟨reads, hc, hr⟩ := Stream.collect_of_reads [] h
    (show b.length ≤ (b ++ rest).length by simp)
  rw [List.take_left] at hc
  rw [List.drop_left] at hr
  refine ⟨reads, ?_, hr⟩
  rw [perform_read, hc]
  rfl

theorem perform_read_number (task : CursorTask) {width n : Nat} (hn : n < 256 ^ width)
    {rest : Bytes} {c : Cursor}
    (h : Stream.Reads c.stream.reads (Bytes.ofNat width n ++ rest) []) :
    ∃ reads, (do return Bytes.toNat (← read task width) : Task Nat).perform c =
        (.ok n, { c with stream.reads := reads }) ∧ Stream.Reads reads rest [] := by
  obtain ⟨reads, hc, hr⟩ := perform_read_of_reads task h
  rw [Bytes.length_ofNat] at hc
  have number := Steps.perform_bind_pure_of_ok hc Bytes.toNat
  rw [Bytes.toNat_ofNat, Nat.mod_eq_of_lt hn] at number
  exact ⟨reads, number, hr⟩

theorem perform_readString_of_reads {b rest : Bytes} (hb : b.length ≤ Frame.maxLength)
    {c : Cursor} (h : Stream.Reads c.stream.reads (stringBytes b ++ rest) []) :
    ∃ reads, readString.perform c = (.ok b, { c with stream.reads := reads }) ∧
      Stream.Reads reads rest [] := by
  have fits : b.length < countLimit := Nat.lt_of_le_of_lt hb (by decide)
  rw [stringBytes, putWord, toNat_ofNat_count fits, List.append_assoc] at h
  obtain ⟨between, count, h⟩ := perform_read_number .readingU32 fits h
  obtain ⟨reads, bytes, h⟩ :=
    perform_read_of_reads (c := { c with stream.reads := between }) .readingBytes h
  refine ⟨reads, ?_, h⟩
  unfold readString readU32
  rw [Steps.perform_bind, count]
  simp only [if_neg (Nat.not_lt.2 hb)]
  exact bytes

/-- At the end of a stream a read is cut short. -/
theorem perform_read_of_end (task : CursorTask) {n : Nat} (hn : 0 < n) {c : Cursor}
    (h : Stream.Reads c.stream.reads [] []) :
    ((read task n).perform c).1 = .error (.truncated task) := by
  rw [perform_read, Stream.collect_of_short [] h hn]
  rfl

/-- The first four bytes of what comes in are the count of a string that is on its way. -/
theorem toNat_of_reads {b count : Bytes} {events later : List ReadEvent} (hb : b.length < countLimit)
    (hcount : Stream.Reads events count later) (hlen : count.length = 4)
    (h : Stream.heard events <+: stringBytes b) : Bytes.toNat count = b.length := by
  obtain ⟨rest, hrest⟩ := h
  rw [hcount.heard_eq, stringBytes, List.append_assoc] at hrest
  obtain ⟨rfl, -⟩ := List.append_inj hrest (by rw [hlen, length_putWord])
  rw [toNat_putWord, toNat_ofNat_count hb]

/-- Reading from a stream that does not end fails for another reason than its end. -/
theorem exists_fault_of_read {task : CursorTask} {n : Nat} {c : Cursor} {e : CursorError}
    (hlasts : Stream.Lasts c.stream.reads) (h : ((read task n).perform c).1 = .error e) :
    ∃ fault, e = .whileReading task fault ∧ fault.kind ≠ .unexpectedEof := by
  obtain ⟨claims, -⟩ := hlasts.collect n []
  rw [perform_read] at h
  dsimp only at h
  cases hbytes : (Stream.collect n [] c.stream.reads).1 with
  | ok bytes =>
    rw [hbytes] at h
    cases h
  | error fault =>
    rw [hbytes] at h
    cases h
    exact ⟨fault, rfl, claims fault hbytes⟩

theorem lasts_readString {c : Cursor} (hlasts : Stream.Lasts c.stream.reads) :
    Stream.Lasts (readString.perform c).2.stream.reads := by
  obtain ⟨-, lasts⟩ := hlasts.collect 4 []
  rw [perform_readString]
  generalize Stream.collect 4 [] c.stream.reads = counted at lasts
  obtain ⟨fault | count, reads⟩ := counted
  · exact lasts
  · dsimp only
    split
    · exact lasts
    · exact (Stream.Lasts.collect lasts _ []).2

/-- Where no more than a string comes in, and the stream does not end, the string is read and
nothing is left, or the stream has failed. -/
theorem readString_of_heard {c : Cursor} {b : Bytes} (hb : b.length ≤ Frame.maxLength)
    (hlasts : Stream.Lasts c.stream.reads) (h : Stream.heard c.stream.reads <+: stringBytes b) :
    ((readString.perform c).1 = .ok b ∧ Stream.heard c.stream.reads = stringBytes b ∧
        Stream.heard (readString.perform c).2.stream.reads = []) ∨
      ∃ task fault, (readString.perform c).1 = .error (.whileReading task fault) ∧
        fault.kind ≠ .unexpectedEof := by
  have fits : b.length < countLimit := Nat.lt_of_le_of_lt hb (by decide)
  cases hread : (readString.perform c).1 with
  | ok got =>
    obtain ⟨hgot, reads⟩ := readString_fst_eq_ok hread
    have heard := reads.heard_eq
    obtain ⟨rest, hrest⟩ := h
    rw [heard, List.append_assoc, ← List.append_nil (stringBytes b),
      stringBytes_append_inj (Nat.lt_of_le_of_lt hgot (by decide)) fits] at hrest
    obtain ⟨rfl, left⟩ := hrest
    have nothing := (List.append_eq_nil_iff.1 left).1
    exact .inl ⟨rfl, by rw [heard, nothing, List.append_nil], nothing⟩
  | error e =>
    refine .inr ?_
    obtain ⟨claims, lasts⟩ := hlasts.collect 4 []
    rw [perform_readString] at hread
    rcases hcount : Stream.collect 4 [] c.stream.reads with ⟨fault | count, reads⟩
    · rw [hcount] at hread claims
      cases hread
      exact ⟨_, fault, rfl, claims fault rfl⟩
    · obtain ⟨_, hlen, rfl, hfront⟩ := Stream.reads_of_collect hcount
      rw [hcount] at hread lasts
      dsimp only at hread
      -- the count is that of the string, so it is not too large
      rw [toNat_of_reads fits hfront hlen h, if_neg (Nat.not_lt.2 hb)] at hread
      obtain ⟨fault, rfl, hkind⟩ := exists_fault_of_read lasts hread
      exact ⟨_, fault, rfl, hkind⟩

/-! ### Writing -/

theorem perform_writeString (b : Bytes) (c : Cursor) :
    (writeString b).perform c =
      if b.length < countLimit then (.ok (), { c with pending := c.pending ++ stringBytes b })
      else (.error (.tooLong b.length), c) := by
  unfold writeString
  by_cases h : b.length < countLimit
  · rw [if_neg (by omega), if_pos h, stringBytes, putWord, toNat_ofNat_count h,
      ← List.append_assoc]
    rfl
  · rw [if_pos (by omega), if_neg h]
    rfl

theorem perform_flush (c : Cursor) :
    flush.perform c =
      match c.stream.send policy c.pending with
      | (w, s) =>
        match w.fault with
        | some e => (.error (.whileWriting e), { stream := s, pending := [] })
        | none =>
          ((Stream.flush.perform s).1.mapError .whileWriting,
            { stream := (Stream.flush.perform s).2, pending := [] }) := by
  unfold flush
  simp only [Steps.perform_bind, Steps.perform_get]
  cases (c.stream.send policy c.pending).1.fault <;> rfl

/-- After a flush nothing is pending, and the stream has had what was pending sent to it. -/
theorem flush_snd (c : Cursor) :
    ∃ flushes, (flush.perform c).2 =
      { stream := { (c.stream.send policy c.pending).2 with flushes }, pending := [] } := by
  rw [perform_flush]
  dsimp only
  split
  · exact ⟨_, rfl⟩
  · rw [Stream.perform_flush]
    exact ⟨_, rfl⟩

theorem fault_of_flush {c : Cursor} (h : (flush.perform c).1 = .ok ()) :
    (c.stream.send policy c.pending).1.fault = none := by
  rw [perform_flush] at h
  dsimp only at h
  split at h
  · cases h
  · assumption

end SshKeyring.Cursor

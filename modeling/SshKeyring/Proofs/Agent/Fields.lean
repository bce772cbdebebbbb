import SshKeyring.Proofs.Agent.Cursor

/-! Fields that are written through a cursor and read through another. Each flush sends a front of
what was written since the last one, all of it if it reports no fault, and drops what is left of it,
so a byte goes out once or not at all. Where the stream takes every byte in the end, the fields
written before the last flush are what it has taken, and they are read back from it as long as they
fit, in whatever pieces they arrive. -/

namespace SshKeyring.Cursor

open Wire

inductive Field
  | u8 (n : Nat)
  | u16 (n : Nat)
  | u32 (n : Nat)
  | bytes (b : Bytes)
  | string (b : Bytes)
  deriving DecidableEq

namespace Field

def write : Field → Task Unit
  | .u8 n => writeU8 n
  | .u16 n => writeU16 n
  | .u32 n => writeU32 n
  | .bytes b => writeBytes b
  | .string b => writeString b

def wire : Field → Bytes
  | .u8 n => Bytes.ofNat 1 n
  | .u16 n => Bytes.ofNat 2 n
  | .u32 n => Bytes.ofNat 4 n
  | .bytes b => b
  | .string b => stringBytes b

/-- A number that its width holds, or a string that readers take. -/
def Fits : Field → Prop
  | .u8 n => n < 256 ^ 1
  | .u16 n => n < 256 ^ 2
  | .u32 n => n < 256 ^ 4
  | .bytes _ => True
  | .string b => b.length ≤ Frame.maxLength

end Field

/-- What a reader knows of a field before it reads it. -/
inductive Kind
  | u8
  | u16
  | u32
  | bytes (length : Nat)
  | string
  deriving DecidableEq

def Field.kind : Field → Kind
  | .u8 _ => .u8
  | .u16 _ => .u16
  | .u32 _ => .u32
  | .bytes b => .bytes b.length
  | .string _ => .string

namespace Kind

def read : Kind → Task Field
  | .u8 => do return .u8 (← readU8)
  | .u16 => do return .u16 (← readU16)
  | .u32 => do return .u32 (← readU32)
  | .bytes length => do return .bytes (← readBytes length)
  | .string => do return .string (← readString)

/-- What the first read of a field is for. -/
def task : Kind → CursorTask
  | .u8 => .readingU8
  | .u16 => .readingU16
  | .u32 => .readingU32
  | .bytes _ => .readingBytes
  | .string => .readingU32

end Kind

inductive Call
  | write (f : Field)
  | flush
  deriving DecidableEq

def Call.task : Call → Task Unit
  | .write f => f.write
  | .flush => Cursor.flush

/-- The cursor after some calls over a stream, whatever came of them. -/
def after (stream : Stream) (calls : List Call) : Cursor :=
  (Steps.performAll (calls.map Call.task) { stream }).2

/-! ### What each flush sends -/

/-- A field is written behind what is pending, unless it is a string too long to be counted. -/
theorem perform_write (f : Field) (c : Cursor) :
    f.write.perform c = (.ok (), { c with pending := c.pending ++ f.wire }) ∨
      ∃ b, f = .string b ∧ countLimit ≤ b.length ∧
        f.write.perform c = (.error (.tooLong b.length), c) := by
  cases f with
  | string b =>
    simp only [Field.write, perform_writeString]
    by_cases h : b.length < countLimit
    · exact .inl (if_pos h)
    · exact .inr ⟨b, rfl, Nat.not_lt.1 h, if_neg h⟩
  | _ => exact .inl rfl

/-- A flush sends a front of what is pending, and drops what it does not send. -/
theorem perform_flush_part (c : Cursor) :
    ∃ part, part <+: c.pending ∧ ((flush.perform c).1 = .ok () → part = c.pending) ∧
      (flush.perform c).2.stream.taken = c.stream.taken ++ part ∧
      (flush.perform c).2.pending = [] := by
  obtain ⟨part, front, whole, taken⟩ := Stream.exists_taken_of_send policy c.pending c.stream
  obtain ⟨flushes, after⟩ := flush_snd c
  rw [after]
  exact ⟨part, front, fun h => whole (fault_of_flush h), taken, rfl⟩

/-- What goes out at a call with its result, and the queue behind the call: at a flush a front of the
queue, all of it if the flush reports no fault, and at a write nothing. A flush leaves no queue. -/
inductive Sends (queue : Bytes) : Call → Except CursorError Unit → Bytes → Bytes → Prop
  | written (f : Field) : Sends queue (.write f) (.ok ()) [] (queue ++ f.wire)
  | refused (f : Field) (e : CursorError) : Sends queue (.write f) (.error e) [] queue
  | flushed {part : Bytes} {result : Except CursorError Unit} (front : part <+: queue)
    (whole : result = .ok () → part = queue) : Sends queue .flush result part []

/-- What goes out during some calls with their results, one part for each. -/
inductive Delivers : Bytes → List Call → List (Except CursorError Unit) → List Bytes → Prop
  | done (queue : Bytes) : Delivers queue [] [] []
  | call {queue part later : Bytes} {call : Call} {result : Except CursorError Unit}
    {calls : List Call} {results : List (Except CursorError Unit)} {parts : List Bytes}
    (first : Sends queue call result part later) (rest : Delivers later calls results parts) :
    Delivers queue (call :: calls) (result :: results) (part :: parts)

theorem sends_perform (call : Call) (c : Cursor) :
    ∃ part, Sends c.pending call (call.task.perform c).1 part (call.task.perform c).2.pending ∧
      (call.task.perform c).2.stream.taken = c.stream.taken ++ part := by
  cases call with
  | write f =>
    refine ⟨[], ?_⟩
    rw [Call.task]
    obtain h | ⟨b, -, -, h⟩ := perform_write f c
    · rw [h]
      exact ⟨.written f, (List.append_nil _).symm⟩
    · rw [h]
      exact ⟨.refused f _, (List.append_nil _).symm⟩
  | flush =>
    obtain ⟨part, front, whole, taken, none⟩ := perform_flush_part c
    rw [Call.task, none]
    exact ⟨part, .flushed front whole, taken⟩

/-- The queue of a cursor is what it has pending. -/
theorem delivers_performAll (calls : List Call) (c : Cursor) :
    ∃ parts, Delivers c.pending calls (Steps.performAll (calls.map Call.task) c).1 parts ∧
      ∀ n, (Steps.performAll ((calls.take n).map Call.task) c).2.stream.taken =
        c.stream.taken ++ (parts.take n).flatten := by
  induction calls generalizing c with
  | nil => exact ⟨[], .done _, fun n => by simp [Steps.performAll]⟩
  | cons call calls ih =>
    obtain ⟨part, first, taken⟩ := sends_perform call c
    obtain ⟨parts, rest, later⟩ := ih (call.task.perform c).2
    refine ⟨part :: parts, .call first rest, fun n => ?_⟩
    cases n with
    | zero => simp [Steps.performAll]
    | succ n =>
      refine (later n).trans ?_
      rw [taken, List.take_succ_cons, List.flatten_cons, List.append_assoc]

/-- Whatever the stream does, after any of the calls it has taken the parts that the flushes until
then have sent, in their order, and nothing else. -/
theorem delivers_after (stream : Stream) (calls : List Call) :
    ∃ parts, Delivers [] calls (Steps.performAll (calls.map Call.task) { stream }).1 parts ∧
      ∀ n, (after stream (calls.take n)).stream.taken =
        stream.taken ++ (parts.take n).flatten :=
  delivers_performAll calls { stream }

example :
    (after { writes := [.accept 2, .accept 0] }
      [.write (.bytes [1, 2, 3]), .flush, .write (.u8 4), .flush]).stream.taken = [1, 2, 4] := by
  decide +kernel

/-! ### Reading fields back -/

/-- The fields that are written before the last of the calls that is a flush, behind those of the
queue; all of them if the last call is one. -/
def flushed : List Field → List Call → List Field
  | _, [] => []
  | queue, .write f :: calls => flushed (queue ++ [f]) calls
  | queue, .flush :: calls => queue ++ flushed [] calls

theorem mem_flushed {queue : List Field} {calls : List Call} {f : Field}
    (h : f ∈ flushed queue calls) : f ∈ queue ∨ Call.write f ∈ calls := by
  fun_induction flushed queue calls with
  | case1 => cases h
  | case2 queue g calls ih =>
    obtain h | h := ih h
    · obtain h | h := List.mem_append.1 h
      · exact .inl h
      · exact .inr (by simp [List.mem_singleton.1 h])
    · exact .inr (List.mem_cons_of_mem _ h)
  | case3 queue calls ih =>
    obtain h | h := List.mem_append.1 h
    · exact .inl h
    · obtain h | h := ih h
      · cases h
      · exact .inr (List.mem_cons_of_mem _ h)

theorem perform_write_of_fits {f : Field} (h : f.Fits) (c : Cursor) :
    f.write.perform c = (.ok (), { c with pending := c.pending ++ f.wire }) := by
  obtain hw | ⟨b, rfl, hb, -⟩ := perform_write f c
  · exact hw
  · have long : Frame.maxLength < b.length := Nat.lt_of_lt_of_le (by decide) hb
    exact absurd h (Nat.not_le.2 long)

/-- Over a stream that takes every byte in the end, a flush sends all that is pending. -/
theorem taken_flush {c : Cursor} (h : ∀ e ∈ c.stream.writes, Stream.GoesOn policy e) :
    (flush.perform c).2.stream.taken = c.stream.taken ++ c.pending ∧
      (flush.perform c).2.pending = [] ∧
      ∀ e ∈ (flush.perform c).2.stream.writes, Stream.GoesOn policy e := by
  obtain ⟨none, later⟩ := Stream.fault_of_goesOn [] c.pending h
  obtain ⟨flushes, after⟩ := flush_snd c
  rw [after]
  exact ⟨Stream.taken_of_send none, rfl, fun e he => h e (later e he)⟩

theorem taken_performAll {calls : List Call} {c : Cursor} (queue : List Field)
    (hw : ∀ e ∈ c.stream.writes, Stream.GoesOn policy e)
    (hf : ∀ f, Call.write f ∈ calls → f.Fits) (hq : c.pending = queue.flatMap Field.wire) :
    (Steps.performAll (calls.map Call.task) c).2.stream.taken =
      c.stream.taken ++ (flushed queue calls).flatMap Field.wire := by
  -- at each call, what is pending is what was written of the fields since the last flush
  induction calls generalizing c queue with
  | nil => simp [Steps.performAll, flushed]
  | cons call calls ih =>
    have fits : ∀ f, Call.write f ∈ calls → f.Fits := fun f h => hf f (List.mem_cons_of_mem _ h)
    rw [List.map_cons, Steps.performAll]
    cases call with
    | write f =>
      rw [Call.task, perform_write_of_fits (hf f List.mem_cons_self)]
      exact ih (queue ++ [f]) hw fits (by simp [hq])
    | flush =>
      obtain ⟨taken, pending, writes⟩ := taken_flush hw
      refine (ih [] writes fits pending).trans ?_
      change (flush.perform c).2.stream.taken ++ _ = _
      rw [taken, hq, flushed, List.flatMap_append, List.append_assoc]

/-- A field that fits is read by its kind from a stream that brings what was written of it. -/
theorem perform_read_of_fits {f : Field} (hf : f.Fits) {rest : Bytes} {c : Cursor}
    (h : Stream.Reads c.stream.reads (f.wire ++ rest) []) :
    ∃ reads, f.kind.read.perform c = (.ok f, { c with stream.reads := reads }) ∧
      Stream.Reads reads rest [] := by
  cases f with
  | u8 n =>
    obtain ⟨reads, hc, hr⟩ := perform_read_number .readingU8 hf h
    exact ⟨reads, Steps.perform_bind_pure_of_ok hc _, hr⟩
  | u16 n =>
    obtain ⟨reads, hc, hr⟩ := perform_read_number .readingU16 hf h
    exact ⟨reads, Steps.perform_bind_pure_of_ok hc _, hr⟩
  | u32 n =>
    obtain ⟨reads, hc, hr⟩ := perform_read_number .readingU32 hf h
    exact ⟨reads, Steps.perform_bind_pure_of_ok hc _, hr⟩
  | bytes b =>
    obtain ⟨reads, hc, hr⟩ := perform_read_of_reads .readingBytes h
    exact ⟨reads, Steps.perform_bind_pure_of_ok hc _, hr⟩
  | string b =>
    obtain ⟨reads, hc, hr⟩ := perform_readString_of_reads hf h
    exact ⟨reads, Steps.perform_bind_pure_of_ok hc _, hr⟩

theorem performAll_read {fields : List Field} (hf : ∀ f ∈ fields, f.Fits) {c : Cursor}
    (h : Stream.Reads c.stream.reads (fields.flatMap Field.wire) []) :
    ∃ c', Steps.performAll (fields.map (·.kind.read)) c = (fields.map .ok, c') ∧
      Stream.Reads c'.stream.reads [] [] := by
  induction fields generalizing c with
  | nil => exact ⟨c, rfl, h⟩
  | cons f fields ih =>
    obtain ⟨reads, first, h⟩ := perform_read_of_fits (hf f List.mem_cons_self) h
    obtain ⟨c', others, h⟩ := ih (c := { c with stream.reads := reads })
      (fun g hg => hf g (List.mem_cons_of_mem _ hg)) h
    refine ⟨c', ?_, h⟩
    rw [List.map_cons, Steps.performAll, first]
    simp only [others, List.map_cons]

/-- At the end of a stream no field is read, unless it is one of no bytes. -/
theorem perform_read_kind_of_end {kind : Kind} (hk : kind ≠ .bytes 0) {c : Cursor}
    (h : Stream.Reads c.stream.reads [] []) :
    (kind.read.perform c).1 = .error (.truncated kind.task) := by
  have first (task : CursorTask) {n : Nat} (hn : 0 < n) :
      ((read task n).perform c).1 = .error (.truncated task) := perform_read_of_end task hn h
  cases kind with
  | u8 => exact Steps.perform_bind_of_error (Steps.perform_bind_of_error (first _ (by decide)) _) _
  | u16 => exact Steps.perform_bind_of_error (Steps.perform_bind_of_error (first _ (by decide)) _) _
  | u32 => exact Steps.perform_bind_of_error (Steps.perform_bind_of_error (first _ (by decide)) _) _
  | bytes n =>
    have some : 0 < n := Nat.pos_of_ne_zero fun none => hk (by rw [none])
    exact Steps.perform_bind_of_error (first _ some) _
  | string =>
    have count : (readU32.perform c).1 = .error (.truncated .readingU32) :=
      Steps.perform_bind_of_error (first _ (by decide)) _
    exact Steps.perform_bind_of_error (Steps.perform_bind_of_error count _) _

/-- The fields written before the last flush are read back, by their kinds, from the bytes that a
stream has taken, as long as its writes take something or are interrupted; it may bring them in any
pieces and with interruptions. Behind them it is at its end. -/
theorem read_flushed (reader : Cursor) {stream : Stream} {calls : List Call} {bytes : Bytes}
    (hw : ∀ e ∈ stream.writes, Stream.GoesOn policy e)
    (hf : ∀ f, Call.write f ∈ calls → f.Fits)
    (ht : (after stream calls).stream.taken = stream.taken ++ bytes)
    (hr : Stream.Reads reader.stream.reads bytes []) :
    ∃ later, Steps.performAll ((flushed [] calls).map (·.kind.read)) reader =
        ((flushed [] calls).map .ok, later) ∧
      ∀ kind : Kind, kind ≠ .bytes 0 →
        (kind.read.perform later).1 = .error (.truncated kind.task) := by
  have wire : bytes = (flushed [] calls).flatMap Field.wire :=
    List.append_cancel_left (ht.symm.trans (taken_performAll [] hw hf rfl))
  have fits : ∀ f ∈ flushed [] calls, f.Fits := fun f h =>
    hf f ((mem_flushed h).resolve_left List.not_mem_nil)
  obtain ⟨later, all, ended⟩ := performAll_read fits (wire ▸ hr)
  exact ⟨later, all, fun kind hk => perform_read_kind_of_end hk ended⟩

def interrupted : IoError := { kind := .interrupted, text := "again" }

/-- A stream that is interrupted at its first write and at its first flush, and takes one byte at
first. -/
def reluctant : Stream where
  writes := [.fail interrupted, .accept 1]
  flushes := [some interrupted]

/-- A number in two bytes, a string and no bytes, and then a byte that is not sent. -/
def shortCalls : List Call :=
  [.write (.u16 0x102), .flush, .write (.string [7, 8]), .write (.bytes []), .flush, .write (.u8 9)]

/-- What it sends, in pieces. -/
def inPieces : Stream where
  reads := [.data [1], .fail interrupted, .data [2, 0, 0], .data [0, 2, 7], .data [8],
    .fail interrupted]

theorem shortCalls_read_back : (after reluctant shortCalls).stream.taken = [1, 2, 0, 0, 0, 2, 7, 8] ∧
    ∃ later, Steps.performAll [Kind.u16.read, Kind.string.read, (Kind.bytes 0).read]
        { stream := inPieces } = ([.ok (.u16 0x102), .ok (.string [7, 8]), .ok (.bytes [])], later) ∧
      (Kind.u8.read.perform later).1 = .error (.truncated .readingU8) := by
  have taken : (after reluctant shortCalls).stream.taken = [1, 2, 0, 0, 0, 2, 7, 8] := by
    decide +kernel
  have goesOn : ∀ e ∈ reluctant.writes, Stream.GoesOn policy e := by
    simp [reluctant, Stream.GoesOn, policy, interrupted]
  have fits : ∀ f, Call.write f ∈ shortCalls → f.Fits := by
    simp [shortCalls, Field.Fits, Frame.maxLength]
  have reads : Stream.Reads inPieces.reads [1, 2, 0, 0, 0, 2, 7, 8] [] :=
    .data [1] (.again rfl (.data [2, 0, 0] (.data [0, 2, 7] (.data [8] (.again rfl (.stop []))))))
  obtain ⟨later, all, ended⟩ := read_flushed { stream := inPieces } goesOn fits taken reads
  exact ⟨taken, later, all, ended .u8 (by decide)⟩

end SshKeyring.Cursor

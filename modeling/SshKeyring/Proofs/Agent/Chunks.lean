import SshKeyring.Proofs.Agent.Frame

/-! Frames out of a buffer that data comes into chunk by chunk. Each time a chunk has come in, the
messages that are there are taken out, until the next one is not complete or fails. More data behind
a complete frame, or behind a count that is too large, changes nothing about it, so it makes no
difference where the chunks are cut: not to the messages, not to the fault that ends them, and not
to the part of a frame that is left. -/

namespace SshKeyring.Frame

open Wire

/-! ### Taking the messages out -/

/-- What taking the messages out of a buffer gives: the messages, the fault that kept the next one
from being taken if there was one, and what is left. -/
structure Drained where
  answers : List Response := []
  fault : Option AgentError := none
  left : Bytes

/-- Puts messages that were taken out earlier in front. -/
def Drained.behind (earlier : List Response) (d : Drained) : Drained :=
  { d with answers := earlier ++ d.answers }

theorem length_lt_of_decode {buffer left : Bytes} {a : Response}
    (h : decode.perform buffer = (.ok (some a), left)) : left.length < buffer.length := by
  obtain ⟨body, -, rfl, -⟩ := frame_of_decode h
  rw [List.length_append, length_stringBytes, stringSize]
  omega

/-- Decodes until the buffer gives no message or decoding fails. -/
def drain (buffer : Bytes) : Drained :=
  match h : decode.perform buffer with
  | (.ok none, left) => { left }
  | (.error e, left) => { fault := some e, left }
  | (.ok (some a), left) =>
    have := length_lt_of_decode h
    (drain left).behind [a]
termination_by buffer.length

theorem drain_of_none {buffer left : Bytes} (h : decode.perform buffer = (.ok none, left)) :
    drain buffer = { left } := by
  rw [drain]
  split <;> simp_all

theorem drain_of_error {buffer left : Bytes} {e : AgentError}
    (h : decode.perform buffer = (.error e, left)) : drain buffer = { fault := some e, left } := by
  rw [drain]
  split <;> simp_all

theorem drain_of_some {buffer left : Bytes} {a : Response}
    (h : decode.perform buffer = (.ok (some a), left)) :
    drain buffer = (drain left).behind [a] := by
  rw [drain]
  split <;> simp_all

/-- The messages that are taken out are those of the frames at the front; what is behind them does
not give a message. -/
theorem exists_of_drain (buffer : Bytes) :
    ∃ (bodies : List Bytes) (rest : Bytes), buffer = bodies.flatMap stringBytes ++ rest ∧
      (∀ body ∈ bodies, body.length ≤ maxLength) ∧
      bodies.map Response.decode = (drain buffer).answers.map .ok ∧
      decode.perform rest = ((drain buffer).fault.elim (.ok none) .error, (drain buffer).left) := by
  fun_induction drain buffer with
  | case1 buffer left h => exact ⟨[], buffer, rfl, by simp, rfl, h⟩
  | case2 buffer e left h => exact ⟨[], buffer, rfl, by simp, rfl, h⟩
  | case3 buffer a left h _ ih =>
    obtain ⟨body, hl, rfl, hbody⟩ := frame_of_decode h
    obtain ⟨bodies, rest, hleft, hlengths, hbodies, hrest⟩ := ih
    refine ⟨body :: bodies, rest, ?_, by simpa using ⟨hl, hlengths⟩, ?_, hrest⟩
    · rw [List.flatMap_cons, List.append_assoc, ← hleft]
    · rw [List.map_cons, hbody, hbodies]
      rfl

/-! ### Chunk by chunk -/

namespace Drained

/-- Goes on with what is left, unless there was a fault. -/
def andThen (d : Drained) (next : Bytes → Drained) : Drained :=
  match d.fault with
  | some _ => d
  | none => (next d.left).behind d.answers

/-- The same messages and the same fault, and the same bytes left if there is none. -/
structure Agrees (d d' : Drained) : Prop where
  answers : d.answers = d'.answers
  fault : d.fault = d'.fault
  left : d'.fault = none → d.left = d'.left

theorem Agrees.refl (d : Drained) : d.Agrees d := ⟨rfl, rfl, fun _ => rfl⟩

theorem Agrees.trans {d e f : Drained} (h : d.Agrees e) (h' : e.Agrees f) : d.Agrees f :=
  ⟨h.answers.trans h'.answers, h.fault.trans h'.fault,
    fun hf => (h.left (h'.fault.trans hf)).trans (h'.left hf)⟩

theorem Agrees.symm {d e : Drained} (h : d.Agrees e) : e.Agrees d :=
  ⟨h.answers.symm, h.fault.symm, fun hd => (h.left (h.fault.symm.trans hd)).symm⟩

theorem Agrees.behind {d e : Drained} (h : d.Agrees e) (earlier : List Response) :
    (d.behind earlier).Agrees (e.behind earlier) :=
  ⟨congrArg (earlier ++ ·) h.answers, h.fault, h.left⟩

theorem Agrees.andThen (d : Drained) {next next' : Bytes → Drained}
    (h : d.fault = none → (next d.left).Agrees (next' d.left)) :
    (d.andThen next).Agrees (d.andThen next') := by
  unfold Drained.andThen
  split
  · exact .refl d
  · next hd => exact (h hd).behind _

theorem behind_andThen (earlier : List Response) (d : Drained) (next : Bytes → Drained) :
    (d.behind earlier).andThen next = (d.andThen next).behind earlier := by
  obtain ⟨answers, fault, left⟩ := d
  cases fault with
  | some e => rfl
  | none => simp only [andThen, behind, List.append_assoc]

end Drained

/-- Puts the chunks into the buffer one by one and takes the messages out after each, up to the
first fault. -/
def feed : List Bytes → Bytes → Drained
  | [], buffer => { left := buffer }
  | chunk :: chunks, buffer => (drain (buffer ++ chunk)).andThen (feed chunks)

/-- What comes in behind a buffer waits for the rest of the buffer to be looked at. -/
theorem drain_append (buffer more : Bytes) :
    (drain (buffer ++ more)).Agrees ((drain buffer).andThen fun left => drain (left ++ more)) := by
  fun_induction drain buffer with
  | case1 buffer left h =>
    obtain ⟨rfl, -⟩ := incomplete_of_decode h
    exact .refl _
  | case2 buffer e left h =>
    rw [drain_of_error (perform_decode_append h (by simp) more)]
    exact ⟨rfl, rfl, by simp [Drained.andThen]⟩
  | case3 buffer a left h _ ih =>
    rw [drain_of_some (perform_decode_append h (by simp) more), Drained.behind_andThen]
    exact ih.behind [a]

theorem drain_left {buffer : Bytes} (h : (drain buffer).fault = none) :
    drain (drain buffer).left = { left := (drain buffer).left } := by
  obtain ⟨-, rest, -, -, -, hrest⟩ := exists_of_drain buffer
  rw [h] at hrest
  obtain ⟨hleft, -⟩ := incomplete_of_decode hrest
  rw [← hleft] at hrest
  exact drain_of_none hrest

theorem feed_agrees (chunks : List Bytes) {buffer : Bytes} (h : drain buffer = { left := buffer }) :
    (feed chunks buffer).Agrees (drain (buffer ++ chunks.flatten)) := by
  induction chunks generalizing buffer with
  | nil =>
    rw [List.flatten_nil, List.append_nil, h]
    exact .refl _
  | cons chunk chunks ih =>
    rw [List.flatten_cons, ← List.append_assoc]
    exact (Drained.Agrees.andThen _ fun hd => ih (drain_left hd)).trans (drain_append _ _).symm

/-- However the data is cut, its chunks one by one give the messages and the fault that it gives at
once. If there is no fault, what is left is the same too: the messages are those of complete frames,
and all that is behind these is left, which is less than a frame. -/
theorem feed_chunks (chunks : List Bytes) :
    (feed chunks []).answers = (drain chunks.flatten).answers ∧
      (feed chunks []).fault = (drain chunks.flatten).fault ∧
      ((drain chunks.flatten).fault = none →
        (feed chunks []).left = (drain chunks.flatten).left ∧
          Incomplete (drain chunks.flatten).left ∧
          ∃ bodies : List Bytes, (∀ body ∈ bodies, body.length ≤ maxLength) ∧
            bodies.map Response.decode = (drain chunks.flatten).answers.map .ok ∧
            chunks.flatten = bodies.flatMap stringBytes ++ (drain chunks.flatten).left) := by
  have agrees : (feed chunks []).Agrees (drain chunks.flatten) :=
    feed_agrees chunks (drain_of_none rfl)
  refine ⟨agrees.answers, agrees.fault, fun hnone => ⟨agrees.left hnone, ?_⟩⟩
  obtain ⟨bodies, rest, hall, hlengths, hbodies, hrest⟩ := exists_of_drain chunks.flatten
  rw [hnone] at hrest
  obtain ⟨hleft, incomplete⟩ := incomplete_of_decode hrest
  rw [hleft]
  exact ⟨incomplete, bodies, hlengths, hbodies, hall⟩

end SshKeyring.Frame

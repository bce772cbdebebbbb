import SshKeyring.Agent.Stream

/-! What calls on a stream take from it and give to it. A read that gets its bytes has passed over
data and interruptions only; where the data is there, in whatever pieces, it gets them, and where
too little comes before a silence or the end it does not. Writes take a front of what they are
given, and all of it if none of them fails. -/

namespace SshKeyring

/-- Whether the stream is to blame: it has failed, or was silent for too long. -/
def AgentError.blamesStream : AgentError → Bool
  | .timeout => true
  | .io _ => true
  | _ => false

/-- A read fails as if the stream had ended. -/
def ReadEvent.claimsEnd : ReadEvent → Bool
  | .fail e => e.kind = .unexpectedEof
  | _ => false

namespace Stream

/-! ### Reading -/

/-- Reading that goes well from some events to others, and the bytes it brings: those of data, the
last of it perhaps not to its end. Interrupted reads are passed over. -/
inductive Reads : List ReadEvent → Bytes → List ReadEvent → Prop
  | stop (events : List ReadEvent) : Reads events [] events
  | data {events later : List ReadEvent} {bytes : Bytes} (b : Bytes)
    (h : Reads events bytes later) : Reads (.data b :: events) (b ++ bytes) later
  | part (b left : Bytes) (events : List ReadEvent) :
    Reads (.data (b ++ left) :: events) b (.data left :: events)
  | again {events later : List ReadEvent} {bytes : Bytes} {e : IoError} (he : e.kind = .interrupted)
    (h : Reads events bytes later) : Reads (.fail e :: events) bytes later

theorem Reads.trans {first second third : List ReadEvent} {a b : Bytes} (h : Reads first a second)
    (h' : Reads second b third) : Reads first (a ++ b) third := by
  induction h with
  | stop events => exact h'
  | data c _ ih =>
    rw [List.append_assoc]
    exact .data c (ih h')
  | part c left events =>
    cases h' with
    | stop =>
      rw [List.append_nil]
      exact .part c left events
    | data _ h' =>
      rw [← List.append_assoc]
      exact .data _ h'
    | part _ left =>
      rw [← List.append_assoc]
      exact .part _ left events
  | again he _ ih => exact .again he (ih h')

/-- A read that gets its bytes gets as many as it wants, from the events that it passes over. -/
theorem reads_of_collect {n : Nat} {done : List Bytes} {events later : List ReadEvent} {b : Bytes}
    (h : collect n done events = (.ok b, later)) :
    ∃ bytes, bytes.length = n ∧ b = done.reverse.flatten ++ bytes ∧ Reads events bytes later := by
  fun_induction collect n done events with
  | case1 done events =>
    cases h
    exact ⟨[], rfl, by simp, .stop _⟩
  | case2 => cases h
  | case3 => cases h
  | case4 n done events e he ih =>
    obtain ⟨bytes, hn, hb, hr⟩ := ih h
    exact ⟨bytes, hn, hb, .again he hr⟩
  | case5 => cases h
  | case6 n done c events hc ih =>
    obtain ⟨bytes, hn, hb, hr⟩ := ih h
    refine ⟨c ++ bytes, by simp only [List.length_append]; omega, ?_, .data c hr⟩
    simpa using hb
  | case7 n done c events hc =>
    cases h
    refine ⟨c.take (n + 1), by simp only [List.length_take]; omega, by simp, ?_⟩
    have cut := Reads.part (c.take (n + 1)) (c.drop (n + 1)) events
    rwa [List.take_append_drop] at cut

/-- Where only data and interruptions come before the end of a stream, a read gets its bytes as long
as there are so many. -/
theorem collect_of_reads {n : Nat} (done : List Bytes) {events : List ReadEvent} {bytes : Bytes}
    (h : Reads events bytes []) (hn : n ≤ bytes.length) :
    ∃ later, collect n done events = (.ok (done.reverse.flatten ++ bytes.take n), later) ∧
      Reads later (bytes.drop n) [] := by
  -- each event brings its bytes in one way only, so the cases are those of the reader
  fun_induction collect n done events generalizing bytes with
  | case1 done events => exact ⟨events, by simp, h⟩
  | case2 =>
    cases h
    exact absurd hn (Nat.not_succ_le_zero _)
  | case3 => cases h
  | case4 n done events e he ih =>
    cases h with
    | again _ h => exact ih h hn
  | case5 n done events e he =>
    cases h with
    | again again _ => exact absurd again he
  | case6 n done b events hb ih =>
    cases h with
    | data _ h =>
      rw [List.length_append] at hn
      obtain ⟨later, hc, hr⟩ := ih h (by omega)
      refine ⟨later, ?_, ?_⟩
      · rw [hc, List.take_append, List.take_of_length_le hb]
        simp
      · rwa [List.drop_append, List.drop_of_length_le hb, List.nil_append]
  | case7 n done b events hb =>
    cases h with
    | data _ h =>
      have inside : n + 1 ≤ b.length := by omega
      refine ⟨.data (b.drop (n + 1)) :: events, ?_, ?_⟩
      · rw [List.take_append_of_le_length inside]
        simp
      · rw [List.drop_append_of_le_length inside]
        exact .data _ h

/-- Where the stream ends before that, a read fails. -/
theorem collect_of_short {n : Nat} (done : List Bytes) {events : List ReadEvent} {bytes : Bytes}
    (h : Reads events bytes []) (hn : bytes.length < n) :
    (collect n done events).1 = .error endOfData := by
  fun_induction collect n done events generalizing bytes with
  | case1 => exact absurd hn (Nat.not_lt_zero _)
  | case2 => rfl
  | case3 => cases h
  | case4 n done events e he ih =>
    cases h with
    | again _ h => exact ih h hn
  | case5 n done events e he =>
    cases h with
    | again again _ => exact absurd again he
  | case6 n done b events hb ih =>
    cases h with
    | data _ h =>
      rw [List.length_append] at hn
      exact ih h (by omega)
  | case7 n done b events hb =>
    cases h with
    | data _ h =>
      rw [List.length_append] at hn
      omega

/-- Data that comes in pieces. -/
def pieces (bs : List Bytes) : List ReadEvent := bs.map .data

/-- All bytes of data that some events bring. -/
def heard (events : List ReadEvent) : Bytes :=
  events.flatMap fun
    | .data b => b
    | _ => []

@[simp] theorem heard_nil : heard [] = [] := rfl

@[simp] theorem heard_data (b : Bytes) (events : List ReadEvent) :
    heard (.data b :: events) = b ++ heard events := rfl

@[simp] theorem heard_fail (e : IoError) (events : List ReadEvent) :
    heard (.fail e :: events) = heard events := rfl

@[simp] theorem heard_silence (events : List ReadEvent) :
    heard (.silence :: events) = heard events := rfl

@[simp] theorem heard_append (first second : List ReadEvent) :
    heard (first ++ second) = heard first ++ heard second := List.flatMap_append

@[simp] theorem heard_pieces (bs : List Bytes) : heard (pieces bs) = bs.flatten := by
  induction bs with
  | nil => rfl
  | cons b bs ih => exact congrArg (b ++ ·) ih

/-- A read that goes well takes its bytes from the front of all that comes in. -/
theorem Reads.heard_eq {events later : List ReadEvent} {bytes : Bytes}
    (h : Reads events bytes later) : heard events = bytes ++ heard later := by
  induction h with
  | stop => rfl
  | data b _ ih => rw [heard_data, ih, List.append_assoc]
  | part b left events => rw [heard_data, heard_data, List.append_assoc]
  | again _ _ ih => exact ih

/-- The stream does not end: there is silence before its end, and no failure claims that it has
ended. -/
structure Lasts (events : List ReadEvent) : Prop where
  silence : .silence ∈ events
  claims : ∀ event ∈ events, event.claimsEnd = false

theorem Lasts.tail {event : ReadEvent} {events : List ReadEvent} (h : Lasts (event :: events))
    (hevent : event ≠ .silence) : Lasts events where
  silence := (List.mem_cons.1 h.silence).resolve_left hevent.symm
  claims e he := h.claims e (List.mem_cons_of_mem _ he)

/-- A read from a stream that does not end does not find an end, and leaves it so. -/
theorem Lasts.collect {events : List ReadEvent} (h : Lasts events) (n : Nat) (done : List Bytes) :
    (∀ e, (collect n done events).1 = .error e → e.kind ≠ .unexpectedEof) ∧
      Lasts (collect n done events).2 := by
  fun_induction Stream.collect n done events with
  | case1 => exact ⟨nofun, h⟩
  | case2 => exact absurd h.silence List.not_mem_nil
  | case3 => exact ⟨fun e he => by cases he; decide, h⟩
  | case4 n done e events he ih => exact ih (h.tail nofun)
  | case5 n done e events he =>
    refine ⟨fun e' he' => ?_, h.tail nofun⟩
    cases he'
    exact of_decide_eq_false (h.claims (.fail e) List.mem_cons_self)
  | case6 n done b events hb ih => exact ih (h.tail nofun)
  | case7 n done b events hb =>
    have rest := h.tail nofun
    exact ⟨nofun, List.mem_cons_of_mem _ rest.silence, List.forall_mem_cons.2 ⟨rfl, rest.claims⟩⟩

/-- Where the data is there, a read gets its bytes and leaves the others, however it is cut. -/
theorem collect_pieces (n : Nat) (done bs : List Bytes) (events : List ReadEvent)
    (h : n ≤ bs.flatten.length) :
    ∃ left, left.flatten = bs.flatten.drop n ∧
      collect n done (pieces bs ++ events) =
        (.ok (done.reverse.flatten ++ bs.flatten.take n), pieces left ++ events) := by
  induction bs generalizing n done with
  | nil =>
    obtain rfl : n = 0 := by simpa using h
    exact ⟨[], rfl, by simp [collect]⟩
  | cons b bs ih =>
    cases n with
    | zero => exact ⟨b :: bs, rfl, by simp [collect]⟩
    | succ n =>
      rw [List.flatten_cons, List.length_append] at h
      rw [List.flatten_cons, List.take_append, List.drop_append, pieces, List.map_cons,
        List.cons_append, collect]
      by_cases hb : b.length ≤ n + 1
      · obtain ⟨left, hleft, hc⟩ := ih (n + 1 - b.length) (b :: done) (by omega)
        refine ⟨left, by rw [hleft, List.drop_of_length_le hb, List.nil_append], ?_⟩
        rw [if_pos hb, ← pieces, hc, List.take_of_length_le hb]
        simp
      · refine ⟨b.drop (n + 1) :: bs, ?_, ?_⟩
        · rw [show n + 1 - b.length = 0 by omega]
          rfl
        · rw [if_neg hb, show n + 1 - b.length = 0 by omega]
          simp [pieces]

theorem collect_front {front rest : Bytes} {bs : List Bytes} (events : List ReadEvent)
    (h : bs.flatten = front ++ rest) :
    ∃ left, left.flatten = rest ∧
      collect front.length [] (pieces bs ++ events) = (.ok front, pieces left ++ events) := by
  obtain ⟨left, hleft, hc⟩ := collect_pieces front.length [] bs events (by simp [h])
  rw [h, List.drop_left] at hleft
  rw [h, List.take_left] at hc
  exact ⟨left, hleft, hc⟩

/-- Where a silence comes before the data is there, a read fails, and the silence lasts. -/
theorem collect_silence (n : Nat) (done bs : List Bytes) (events : List ReadEvent)
    (h : bs.flatten.length < n) :
    collect n done (pieces bs ++ .silence :: events) = (.error noData, .silence :: events) := by
  induction bs generalizing n done with
  | nil =>
    obtain ⟨n, rfl⟩ := Nat.exists_eq_succ_of_ne_zero (Nat.ne_of_gt h)
    rfl
  | cons b bs ih =>
    rw [List.flatten_cons, List.length_append] at h
    obtain ⟨n, rfl⟩ := Nat.exists_eq_succ_of_ne_zero (show n ≠ 0 by omega)
    rw [pieces, List.map_cons, List.cons_append, collect, if_pos (by omega)]
    exact ih _ _ (by omega)

/-! ### Writing -/

/-- What was taken and what is left are what was to be written. -/
theorem taken_append_left (policy : WritePolicy) (taken : List Bytes) (b : Bytes)
    (events : List WriteEvent) :
    (write policy taken b events).taken.reverse.flatten ++ (write policy taken b events).left =
      taken.reverse.flatten ++ b := by
  fun_induction write policy taken b events with
  | case1 => rfl
  | case2 => simp
  | case3 _ _ _ _ _ _ ih => exact ih
  | case4 => rfl
  | case5 => rfl
  | case6 taken b _ most events _ ih =>
    rw [ih]
    simp

theorem left_of_fault_none {policy : WritePolicy} {taken : List Bytes} {b : Bytes}
    {events : List WriteEvent} (h : (write policy taken b events).fault = none) :
    (write policy taken b events).left = [] := by
  fun_induction write policy taken b events with
  | case1 => rfl
  | case2 => rfl
  | case3 _ _ _ _ _ _ ih => exact ih h
  | case4 => cases h
  | case5 => cases h
  | case6 _ _ _ _ _ _ ih => exact ih h

/-- A front of what was to be written is handed over, and all of it if writing does not fail. -/
theorem exists_taken_of_send (policy : WritePolicy) (b : Bytes) (s : Stream) :
    ∃ part, part <+: b ∧ ((send policy b s).1.fault = none → part = b) ∧
      (send policy b s).2.taken = s.taken ++ part := by
  have all := taken_append_left policy [] b s.writes
  refine ⟨_, ⟨_, all⟩, fun h => ?_, rfl⟩
  rw [left_of_fault_none h, List.append_nil] at all
  exact all

/-- Writing that does not fail hands over everything and nothing else. -/
theorem taken_of_send {policy : WritePolicy} {b : Bytes} {s : Stream}
    (h : (send policy b s).1.fault = none) : (send policy b s).2.taken = s.taken ++ b := by
  obtain ⟨part, -, whole, taken⟩ := exists_taken_of_send policy b s
  rw [taken, whole h]

/-- A flush uses up the next entry of what flushes will do. -/
theorem perform_flush (s : Stream) :
    flush.perform s =
      (match s.flushes.head?.join with
        | some e => .error e
        | none => .ok (), { s with flushes := s.flushes.tail }) := by
  rcases s with ⟨reads, writes, _ | ⟨_ | e, flushes⟩, taken⟩ <;> rfl

/-- A write after which its writer goes on: it takes something, or it is interrupted and the writer
repeats it. -/
def GoesOn (policy : WritePolicy) : WriteEvent → Prop
  | .accept most => 0 < most
  | .fail e => policy.repeats = true ∧ e.kind = .interrupted

theorem fault_of_goesOn {policy : WritePolicy} (taken : List Bytes) (b : Bytes)
    {events : List WriteEvent} (h : ∀ e ∈ events, GoesOn policy e) :
    (write policy taken b events).fault = none ∧
      ∀ e ∈ (write policy taken b events).writes, e ∈ events := by
  fun_induction write policy taken b events with
  | case1 => exact ⟨rfl, fun _ he => he⟩
  | case2 => exact ⟨rfl, fun _ he => he⟩
  | case3 _ _ _ _ _ _ ih =>
    obtain ⟨hf, hw⟩ := ih fun e he => h e (by simp [he])
    exact ⟨hf, fun e he => by simp [hw e he]⟩
  | case4 _ _ _ _ _ stops => exact absurd (h _ List.mem_cons_self) stops
  | case5 => exact absurd (h _ List.mem_cons_self) (Nat.lt_irrefl 0)
  | case6 _ _ _ _ _ _ ih =>
    obtain ⟨hf, hw⟩ := ih fun e he => h e (by simp [he])
    exact ⟨hf, fun e he => by simp [hw e he]⟩

/-! ### Streams on which nothing fails -/

/-- Every write takes something, and every flush works. -/
structure Smooth (s : Stream) : Prop where
  writes : ∀ e ∈ s.writes, ∃ most, 0 < most ∧ e = .accept most
  flushes : ∀ e ∈ s.flushes, e = none

namespace Smooth

variable {s : Stream}

theorem goesOn (h : s.Smooth) (policy : WritePolicy) : ∀ e ∈ s.writes, GoesOn policy e := by
  intro e he
  obtain ⟨most, hmost, rfl⟩ := h.writes e he
  exact hmost

theorem fault_send (h : s.Smooth) (policy : WritePolicy) (b : Bytes) :
    (send policy b s).1.fault = none := (fault_of_goesOn [] b (h.goesOn policy)).1

theorem send (h : s.Smooth) (policy : WritePolicy) (b : Bytes) :
    (send policy b s).2.Smooth where
  writes e he := h.writes e ((fault_of_goesOn [] b (h.goesOn policy)).2 e he)
  flushes := h.flushes

theorem perform_flush (h : s.Smooth) :
    flush.perform s = (.ok (), { s with flushes := s.flushes.tail }) := by
  have next : s.flushes.head?.join = none := by
    cases hf : s.flushes with
    | nil => rfl
    | cons e rest =>
      obtain rfl := h.flushes e (by simp [hf])
      rfl
  rw [Stream.perform_flush, next]

theorem flushed (h : s.Smooth) : Smooth { s with flushes := s.flushes.tail } where
  writes := h.writes
  flushes e he := h.flushes e (List.mem_of_mem_tail he)

end Smooth

end Stream

end SshKeyring

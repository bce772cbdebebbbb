import SshKeyring.Bytes

/-! Readers: each takes a value off the front of a byte string, or says why it cannot. A
reader that succeeds hands back the bytes it left. -/

namespace SshKeyring

/-- What has to go well for two computations in a row. -/
theorem bind_eq_ok {ε α β : Type} {x : Except ε α} {f : α → Except ε β} {b : β} :
    (x >>= f) = .ok b ↔ ∃ a, x = .ok a ∧ f a = .ok b := by
  cases x <;> simp [bind, Except.bind]

@[simp] theorem mapError_ok {ε ε' α : Type} (f : ε → ε') (a : α) :
    (Except.ok a).mapError f = .ok a := rfl

@[simp] theorem mapError_error {ε ε' α : Type} (f : ε → ε') (e : ε) :
    (Except.error e : Except ε α).mapError f = .error (f e) := rfl

theorem mapError_eq_ok {ε ε' α : Type} {f : ε → ε'} {x : Except ε α} {a : α} :
    x.mapError f = .ok a ↔ x = .ok a := by
  cases x <;> simp

theorem map_eq_ok {ε α β : Type} {f : α → β} {x : Except ε α} {b : β} :
    x.map f = .ok b ↔ ∃ a, x = .ok a ∧ f a = b := by
  cases x <;> simp [Except.map]

theorem pure_eq_ok {ε α : Type} {a b : α} : (pure a : Except ε α) = .ok b ↔ a = b := by
  simp [pure, Except.pure]

def Reader (ε α : Type) : Type := Bytes → Except ε (α × Bytes)

namespace Reader

variable {ε ε' α β : Type}

protected def pure (a : α) : Reader ε α := fun input => .ok (a, input)

protected def bind (r : Reader ε α) (f : α → Reader ε β) : Reader ε β := fun input =>
  match r input with
  | .ok (a, rest) => f a rest
  | .error e => .error e

instance : Monad (Reader ε) where
  pure := Reader.pure
  bind := Reader.bind

def fail (e : ε) : Reader ε α := fun _ => .error e

def mapError (f : ε → ε') (r : Reader ε α) : Reader ε' α := fun input => (r input).mapError f

/-- Runs the reader `n` times, after the values in the reversed list `done`. -/
def timesOnto (r : Reader ε α) : Nat → List α → Bytes → Except ε (List α × Bytes)
  | 0, done, input => .ok (done.reverse, input)
  | n + 1, done, input =>
    match r input with
    | .ok (a, rest) => timesOnto r n (a :: done) rest
    | .error e => .error e

def times (n : Nat) (r : Reader ε α) : Reader ε (List α) := timesOnto r n []

/-- The reader's value when it uses every byte; `trailing` names the fault of `n` bytes left
over. -/
def whole (r : Reader ε α) (trailing : Nat → ε) (input : Bytes) : Except ε α :=
  match r input with
  | .ok (a, []) => .ok a
  | .ok (_, rest) => .error (trailing rest.length)
  | .error e => .error e

@[simp] theorem pure_apply (a : α) (input : Bytes) :
    (pure a : Reader ε α) input = .ok (a, input) := rfl

@[simp] theorem fail_apply (e : ε) (input : Bytes) : (fail e : Reader ε α) input = .error e := rfl

theorem bind_apply (r : Reader ε α) (f : α → Reader ε β) (input : Bytes) :
    (r >>= f) input =
      match r input with
      | .ok (a, rest) => f a rest
      | .error e => .error e := rfl

theorem bind_eq_ok_iff (r : Reader ε α) (f : α → Reader ε β) (input : Bytes) (out : β × Bytes) :
    (r >>= f) input = .ok out ↔ ∃ a rest, r input = .ok (a, rest) ∧ f a rest = .ok out := by
  change Reader.bind r f input = .ok out ↔ _
  unfold Reader.bind
  constructor
  · intro h
    split at h
    · exact ⟨_, _, by assumption, h⟩
    · cases h
  · rintro ⟨a, rest, hr, hf⟩
    rw [hr]
    exact hf

theorem whole_eq_ok_iff (r : Reader ε α) (trailing : Nat → ε) (input : Bytes) (a : α) :
    r.whole trailing input = .ok a ↔ r input = .ok (a, []) := by
  unfold whole
  split
  · next h => simp [h]
  · next hrest h => simpa [h] using fun _ => hrest
  · next h => simp [h]

end Reader

end SshKeyring

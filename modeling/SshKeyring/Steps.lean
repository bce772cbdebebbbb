/-! Steps on a state that may stop with an error, and keep what they did to the state when they
do. -/

namespace SshKeyring

abbrev Steps (σ ε α : Type) : Type := ExceptT ε (StateM σ) α

namespace Steps

variable {σ ε α β : Type}

/-- Runs the steps from a state: their result, and the state afterwards. -/
def perform (steps : Steps σ ε α) (s : σ) : Except ε α × σ := (ExceptT.run steps).run s

def ofExcept (x : Except ε α) : Steps σ ε α := ExceptT.mk (pure x)

/-- Performs all, each from the state that the one before it has left, whether that failed or not:
the results, and the state afterwards. -/
def performAll : List (Steps σ ε α) → σ → List (Except ε α) × σ
  | [], s => ([], s)
  | steps :: rest, s =>
    let (result, s) := steps.perform s
    let (results, s) := performAll rest s
    (result :: results, s)

@[simp] theorem perform_pure (a : α) (s : σ) : (pure a : Steps σ ε α).perform s = (.ok a, s) := rfl

@[simp] theorem perform_ofExcept (x : Except ε α) (s : σ) :
    (ofExcept x : Steps σ ε α).perform s = (x, s) := rfl

@[simp] theorem perform_get (s : σ) : (get : Steps σ ε σ).perform s = (.ok s, s) := rfl

@[simp] theorem perform_set (s s' : σ) :
    (set s' : Steps σ ε PUnit).perform s = (.ok ⟨⟩, s') := rfl

@[simp] theorem perform_modify (f : σ → σ) (s : σ) :
    (modify f : Steps σ ε PUnit).perform s = (.ok ⟨⟩, f s) := rfl

/-- What comes second starts from the state that what came first has left. -/
theorem perform_bind (first : Steps σ ε α) (next : α → Steps σ ε β) (s : σ) :
    (first >>= next).perform s =
      match first.perform s with
      | (.ok a, s') => (next a).perform s'
      | (.error e, s') => (.error e, s') := by
  unfold perform ExceptT.run StateT.run
  simp only [bind, ExceptT.bind, ExceptT.mk, StateT.bind]
  rcases first s with ⟨result, s'⟩
  cases result <;> rfl

theorem perform_bind_pure (steps : Steps σ ε α) (f : α → β) (s : σ) :
    (steps >>= fun a => pure (f a)).perform s =
      ((steps.perform s).1.map f, (steps.perform s).2) := by
  rw [perform_bind]
  rcases steps.perform s with ⟨_ | _, _⟩ <;> rfl

theorem perform_bind_pure_of_ok {steps : Steps σ ε α} {s s' : σ} {a : α}
    (h : steps.perform s = (.ok a, s')) (f : α → β) :
    (steps >>= fun a => pure (f a)).perform s = (.ok (f a), s') := by
  rw [perform_bind_pure, h]
  rfl

theorem perform_bind_of_error {first : Steps σ ε α} {s : σ} {e : ε}
    (h : (first.perform s).1 = .error e) (next : α → Steps σ ε β) :
    ((first >>= next).perform s).1 = .error e := by
  rw [perform_bind]
  split
  · next he => simp [he] at h
  · next he => simpa [he] using h

@[simp] theorem perform_observing (steps : Steps σ ε α) (s : σ) :
    (observing steps : Steps σ ε (Except ε α)).perform s =
      (.ok (steps.perform s).1, (steps.perform s).2) := by
  unfold perform ExceptT.run StateT.run
  simp only [observing, tryCatch, tryCatchThe, MonadExceptOf.tryCatch, ExceptT.tryCatch, bind,
    ExceptT.bind, ExceptT.mk, StateT.bind]
  rcases steps s with ⟨_ | _, _⟩ <;> rfl

end Steps

end SshKeyring

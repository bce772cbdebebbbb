/-! The cutting of a list into pieces of one size, of which the last may be shorter. -/

namespace SshKeyring

variable {α : Type}

/-- Puts the pieces of the list after those in the reversed list `done`; `fuel` bounds their
number. -/
def piecesOnto (size : Nat) : (fuel : Nat) → List α → (done : List (List α)) → List (List α)
  | _, [], done => done.reverse
  | 0, _ :: _, done => done.reverse
  | fuel + 1, a :: l, done =>
    piecesOnto size fuel ((a :: l).drop size) ((a :: l).take size :: done)

/-- The pieces of `size` elements, where `size` is not zero. -/
def pieces (size : Nat) (l : List α) : List (List α) := piecesOnto size l.length l []

theorem piecesOnto_eq (size fuel : Nat) (l : List α) (done : List (List α)) :
    piecesOnto size fuel l done = done.reverse ++ piecesOnto size fuel l [] := by
  induction fuel generalizing l done with
  | zero => cases l <;> simp [piecesOnto]
  | succ fuel ih =>
    cases l with
    | nil => simp [piecesOnto]
    | cons a l =>
      rw [piecesOnto, piecesOnto, ih, ih _ [_]]
      simp

theorem piecesOnto_fuel {size : Nat} (h : 0 < size) (fuel : Nat) (l : List α)
    (hf : l.length ≤ fuel) : piecesOnto size fuel l [] = pieces size l := by
  induction fuel using Nat.strongRecOn generalizing l with
  | ind fuel ih =>
    match l, fuel, hf with
    | [], fuel, _ => cases fuel <;> rfl
    | a :: l, fuel + 1, hf =>
      have hl : l.length ≤ fuel := by simpa using hf
      have hd : ((a :: l).drop size).length ≤ l.length := by simp; omega
      rw [pieces, List.length_cons, piecesOnto, piecesOnto, piecesOnto_eq,
        piecesOnto_eq _ l.length, ih fuel (by omega) _ (by omega),
        ih l.length (by omega) _ hd]

@[simp] theorem pieces_nil (size : Nat) : pieces size ([] : List α) = [] := rfl

theorem pieces_of_ne_nil {size : Nat} (h : 0 < size) {l : List α} (hl : l ≠ []) :
    pieces size l = l.take size :: pieces size (l.drop size) := by
  match l, hl with
  | a :: l, _ =>
    have hd : ((a :: l).drop size).length ≤ l.length := by simp; omega
    rw [pieces, List.length_cons, piecesOnto, piecesOnto_eq, piecesOnto_fuel h _ _ hd]
    rfl

theorem pieces_append {size : Nat} (h : 0 < size) {front : List α} (hf : front.length = size)
    (rest : List α) : pieces size (front ++ rest) = front :: pieces size rest := by
  have hn : front ++ rest ≠ [] := by
    rintro e
    rw [(List.append_eq_nil_iff.1 e).1] at hf
    exact Nat.ne_of_lt h hf
  rw [pieces_of_ne_nil h hn, List.take_left' hf, List.drop_left' hf]

theorem flatten_pieces {size : Nat} (h : 0 < size) (l : List α) : (pieces size l).flatten = l := by
  induction hn : l.length using Nat.strongRecOn generalizing l with
  | ind n ih =>
    by_cases hl : l = []
    · simp [hl]
    · have : 0 < l.length := List.length_pos_iff.2 hl
      rw [pieces_of_ne_nil h hl, List.flatten_cons,
        ih (l.drop size).length (by simp; omega) _ rfl, List.take_append_drop]

theorem ne_nil_of_mem_pieces {size : Nat} (h : 0 < size) {l piece : List α}
    (hp : piece ∈ pieces size l) : piece ≠ [] := by
  induction hn : l.length using Nat.strongRecOn generalizing l with
  | ind n ih =>
    by_cases hl : l = []
    · rw [hl] at hp
      exact absurd hp List.not_mem_nil
    · have hpos : 0 < l.length := List.length_pos_iff.2 hl
      rw [pieces_of_ne_nil h hl, List.mem_cons] at hp
      rcases hp with rfl | hp
      · rw [← List.length_pos_iff, List.length_take]
        omega
      · exact ih (l.drop size).length (by simp; omega) hp rfl

end SshKeyring

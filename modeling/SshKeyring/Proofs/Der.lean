import SshKeyring.Der
import SshKeyring.Proofs.Wire

/-! The inputs that are read as a sequence of integers. An element is a tag, its length in one of
several spellings, and its contents; a sequence is read from the integers in front of its contents,
up to as many as are wanted. With fewer than that they fill it. What follows the sequence of a
traditional key makes no difference to it. -/

namespace SshKeyring.Der

/-! ### Lengths -/

theorem byte_eq : byte = Wire.byte.mapError fun _ => .endOfData := by
  funext input
  cases input <;> rfl

theorem contents_eq (n : Nat) : contents n = (Wire.take n).mapError fun _ => .lengthExceedsInput := by
  funext input
  simp only [contents, Reader.mapError, Wire.take]
  split <;> rfl

theorem byte_exact : byte.Exact (fun _ => True) ([·]) := by
  rw [byte_eq]
  exact Wire.byte_exact.mapError _

theorem contents_exact (n : Nat) : (contents n).Exact (fun b => b.length = n) id := by
  rw [contents_eq]
  exact (Wire.take_exact n).mapError _

theorem octets_exact (n : Nat) : (byte.times n).Exact (fun b => b.length = n) id :=
  (byte_exact.times n).congr (fun _ => and_iff_left fun _ _ => trivial)
    fun b _ => List.flatMap_singleton' b

/-- The spellings of a length: one byte below 128, or the number of the bytes that follow, with the
top bit set, and these, which may begin with zeros. -/
inductive LengthField
  | short (n : Fin 0x80)
  | long (octets : Bytes) (pos : 0 < octets.length) (le : octets.length ≤ 4)

namespace LengthField

def value : LengthField → Nat
  | short n => n
  | long octets _ _ => octets.toNat

def bytes : LengthField → Bytes
  | short n => [UInt8.ofNat n]
  | long octets _ _ => UInt8.ofNat (0x80 + octets.length) :: octets

end LengthField

theorem length_takes : length.Takes (fun _ => True) LengthField.bytes LengthField.value := by
  intro input n rest
  rw [length, Reader.bind_eq_ok_iff]
  constructor
  · rintro ⟨first, left, hfirst, h⟩
    obtain ⟨-, rfl⟩ := (byte_exact _ _ _).1 hfirst
    split at h
    · next hlt =>
      cases h
      refine ⟨.short ⟨first.toNat, UInt8.lt_iff_toNat_lt.1 hlt⟩, trivial, rfl, ?_⟩
      rw [LengthField.bytes, UInt8.ofNat_toNat]
    · next hge =>
      have top : 0x80 ≤ first.toNat := UInt8.le_iff_toNat_le.1 (UInt8.not_lt.1 hge)
      simp only [Reader.failIf_eq_ok_iff, Reader.bind_eq_ok_iff] at h
      obtain ⟨hpos, hle, octets, left, ho, h⟩ := h
      obtain ⟨hn, rfl⟩ := (octets_exact _ _ _ _).1 ho
      cases h
      refine ⟨.long octets (by omega) (by omega), trivial, rfl, ?_⟩
      have again : 0x80 + octets.length = first.toNat := by omega
      rw [LengthField.bytes, again, UInt8.ofNat_toNat]
      rfl
  · rintro ⟨field, -, rfl, rfl⟩
    cases field with
    | short n =>
      have value : (UInt8.ofNat n).toNat = n := Nat.mod_eq_of_lt (by omega)
      have small : UInt8.ofNat n < 0x80 := UInt8.lt_iff_toNat_lt.2 (value.symm ▸ n.2)
      refine ⟨_, rest, rfl, ?_⟩
      rw [if_pos small, value]
      rfl
    | long octets pos le =>
      have value : (UInt8.ofNat (0x80 + octets.length)).toNat = 0x80 + octets.length :=
        Nat.mod_eq_of_lt (by omega)
      have large : ¬ UInt8.ofNat (0x80 + octets.length) < 0x80 := by
        rw [UInt8.lt_iff_toNat_lt, value]
        exact Nat.not_lt.2 (Nat.le_add_right _ _)
      refine ⟨_, octets ++ rest, rfl, ?_⟩
      simp only [if_neg large, value, Nat.add_sub_cancel_left, Reader.failIf_eq_ok_iff,
        Reader.bind_eq_ok_iff]
      exact ⟨by omega, by omega, octets, rest, (octets_exact _).read rfl rest, rfl⟩

/-! ### Elements -/

/-- An element as it is written behind its tag. -/
structure Element where
  lengthField : LengthField
  contents : Bytes
  value_eq : lengthField.value = contents.length

def Element.bytes (tag : UInt8) (e : Element) : Bytes :=
  tag :: (e.lengthField.bytes ++ e.contents)

theorem Element.bytes_append (tag : UInt8) (e : Element) (rest : Bytes) :
    e.bytes tag ++ rest = tag :: (e.lengthField.bytes ++ (e.contents ++ rest)) := by
  rw [bytes, List.cons_append, List.append_assoc]

theorem element_takes (tag : UInt8) :
    (element tag).Takes (fun _ => True) (Element.bytes tag) Element.contents := by
  intro input body rest
  rw [element, Reader.bind_eq_ok_iff]
  constructor
  · rintro ⟨first, left, hfirst, h⟩
    obtain ⟨-, rfl⟩ := (byte_exact _ _ _).1 hfirst
    split at h
    · next htag =>
      obtain ⟨n, left, hn, hbody⟩ := (Reader.bind_eq_ok_iff _ _ _ _).1 h
      obtain ⟨field, -, rfl, rfl⟩ := (length_takes _ _ _).1 hn
      obtain ⟨hl, rfl⟩ := (contents_exact _ _ _ _).1 hbody
      obtain rfl := htag
      refine ⟨⟨field, body, hl.symm⟩, trivial, rfl, ?_⟩
      rw [Element.bytes_append]
      rfl
    · cases h
  · rintro ⟨e, -, rfl, rfl⟩
    rw [Element.bytes_append]
    refine ⟨tag, _, rfl, ?_⟩
    rw [if_pos rfl, Reader.bind_eq_ok_iff]
    exact ⟨_, _, length_takes.read trivial _, (contents_exact _).read e.value_eq.symm rest⟩

/-! ### Sequences -/

/-- Integers stand in front of the bytes, `room` of them, or fewer and nothing behind them. -/
structure Holds (room : Nat) (input : Bytes) (ints : List Element) (extra : Bytes) : Prop where
  input_eq : input = ints.flatMap (Element.bytes integerTag) ++ extra
  ne_nil : ∀ i ∈ ints, i.contents ≠ []
  length_le : ints.length ≤ room
  filled : ints.length = room ∨ extra = []

theorem integers_succ {input body rest : Bytes} (h : element integerTag input = .ok (body, rest))
    (room : Nat) : integers (room + 1) input =
      if body = [] then .error .emptyInteger else (integers room rest).map (body :: ·) := by
  cases input with
  | nil => cases h
  | cons tag input =>
    cases body with
    | nil =>
      rw [integers, h, if_pos rfl]
      rintro ⟨⟩
    | cons b body =>
      rw [integers, h, if_neg (List.cons_ne_nil b body)]
      rintro ⟨⟩

theorem exists_holds_of_integers {room : Nat} {input : Bytes} {found : List Bytes}
    (h : integers room input = .ok found) :
    ∃ ints extra, Holds room input ints extra ∧ found = ints.map Element.contents := by
  induction room, input using integers.induct generalizing found with
  | case1 input =>
    cases h
    exact ⟨[], input, ⟨rfl, by simp, Nat.le_refl 0, .inl rfl⟩, rfl⟩
  | case2 room =>
    cases h
    exact ⟨[], [], ⟨rfl, by simp, Nat.zero_le _, .inr rfl⟩, rfl⟩
  | case3 room input ne e he =>
    rw [integers, he] at h
    · cases h
    · exact ne
  | case4 room input _ rest he =>
    rw [integers_succ he, if_pos rfl] at h
    cases h
  | case5 room input _ body rest ne he ih =>
    rw [integers_succ he, if_neg ne] at h
    obtain ⟨later, hlater, rfl⟩ := map_eq_ok.1 h
    obtain ⟨i, -, rfl, rfl⟩ := (element_takes _ _ _ _).1 he
    obtain ⟨ints, extra, ⟨rfl, ne_nil, le, filled⟩, rfl⟩ := ih hlater
    refine ⟨i :: ints, extra, ⟨?_, ?_, Nat.succ_le_succ le, ?_⟩, rfl⟩
    · rw [List.flatMap_cons, List.append_assoc]
    · exact List.forall_mem_cons.2 ⟨ne, ne_nil⟩
    · exact filled.imp_left (congrArg (· + 1))

theorem integers_of_holds {room : Nat} {input extra : Bytes} {ints : List Element}
    (h : Holds room input ints extra) : integers room input = .ok (ints.map Element.contents) := by
  obtain ⟨rfl, ne_nil, le, filled⟩ := h
  induction ints generalizing room with
  | nil =>
    rcases filled with rfl | rfl
    · rfl
    · cases room <;> rfl
  | cons i ints ih =>
    obtain ⟨ne, ne_nil⟩ := List.forall_mem_cons.1 ne_nil
    have first := (element_takes integerTag).read (a := i) trivial
      (ints.flatMap (Element.bytes integerTag) ++ extra)
    match room, le with
    | room + 1, le =>
      have later := ih ne_nil (Nat.le_of_succ_le_succ le) (filled.imp_left Nat.succ.inj)
      rw [List.flatMap_cons, List.append_assoc, integers_succ first, if_neg ne, later]
      rfl

/-- What follows as many elements as there is room for is not looked at, even where one of them is
an integer without a byte. -/
theorem integers_append (ints : List Element) (extra : Bytes) :
    integers ints.length (ints.flatMap (Element.bytes integerTag) ++ extra) =
      integers ints.length (ints.flatMap (Element.bytes integerTag)) := by
  induction ints with
  | nil => rfl
  | cons i ints ih =>
    have first := (element_takes integerTag).read (a := i) trivial
    rw [List.flatMap_cons, List.append_assoc, List.length_cons, integers_succ (first _),
      integers_succ (first _), ih]

theorem integersOf_bytes_append (sequence : Element) (tail : Bytes) (least most : Nat) :
    integersOf (sequence.bytes sequenceTag ++ tail) least most = do
      let found ← integers most sequence.contents
      if found.length < least then throw .tooFewIntegers
      return found := by
  rw [integersOf, (element_takes sequenceTag).read trivial]
  rfl

theorem integersOf_bytes (sequence : Element) (least most : Nat) :
    integersOf (sequence.bytes sequenceTag) least most = do
      let found ← integers most sequence.contents
      if found.length < least then throw .tooFewIntegers
      return found := by
  rw [← integersOf_bytes_append sequence [], List.append_nil]

theorem exists_sequence_of_integersOf {input : Bytes} {least most : Nat} {found : List Bytes}
    (h : integersOf input least most = .ok found) :
    ∃ (sequence : Element) (tail : Bytes), input = sequence.bytes sequenceTag ++ tail ∧
      integers most sequence.contents = .ok found ∧ least ≤ found.length := by
  obtain ⟨⟨_, tail⟩, he, -⟩ := bind_eq_ok.1 h
  obtain ⟨sequence, -, rfl, rfl⟩ := (element_takes _ _ _ _).1 he
  rw [integersOf_bytes_append] at h
  obtain ⟨all, hall, h⟩ := bind_eq_ok.1 h
  by_cases few : all.length < least
  · rw [if_pos few] at h
    cases h
  · rw [if_neg few] at h
    cases h
    exact ⟨sequence, tail, rfl, hall, Nat.not_lt.1 few⟩

/-- What was read is read again whatever follows. -/
theorem integersOf_append {input : Bytes} {least most : Nat} {found : List Bytes}
    (h : integersOf input least most = .ok found) (more : Bytes) :
    integersOf (input ++ more) least most = .ok found := by
  obtain ⟨sequence, tail, rfl, -⟩ := exists_sequence_of_integersOf h
  rw [integersOf_bytes_append] at h
  rw [List.append_assoc, integersOf_bytes_append, h]

/-- The input begins with a sequence of just these integers, each of one byte at least. -/
def Spells (ints : List Bytes) (input : Bytes) : Prop :=
  ∃ (sequence : Element) (elements : List Element) (tail : Bytes),
    input = sequence.bytes sequenceTag ++ tail ∧
      sequence.contents = elements.flatMap (Element.bytes integerTag) ∧
        ints = elements.map Element.contents ∧ ∀ b ∈ ints, b ≠ []

theorem Spells.integersOf_eq {ints : List Bytes} {input : Bytes} (h : Spells ints input)
    {least most : Nat} (enough : least ≤ ints.length) (le : ints.length ≤ most) :
    integersOf input least most = .ok ints := by
  obtain ⟨sequence, elements, tail, rfl, inside, rfl, ne⟩ := h
  have holds : Holds most sequence.contents elements [] := by
    refine ⟨?_, ?_, ?_, .inr rfl⟩
    · rw [inside, List.append_nil]
    · exact fun i hi => ne _ (List.mem_map_of_mem hi)
    · rwa [List.length_map] at le
  rw [integersOf_bytes_append, integers_of_holds holds]
  exact if_neg (Nat.not_lt.2 enough)

/-- Integers are read from an input that begins with a sequence which holds as many of them as are
wanted, or fewer but enough and nothing else. What follows the sequence makes no difference, and
neither does what follows the integers in it once all that are wanted are there. -/
theorem integersOf_eq_ok_iff (input : Bytes) (least most : Nat) (found : List Bytes) :
    (integersOf input least most = .ok found ↔
      ∃ (sequence : Element) (tail : Bytes) (ints : List Element) (extra : Bytes),
        input = sequence.bytes sequenceTag ++ tail ∧ Holds most sequence.contents ints extra ∧
          least ≤ ints.length ∧ found = ints.map Element.contents) ∧
      (∀ (sequence : Element) (tail : Bytes), integersOf (sequence.bytes sequenceTag ++ tail) least
        most = integersOf (sequence.bytes sequenceTag) least most) ∧
      ∀ (sequence sequence' : Element) (ints : List Element) (extra extra' : Bytes),
        ints.length = most →
        sequence.contents = ints.flatMap (Element.bytes integerTag) ++ extra →
        sequence'.contents = ints.flatMap (Element.bytes integerTag) ++ extra' →
          integersOf (sequence.bytes sequenceTag) least most =
            integersOf (sequence'.bytes sequenceTag) least most := by
  refine ⟨⟨?_, ?_⟩, ?_, ?_⟩
  · intro h
    obtain ⟨sequence, tail, rfl, hfound, enough⟩ := exists_sequence_of_integersOf h
    obtain ⟨ints, extra, holds, rfl⟩ := exists_holds_of_integers hfound
    rw [List.length_map] at enough
    exact ⟨sequence, tail, ints, extra, rfl, holds, enough, rfl⟩
  · rintro ⟨sequence, tail, ints, extra, rfl, holds, enough, rfl⟩
    have all : ¬ (ints.map Element.contents).length < least := by
      rw [List.length_map]
      exact Nat.not_lt.2 enough
    rw [integersOf_bytes_append, integers_of_holds holds]
    exact if_neg all
  · intro sequence tail
    rw [integersOf_bytes_append, integersOf_bytes]
  · rintro sequence sequence' ints extra extra' rfl h h'
    rw [integersOf_bytes, integersOf_bytes, h, h', integers_append, integers_append]

end SshKeyring.Der

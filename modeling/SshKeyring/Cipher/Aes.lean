import SshKeyring.Bytes

/-! The AES block cipher on blocks of four columns of four bytes, in both directions. The
substitution box is inversion in the field of 256 elements followed by an affine map, and the
columns are mixed by a matrix over that field. -/

namespace SshKeyring.Aes

/-- Multiplication by the field's generator of the bit representation, modulo
x⁸ + x⁴ + x³ + x + 1. -/
def double (x : UInt8) : UInt8 := (x <<< 1) ^^^ (if x < 0x80 then 0 else 0x1B)

def addIf (c : Bool) (x y : UInt8) : UInt8 := if c then x ^^^ y else y

/-- Multiplication in the field: `n` more bits of `b`, the lowest first. -/
def mulBits : Nat → UInt8 → UInt8 → UInt8
  | 0, _, _ => 0
  | n + 1, a, b => addIf (b &&& 1 = 1) a (mulBits n (double a) (b >>> 1))

def mul (a b : UInt8) : UInt8 := mulBits 8 a b

/-- The inverse of every element but zero, and zero for zero: the 254th power. -/
def inverse (x : UInt8) : UInt8 :=
  let square (y : UInt8) := mul y y
  let x2 := square x
  let x4 := square x2
  let x8 := square x4
  let x16 := square x8
  let x32 := square x16
  let x64 := square x32
  mul x2 (mul x4 (mul x8 (mul x16 (mul x32 (mul x64 (square x64))))))

def rotl (x n : UInt8) : UInt8 := x <<< n ||| x >>> (8 - n)

def affine (x : UInt8) : UInt8 := x ^^^ rotl x 1 ^^^ rotl x 2 ^^^ rotl x 3 ^^^ rotl x 4 ^^^ 0x63

def unaffine (x : UInt8) : UInt8 := rotl x 1 ^^^ rotl x 3 ^^^ rotl x 6 ^^^ 0x05

def subTable : Vector UInt8 256 := Vector.ofFn fun i => affine (inverse (UInt8.ofFin i))

def unsubTable : Vector UInt8 256 := Vector.ofFn fun i => inverse (unaffine (UInt8.ofFin i))

def sub (x : UInt8) : UInt8 := subTable[x.toFin]

def unsub (x : UInt8) : UInt8 := unsubTable[x.toFin]

@[ext] structure Column where
  a : UInt8
  b : UInt8
  c : UInt8
  d : UInt8
  deriving DecidableEq, Repr

namespace Column

def zero : Column := ⟨0, 0, 0, 0⟩

def add (x y : Column) : Column := ⟨x.a ^^^ y.a, x.b ^^^ y.b, x.c ^^^ y.c, x.d ^^^ y.d⟩

def map (f : UInt8 → UInt8) (x : Column) : Column := ⟨f x.a, f x.b, f x.c, f x.d⟩

/-- The product with the circulant matrix whose first row is `p q r s`. -/
def circulant (p q r s : UInt8) (x : Column) : Column where
  a := mul x.a p ^^^ mul x.b q ^^^ mul x.c r ^^^ mul x.d s
  b := mul x.a s ^^^ mul x.b p ^^^ mul x.c q ^^^ mul x.d r
  c := mul x.a r ^^^ mul x.b s ^^^ mul x.c p ^^^ mul x.d q
  d := mul x.a q ^^^ mul x.b r ^^^ mul x.c s ^^^ mul x.d p

def mix (x : Column) : Column := x.circulant 2 3 1 1

def unmix (x : Column) : Column := x.circulant 14 11 13 9

def rotate (x : Column) : Column := ⟨x.b, x.c, x.d, x.a⟩

/-- The first four bytes; a shorter list stands for zero. -/
def ofBytes : Bytes → Column
  | a :: b :: c :: d :: _ => ⟨a, b, c, d⟩
  | _ => zero

def bytes (x : Column) : Bytes := [x.a, x.b, x.c, x.d]

end Column

@[ext] structure Block where
  c0 : Column
  c1 : Column
  c2 : Column
  c3 : Column
  deriving DecidableEq, Repr

namespace Block

def zero : Block := ⟨.zero, .zero, .zero, .zero⟩

def add (x y : Block) : Block := ⟨x.c0.add y.c0, x.c1.add y.c1, x.c2.add y.c2, x.c3.add y.c3⟩

def map (f : Column → Column) (x : Block) : Block := ⟨f x.c0, f x.c1, f x.c2, f x.c3⟩

/-- Row `i` moves `i` columns to the left. -/
def shiftRows (x : Block) : Block where
  c0 := ⟨x.c0.a, x.c1.b, x.c2.c, x.c3.d⟩
  c1 := ⟨x.c1.a, x.c2.b, x.c3.c, x.c0.d⟩
  c2 := ⟨x.c2.a, x.c3.b, x.c0.c, x.c1.d⟩
  c3 := ⟨x.c3.a, x.c0.b, x.c1.c, x.c2.d⟩

def unshiftRows (x : Block) : Block where
  c0 := ⟨x.c0.a, x.c3.b, x.c2.c, x.c1.d⟩
  c1 := ⟨x.c1.a, x.c0.b, x.c3.c, x.c2.d⟩
  c2 := ⟨x.c2.a, x.c1.b, x.c0.c, x.c3.d⟩
  c3 := ⟨x.c3.a, x.c2.b, x.c1.c, x.c0.d⟩

def ofBytes (b : Bytes) : Block :=
  ⟨.ofBytes b, .ofBytes (b.drop 4), .ofBytes (b.drop 8), .ofBytes (b.drop 12)⟩

def bytes (x : Block) : Bytes := x.c0.bytes ++ x.c1.bytes ++ x.c2.bytes ++ x.c3.bytes

theorem unshiftRows_shiftRows (x : Block) : x.shiftRows.unshiftRows = x := rfl

@[simp] theorem length_bytes (x : Block) : x.bytes.length = 16 := rfl

theorem ofBytes_bytes (x : Block) : ofBytes x.bytes = x := rfl

end Block

/-- One key for the start, one for each middle round and one for the end. -/
structure Schedule where
  first : Block
  middle : List Block
  last : Block
  deriving DecidableEq, Repr

/-- The constant that enters at the start of the `i`th run of the key's length. -/
def roundConstant (i : Nat) : UInt8 := Nat.repeat double (i - 1) 1

/-- Puts `n` more columns in front of the expanded key, whose latest column stands first and
which has `i` columns; the key itself has `size`. -/
def expand (size : Nat) : Nat → Nat → List Column → List Column
  | 0, _, cs => cs
  | n + 1, i, cs =>
    let previous := cs.headD .zero
    let turned :=
      if i % size = 0 then (previous.rotate.map sub).add ⟨roundConstant (i / size), 0, 0, 0⟩
      else if size > 6 ∧ i % size = 4 then previous.map sub
      else previous
    expand size n (i + 1) ((cs.getD (size - 1) .zero).add turned :: cs)

def blockOf : List Column → Block
  | [a, b, c, d] => ⟨a, b, c, d⟩
  | _ => .zero

/-- The round keys of a key: a key of four columns has ten rounds, one of eight fourteen. -/
def Schedule.ofKey (key : Bytes) : Schedule :=
  let columns := (pieces 4 key).map Column.ofBytes
  let size := columns.length
  let all := (expand size (4 * (size + 7) - size) size columns.reverse).reverse
  let blocks := (pieces 4 all).map blockOf
  { first := blocks.headD .zero
    middle := (blocks.drop 1).dropLast
    last := blocks.getLastD .zero }

def encryptRound (s key : Block) : Block :=
  (((s.map (·.map sub)).shiftRows).map .mix).add key

def decryptRound (key s : Block) : Block :=
  (((s.add key).map .unmix).unshiftRows).map (·.map unsub)

def encrypt (k : Schedule) (b : Block) : Block :=
  let s := k.middle.foldl encryptRound (b.add k.first)
  ((s.map (·.map sub)).shiftRows).add k.last

def decrypt (k : Schedule) (b : Block) : Block :=
  let s := ((b.add k.last).unshiftRows).map (·.map unsub)
  (k.middle.foldr decryptRound s).add k.first

end SshKeyring.Aes

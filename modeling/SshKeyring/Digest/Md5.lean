import SshKeyring.Digest.Padding

/-! MD5. Sixty-four steps over a block of sixteen words, the least significant byte of a word
first. -/

namespace SshKeyring

namespace Md5

structure State where
  a : UInt32
  b : UInt32
  c : UInt32
  d : UInt32
  deriving DecidableEq, Repr

def initial : State := ⟨0x67452301, 0xefcdab89, 0x98badcfe, 0x10325476⟩

/-- The first 32 bits of the fractional parts of the sines of 1 to 64 radians. -/
def sines : List UInt32 :=
  [
    0xd76aa478, 0xe8c7b756, 0x242070db, 0xc1bdceee, 0xf57c0faf, 0x4787c62a, 0xa8304613, 0xfd469501,
    0x698098d8, 0x8b44f7af, 0xffff5bb1, 0x895cd7be, 0x6b901122, 0xfd987193, 0xa679438e, 0x49b40821,
    0xf61e2562, 0xc040b340, 0x265e5a51, 0xe9b6c7aa, 0xd62f105d, 0x02441453, 0xd8a1e681, 0xe7d3fbc8,
    0x21e1cde6, 0xc33707d6, 0xf4d50d87, 0x455a14ed, 0xa9e3e905, 0xfcefa3f8, 0x676f02d9, 0x8d2a4c8a,
    0xfffa3942, 0x8771f681, 0x6d9d6122, 0xfde5380c, 0xa4beea44, 0x4bdecfa9, 0xf6bb4b60, 0xbebfbc70,
    0x289b7ec6, 0xeaa127fa, 0xd4ef3085, 0x04881d05, 0xd9d4d039, 0xe6db99e5, 0x1fa27cf8, 0xc4ac5665,
    0xf4292244, 0x432aff97, 0xab9423a7, 0xfc93a039, 0x655b59c3, 0x8f0ccc92, 0xffeff47d, 0x85845dd1,
    0x6fa87e4f, 0xfe2ce6e0, 0xa3014314, 0x4e0811a1, 0xf7537e82, 0xbd3af235, 0x2ad7d2bb, 0xeb86d391]

/-- What one step adds, mixes and turns by: a sine, the place of a word, and an amount. -/
structure Step where
  sine : UInt32
  place : Fin 16
  turn : UInt32

/-- The places go through the block in strides of 1, 5, 3 and 7, a round each. -/
def place (i : Nat) : Fin 16 :=
  match i / 16 with
  | 0 => Fin.ofNat 16 i
  | 1 => Fin.ofNat 16 (5 * i + 1)
  | 2 => Fin.ofNat 16 (3 * i + 5)
  | _ => Fin.ofNat 16 (7 * i)

def turn (i : Nat) : UInt32 :=
  match i / 16, i % 4 with
  | 0, 0 => 7
  | 0, 1 => 12
  | 0, 2 => 17
  | 0, _ => 22
  | 1, 0 => 5
  | 1, 1 => 9
  | 1, 2 => 14
  | 1, _ => 20
  | 2, 0 => 4
  | 2, 1 => 11
  | 2, 2 => 16
  | 2, _ => 23
  | _, 0 => 6
  | _, 1 => 10
  | _, 2 => 15
  | _, _ => 21

def steps (round : Nat) : List Step :=
  (sines.zipIdx.drop (16 * round)).take 16 |>.map fun (t, i) => ⟨t, place i, turn i⟩

def rounds : List ((UInt32 → UInt32 → UInt32 → UInt32) × List Step) :=
  [(fun b c d => (b &&& c) ||| (~~~b &&& d), steps 0),
    (fun b c d => (d &&& b) ||| (~~~d &&& c), steps 1),
    (fun b c d => b ^^^ c ^^^ d, steps 2),
    (fun b c d => c ^^^ (b ||| ~~~d), steps 3)]

def rotl (x n : UInt32) : UInt32 := x <<< n ||| x >>> (32 - n)

def apply (block : Vector UInt32 16) (mix : UInt32 → UInt32 → UInt32 → UInt32) (s : State)
    (t : Step) : State :=
  let x := s.a + mix s.b s.c s.d + t.sine + block[t.place]
  ⟨s.d, s.b + rotl x t.turn, s.b, s.c⟩

def word (b : Bytes) : UInt32 := UInt32.ofNat (Bytes.toNat b.reverse)

def words (block : Bytes) : Vector UInt32 16 :=
  let ws := ((pieces 4 block).map word).toArray
  Vector.ofFn fun i => ws[i]?.getD 0

def compress (s : State) (block : Bytes) : State :=
  let ws := words block
  let t := rounds.foldl (fun s (mix, ts) => ts.foldl (apply ws mix) s) s
  ⟨s.a + t.a, s.b + t.b, s.c + t.c, s.d + t.d⟩

def State.bytes (s : State) : Bytes :=
  [s.a, s.b, s.c, s.d].flatMap fun w => (Bytes.ofNat 4 w.toNat).reverse

end Md5

def md5 (message : Bytes) : Bytes :=
  let padded := Digest.pad 64 (fun n => (Bytes.ofNat 8 n).reverse) message
  ((pieces 64 padded).foldl Md5.compress Md5.initial).bytes

@[simp] theorem length_md5 (message : Bytes) : (md5 message).length = 16 := by
  simp [md5, Md5.State.bytes]

end SshKeyring

import SshKeyring.Digest.Padding

/-! SHA-2 over words of 32 or of 64 bits. The two sizes share the compression loop and the
constants: the first 64 bits of the fractional parts of the square and cube roots of the first
primes, of which the smaller size takes the upper halves. -/

namespace SshKeyring

namespace Sha2

/-- Words that add, rotate and shift, as many bytes long as `size` says. -/
class Word (ω : Type) extends Add ω, AndOp ω, XorOp ω, Complement ω where
  size : Nat
  ofNat : Nat → ω
  toNat : ω → Nat
  rotr : ω → ω → ω
  shr : ω → ω → ω

instance : Word UInt32 where
  size := 4
  ofNat := UInt32.ofNat
  toNat := UInt32.toNat
  rotr x n := x >>> n ||| x <<< (32 - n)
  shr x n := x >>> n

instance : Word UInt64 where
  size := 8
  ofNat := UInt64.ofNat
  toNat := UInt64.toNat
  rotr x n := x >>> n ||| x <<< (64 - n)
  shr x n := x >>> n

/-- The square roots of the first 8 primes. -/
def squareRoots : List UInt64 :=
  [
    0x6a09e667f3bcc908, 0xbb67ae8584caa73b, 0x3c6ef372fe94f82b, 0xa54ff53a5f1d36f1,
    0x510e527fade682d1, 0x9b05688c2b3e6c1f, 0x1f83d9abfb41bd6b, 0x5be0cd19137e2179]

/-- The cube roots of the first 80 primes. -/
def cubeRoots : List UInt64 :=
  [
    0x428a2f98d728ae22, 0x7137449123ef65cd, 0xb5c0fbcfec4d3b2f, 0xe9b5dba58189dbbc,
    0x3956c25bf348b538, 0x59f111f1b605d019, 0x923f82a4af194f9b, 0xab1c5ed5da6d8118,
    0xd807aa98a3030242, 0x12835b0145706fbe, 0x243185be4ee4b28c, 0x550c7dc3d5ffb4e2,
    0x72be5d74f27b896f, 0x80deb1fe3b1696b1, 0x9bdc06a725c71235, 0xc19bf174cf692694,
    0xe49b69c19ef14ad2, 0xefbe4786384f25e3, 0x0fc19dc68b8cd5b5, 0x240ca1cc77ac9c65,
    0x2de92c6f592b0275, 0x4a7484aa6ea6e483, 0x5cb0a9dcbd41fbd4, 0x76f988da831153b5,
    0x983e5152ee66dfab, 0xa831c66d2db43210, 0xb00327c898fb213f, 0xbf597fc7beef0ee4,
    0xc6e00bf33da88fc2, 0xd5a79147930aa725, 0x06ca6351e003826f, 0x142929670a0e6e70,
    0x27b70a8546d22ffc, 0x2e1b21385c26c926, 0x4d2c6dfc5ac42aed, 0x53380d139d95b3df,
    0x650a73548baf63de, 0x766a0abb3c77b2a8, 0x81c2c92e47edaee6, 0x92722c851482353b,
    0xa2bfe8a14cf10364, 0xa81a664bbc423001, 0xc24b8b70d0f89791, 0xc76c51a30654be30,
    0xd192e819d6ef5218, 0xd69906245565a910, 0xf40e35855771202a, 0x106aa07032bbd1b8,
    0x19a4c116b8d2d0c8, 0x1e376c085141ab53, 0x2748774cdf8eeb99, 0x34b0bcb5e19b48a8,
    0x391c0cb3c5c95a63, 0x4ed8aa4ae3418acb, 0x5b9cca4f7763e373, 0x682e6ff3d6b2b8a3,
    0x748f82ee5defb2fc, 0x78a5636f43172f60, 0x84c87814a1f0ab72, 0x8cc702081a6439ec,
    0x90befffa23631e28, 0xa4506cebde82bde9, 0xbef9a3f7b2c67915, 0xc67178f2e372532b,
    0xca273eceea26619c, 0xd186b8c721c0c207, 0xeada7dd6cde0eb1e, 0xf57d4f7fee6ed178,
    0x06f067aa72176fba, 0x0a637dc5a2c898a6, 0x113f9804bef90dae, 0x1b710b35131c471b,
    0x28db77f523047d84, 0x32caab7b40c72493, 0x3c9ebe0a15c9bebc, 0x431d67c49c100d4c,
    0x4cc5d4becb3e42b6, 0x597f299cfc657e2a, 0x5fcb6fab3ad6faec, 0x6c44198c4a475817]

def upperHalf (w : UInt64) : UInt32 := (w >>> 32).toUInt32

structure State (ω : Type) where
  a : ω
  b : ω
  c : ω
  d : ω
  e : ω
  f : ω
  g : ω
  h : ω
  deriving DecidableEq, Repr

/-- What tells the sizes apart: the constants, and the amounts by which the four mixing
functions rotate, the last amount of `small0` and `small1` being a shift. -/
structure Variant (ω : Type) where
  initial : State ω
  constants : List ω
  big0 : ω × ω × ω
  big1 : ω × ω × ω
  small0 : ω × ω × ω
  small1 : ω × ω × ω

variable {ω : Type} [Word ω]

@[specialize] def bigSigma (n : ω × ω × ω) (x : ω) : ω :=
  Word.rotr x n.1 ^^^ Word.rotr x n.2.1 ^^^ Word.rotr x n.2.2

@[specialize] def smallSigma (n : ω × ω × ω) (x : ω) : ω :=
  Word.rotr x n.1 ^^^ Word.rotr x n.2.1 ^^^ Word.shr x n.2.2

/-- Puts `n` more words in front of the schedule, which holds the latest word first. -/
@[specialize] def extend (v : Variant ω) : Nat → List ω → List ω
  | 0, ws => ws
  | n + 1, ws =>
    match ws with
    | w1 :: w2 :: w3 :: w4 :: w5 :: w6 :: w7 :: w8 :: w9 :: w10 :: w11 :: w12 :: w13 :: w14 :: w15 ::
        w16 :: rest =>
      let w := smallSigma v.small1 w2 + w7 + smallSigma v.small0 w15 + w16
      extend v n (w :: w1 :: w2 :: w3 :: w4 :: w5 :: w6 :: w7 :: w8 :: w9 :: w10 :: w11 :: w12 ::
        w13 :: w14 :: w15 :: w16 :: rest)
    | short => short

@[specialize] def round (v : Variant ω) (s : State ω) (kw : ω × ω) : State ω :=
  let choice := (s.e &&& s.f) ^^^ (~~~s.e &&& s.g)
  let majority := (s.a &&& s.b) ^^^ (s.a &&& s.c) ^^^ (s.b &&& s.c)
  let t := s.h + bigSigma v.big1 s.e + choice + kw.1 + kw.2
  { a := t + bigSigma v.big0 s.a + majority, b := s.a, c := s.b, d := s.c,
    e := s.d + t, f := s.e, g := s.f, h := s.g }

@[specialize] def compress (v : Variant ω) (s : State ω) (block : Bytes) : State ω :=
  let words := (pieces (Word.size ω) block).map fun b => Word.ofNat (Bytes.toNat b)
  let schedule := (extend v (v.constants.length - 16) words.reverse).reverse
  let t := (v.constants.zip schedule).foldl (round v) s
  { a := s.a + t.a, b := s.b + t.b, c := s.c + t.c, d := s.d + t.d,
    e := s.e + t.e, f := s.f + t.f, g := s.g + t.g, h := s.h + t.h }

def State.bytes (s : State ω) : Bytes :=
  [s.a, s.b, s.c, s.d, s.e, s.f, s.g, s.h].flatMap fun w => Bytes.ofNat (Word.size ω) (Word.toNat w)

@[specialize] def digest (v : Variant ω) (message : Bytes) : Bytes :=
  let size := Word.size ω
  let padded := Digest.pad (16 * size) (fun n => Bytes.ofNat (2 * size) n) message
  ((pieces (16 * size) padded).foldl (compress v) v.initial).bytes

def sha256Variant : Variant UInt32 where
  initial :=
    match squareRoots.map upperHalf with
    | [a, b, c, d, e, f, g, h] => ⟨a, b, c, d, e, f, g, h⟩
    | _ => ⟨0, 0, 0, 0, 0, 0, 0, 0⟩
  constants := (cubeRoots.take 64).map upperHalf
  big0 := (2, 13, 22)
  big1 := (6, 11, 25)
  small0 := (7, 18, 3)
  small1 := (17, 19, 10)

def sha512Variant : Variant UInt64 where
  initial :=
    match squareRoots with
    | [a, b, c, d, e, f, g, h] => ⟨a, b, c, d, e, f, g, h⟩
    | _ => ⟨0, 0, 0, 0, 0, 0, 0, 0⟩
  constants := cubeRoots
  big0 := (28, 34, 39)
  big1 := (14, 18, 41)
  small0 := (1, 8, 7)
  small1 := (19, 61, 6)

end Sha2

def sha256 (message : Bytes) : Bytes := Sha2.digest Sha2.sha256Variant message

def sha512 (message : Bytes) : Bytes := Sha2.digest Sha2.sha512Variant message

end SshKeyring

import SshKeyring.Text.Utf8

/-! The supported key types, their names on the wire, and how many strings follow the name in
either half of a key. -/

namespace SshKeyring

inductive Curve
  | nistP256
  | nistP384
  | nistP521
  deriving DecidableEq, Repr

def Curve.name : Curve → String
  | .nistP256 => "nistp256"
  | .nistP384 => "nistp384"
  | .nistP521 => "nistp521"

inductive KeyType
  | dss
  | rsa
  | ecdsa (curve : Curve)
  | ed25519
  | skEcdsaP256
  deriving DecidableEq, Repr

namespace KeyType

def name : KeyType → String
  | .dss => "ssh-dss"
  | .rsa => "ssh-rsa"
  | .ecdsa .nistP256 => "ecdsa-sha2-nistp256"
  | .ecdsa .nistP384 => "ecdsa-sha2-nistp384"
  | .ecdsa .nistP521 => "ecdsa-sha2-nistp521"
  | .ed25519 => "ssh-ed25519"
  | .skEcdsaP256 => "sk-ecdsa-sha2-nistp256@openssh.com"

def all : List KeyType :=
  [.dss, .rsa, .ecdsa .nistP256, .ecdsa .nistP384, .ecdsa .nistP521, .ed25519, .skEcdsaP256]

def ofName? (s : String) : Option KeyType := all.find? (·.name = s)

/-- DSS: p, q, g, y. RSA: e, n. ECDSA: curve, point. Ed25519: point. Security keys: curve,
point, application. -/
def publicParts : KeyType → Nat
  | .dss => 4
  | .rsa => 2
  | .ecdsa _ => 2
  | .ed25519 => 1
  | .skEcdsaP256 => 3

/-- DSS: p, q, g, y, x. RSA: n, e, d, iqmp, p, q. ECDSA: curve, point, scalar. Ed25519: point,
seed and point. Security keys: key handle and a reserved string, after a preamble. -/
def privateParts : KeyType → Nat
  | .dss => 5
  | .rsa => 6
  | .ecdsa _ => 3
  | .ed25519 => 2
  | .skEcdsaP256 => 2

def isSecurityKey : KeyType → Bool
  | .skEcdsaP256 => true
  | _ => false

def curve? : KeyType → Option Curve
  | .ecdsa c => some c
  | _ => none

theorem mem_all (t : KeyType) : t ∈ all := by
  rcases t with _ | _ | c | _ | _ <;> first | decide | (cases c <;> decide)

theorem ofName?_name (t : KeyType) : ofName? t.name = some t := by
  rcases t with _ | _ | c | _ | _ <;> first | rfl | (cases c <;> rfl)

theorem name_of_ofName? {s : String} {t : KeyType} (h : ofName? s = some t) : t.name = s := by
  simpa using List.find?_some h

end KeyType

end SshKeyring

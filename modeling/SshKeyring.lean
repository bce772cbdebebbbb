import SshKeyring.Agent.Session
import SshKeyring.Bytes.Value
import SshKeyring.Generate
import SshKeyring.Proofs.Text.Base64
import SshKeyring.Proofs.Text.Hex
import SshKeyring.Proofs.Pem.Grammar
import SshKeyring.Proofs.Pem
import SshKeyring.Proofs.Wire
import SshKeyring.Proofs.Der
import SshKeyring.Proofs.Mpint
import SshKeyring.Proofs.Derive
import SshKeyring.Proofs.Cipher.Aes
import SshKeyring.Proofs.Cipher.Mode
import SshKeyring.Proofs.Cipher.Decryptor
import SshKeyring.Proofs.Key.Halves
import SshKeyring.Proofs.Key.Padding
import SshKeyring.Proofs.Key.Container
import SshKeyring.Proofs.Key.Strict
import SshKeyring.Proofs.Key.Grammar
import SshKeyring.Proofs.Key.Unlock
import SshKeyring.Proofs.Key.Legacy
import SshKeyring.Proofs.Key.PublicHalf
import SshKeyring.Proofs.Key.Coefficient
import SshKeyring.Proofs.Key.Lifecycle
import SshKeyring.Proofs.Key.RoundTrip
import SshKeyring.Proofs.Key.Identity
import SshKeyring.Proofs.Key.Sealed
import SshKeyring.Proofs.Key.SealedLegacy
import SshKeyring.Proofs.Key.Vector
import SshKeyring.Proofs.Key.Faults
import SshKeyring.Proofs.Key.Line
import SshKeyring.Proofs.Key.Fingerprint
import SshKeyring.Proofs.Key.Equality
import SshKeyring.Proofs.Key.Locking
import SshKeyring.Proofs.Key.PublicBlock
import SshKeyring.Proofs.Key.Size
import SshKeyring.Proofs.Agent.Listing
import SshKeyring.Proofs.Agent.Message
import SshKeyring.Proofs.Agent.Lengths
import SshKeyring.Proofs.Agent.Stream
import SshKeyring.Proofs.Agent.Cursor
import SshKeyring.Proofs.Agent.Fields
import SshKeyring.Proofs.Agent.Exchange
import SshKeyring.Proofs.Agent.Session
import SshKeyring.Proofs.Agent.Removal
import SshKeyring.Proofs.Agent.Frame
import SshKeyring.Proofs.Agent.Delivery
import SshKeyring.Proofs.Agent.Chunks
import SshKeyring.Proofs.Agent.Serving
import SshKeyring.Proofs.Agent.Keyring
import SshKeyring.Proofs.Agent.Adding
import SshKeyring.Proofs.Agent.Buffered
import SshKeyring.Proofs.Agent.Turns
import SshKeyring.Proofs.Agent.Agreement
import SshKeyring.Proofs.Agent.Granting

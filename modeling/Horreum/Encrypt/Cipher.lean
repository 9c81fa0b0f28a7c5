/-
  Encrypt/Cipher.lean --- the value ciphers of `internal/encrypt/encrypt.go`.

  AES-GCM comes from the standard library; here it is any authenticated cipher that
  opens what it sealed.  What the package adds is the frame around it: a fresh nonce in
  front of the sealed bytes, and the length check before opening.
-/
import Horreum.Foundation.Bytes

set_option autoImplicit false

namespace Horreum.Encrypt

open Foundation

/-- The length of the nonce in front of a ciphertext. -/
def nonceSize : Nat := 12

/-- `aead.Overhead()`: the size of the GCM tag. -/
def overhead : Nat := 16

/-- The nonce of one encryption. -/
abbrev Nonce : Type := { bytes : Bytes // bytes.length = nonceSize }

/-- The errors of the package. -/
inductive Error where
  | nonce
  | tooShort
  | decryption
  deriving DecidableEq, Repr

/-- An authenticated cipher with its key: `cipher.AEAD`, with no additional data. -/
structure AEAD where
  sealWith : Bytes → Bytes → Bytes
  openWith : Bytes → Bytes → Option Bytes
  length_seal : ∀ nonce src, (sealWith nonce src).length = src.length + overhead
  open_seal : ∀ nonce src, openWith nonce (sealWith nonce src) = some src

/-- The two ciphers. -/
inductive Cipher where
  | noop
  | aesgcm (aead : AEAD)

namespace Cipher

/-- `s.cipher.Name() == "none"` -/
def isNone : Cipher → Bool
  | noop => true
  | aesgcm _ => false

/-- `nonce` is what the random source delivers, `none` when reading it fails. -/
def encrypt (c : Cipher) (nonce : Option Nonce) (src : Bytes) : Except Error Bytes :=
  match c with
  | noop => .ok src
  | aesgcm aead =>
    match nonce with
    | none => .error .nonce
    | some nonce => .ok (nonce.val ++ aead.sealWith nonce.val src)

/-- `Cipher.Decrypt`: the nonce stands in front. -/
def decrypt (c : Cipher) (src : Bytes) : Except Error Bytes :=
  match c with
  | noop => .ok src
  | aesgcm aead =>
    if src.length < nonceSize + overhead then .error .tooShort
    else
      match aead.openWith (src.take nonceSize) (src.drop nonceSize) with
      | none => .error .decryption
      | some dst => .ok dst

variable {c : Cipher} {nonce : Option Nonce} {src out : Bytes}

theorem encrypt_aesgcm {aead : AEAD} (h : (aesgcm aead).encrypt nonce src = .ok out) :
    ∃ n : Nonce, n.val ++ aead.sealWith n.val src = out := by
  cases nonce with
  | none => cases h
  | some n => exact ⟨n, by simpa [encrypt] using h⟩

theorem length_encrypt_le (h : c.encrypt nonce src = .ok out) :
    out.length ≤ src.length + (nonceSize + overhead) := by
  cases c with
  | noop =>
    cases h
    omega
  | aesgcm aead =>
    obtain ⟨n, rfl⟩ := encrypt_aesgcm h
    rw [List.length_append, aead.length_seal, n.property]
    omega

/-- What a cipher encrypted it decrypts. -/
theorem decrypt_encrypt (h : c.encrypt nonce src = .ok out) : c.decrypt out = .ok src := by
  cases c with
  | noop =>
    cases h
    rfl
  | aesgcm aead =>
    obtain ⟨n, rfl⟩ := encrypt_aesgcm h
    have hnonce := n.property
    simp only [decrypt]
    rw [if_neg (by rw [List.length_append, aead.length_seal]; omega),
      List.take_left' hnonce, List.drop_left' hnonce, aead.open_seal]

end Cipher

end Horreum.Encrypt

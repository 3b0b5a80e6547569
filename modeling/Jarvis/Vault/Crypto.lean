import Jarvis.Aead
import Jarvis.Fallible
import Jarvis.Vault.Types

/-!
# The Vault: envelopes

A secret is encrypted with a data key of its own (DEK), and the data key with the key-encryption key
(KEK) of the Vault. Both layers authenticate what the secret belongs to, as associated data: a
stored provider key its owner, data that a caller stores itself what they are bound to. Source:
`services/vault/src/crypto.rs`.

AES-256-GCM and HKDF are parameters. Memory that is wiped is not distinguished, and the derivation
of the KEK from the passphrase is left out: a `MasterKey` begins with the KEK (`from_key_bytes`).
-/

namespace Jarvis.Vault

open Encoding

/-- AES-256-GCM: keys, nonces, associated data, messages and ciphertexts are bytes. -/
abbrev Cipher := Aead Bytes Bytes Bytes Bytes Bytes

/-- HKDF without a salt: the key, the label, and how many bytes. -/
abbrev Hkdf := Bytes → Bytes → (n : ℕ) → Fixed n

def keyLen : ℕ := 32

def nonceLen : ℕ := 12

def tagLen : ℕ := 16

def aadSecret : Bytes := utf8 "jarvis-vault/v1/secret"

def aadDek : Bytes := utf8 "jarvis-vault/v1/dek"

def aadData : Bytes := utf8 "jarvis-vault/v1/data"

def aadDataDek : Bytes := utf8 "jarvis-vault/v1/data-dek"

def dataMagic : Bytes := utf8 "JVD1"

def hkdfKekId : Bytes := utf8 "jarvis-vault/v1/kek-id"

/-! ### What a secret belongs to -/

/-- Source: `SecretOwner` -/
structure SecretOwner where
  tenantId : Uuid
  keyId : Uuid
  provider : Provider
  deriving DecidableEq, Repr

/-- Source: `SecretOwner::associated_data` -/
def SecretOwner.associatedData (o : SecretOwner) (label : Bytes) : Bytes :=
  label ++ [0] ++ o.tenantId.asBytes ++ o.keyId.asBytes ++ utf8 o.provider.asStr

/-- Associated data for the two layers of one envelope. -/
structure Aad where
  dek : Bytes
  secret : Bytes
  deriving DecidableEq, Repr

/-- Source: `SecretOwner::aad` -/
def SecretOwner.aad (o : SecretOwner) : Aad :=
  ⟨o.associatedData aadDek, o.associatedData aadSecret⟩

/-- Source: `DataBinding` -/
structure DataBinding where
  tenantId : Uuid
  purpose : String
  subjectId : String
  deriving DecidableEq, Repr

/-- Source: the closure `encode` of `DataBinding::aad` -/
def DataBinding.encode (b : DataBinding) (label : Bytes) : Bytes :=
  label ++ [0] ++ b.tenantId.asBytes ++
    bigEndian 1 (min (utf8 b.purpose).length 255) ++ utf8 b.purpose ++
    bigEndian 2 (min (utf8 b.subjectId).length 65535) ++ utf8 b.subjectId

/-- Source: `DataBinding::aad` -/
def DataBinding.aad (b : DataBinding) : Aad :=
  ⟨b.encode aadDataDek, b.encode aadData⟩

/-! ### Blobs -/

/-- Source: `SealedSecret::to_blob` -/
def SealedSecret.toBlob (x : SealedSecret) : Except CryptoError Bytes := do
  ensure ((utf8 x.kekId).length ≤ 255) (.malformed "KEK id too long")
  ensure (x.wrappedDek.length ≤ 65535) (.malformed "wrapped DEK too long")
  return dataMagic ++ (bigEndian 1 (utf8 x.kekId).length ++ (utf8 x.kekId ++ (x.dekNonce ++
    (bigEndian 2 x.wrappedDek.length ++ (x.wrappedDek ++ (x.nonce ++ x.ciphertext))))))

/-- The first bytes, and the rest. Source: `take` in `SealedSecret::from_blob` -/
def take (n : ℕ) (rest : Bytes) : Except CryptoError (Bytes × Bytes) :=
  if rest.length < n then .error (.malformed "sealed data is truncated") else .ok (rest.splitAt n)

/-- Source: `SealedSecret::from_blob` -/
def SealedSecret.fromBlob (blob : Bytes) : Except CryptoError SealedSecret := do
  let (magic, rest) ← take 4 blob
  ensure (magic = dataMagic) (.malformed "not sealed data (unknown format)")
  let (kekIdLen, rest) ← take 1 rest
  let (kekId, rest) ← take (ofBigEndian kekIdLen) rest
  let kekId ← okOr (.malformed "KEK id is not UTF-8") (fromUtf8 kekId)
  let (dekNonce, rest) ← take nonceLen rest
  let (dekLen, rest) ← take 2 rest
  let (wrappedDek, rest) ← take (ofBigEndian dekLen) rest
  let (nonce, rest) ← take nonceLen rest
  ensure (tagLen ≤ rest.length) (.malformed "sealed data is truncated")
  return ⟨kekId, wrappedDek, dekNonce, rest, nonce⟩

/-! ### Sealing and opening -/

/-- Source: `MasterKey`. The id of the KEK is computed from it. -/
structure MasterKey (hkdf : Hkdf) where
  kek : Fixed keyLen
  kekId : String
  kekId_eq : kekId = hex (hkdf kek hkdfKekId 16)

/-- Source: `MasterKey::from_key_bytes` -/
def MasterKey.fromKeyBytes (hkdf : Hkdf) (kek : Fixed keyLen) : MasterKey hkdf :=
  ⟨kek, hex (hkdf kek hkdfKekId 16), rfl⟩

/-- What the random number generator gives to one call of `seal_with`: nothing if it fails. -/
structure Random where
  dek : Option (Fixed keyLen)
  nonce : Option (Fixed nonceLen)
  dekNonce : Option (Fixed nonceLen)
  deriving DecidableEq

namespace MasterKey

variable {hkdf : Hkdf} (aes : Cipher) (m : MasterKey hkdf)

/-- Source: `MasterKey::seal_with` -/
def sealWith (rng : Random) (plaintext : Bytes) (aad : Aad) : Except CryptoError SealedSecret := do
  let dek ← okOr .rng rng.dek
  let nonce ← okOr .rng rng.nonce
  let ciphertext ← okOr .encrypt (aes.encrypt dek nonce aad.secret plaintext)
  let dekNonce ← okOr .rng rng.dekNonce
  let wrappedDek ← okOr .encrypt (aes.encrypt m.kek dekNonce aad.dek dek)
  return ⟨m.kekId, wrappedDek, dekNonce, ciphertext, nonce⟩

/-- Source: `MasterKey::open_with` -/
def openWith (x : SealedSecret) (aad : Aad) : Except CryptoError Bytes := do
  ensure (x.kekId = m.kekId) (.kekMismatch m.kekId x.kekId)
  ensure (x.dekNonce.length = nonceLen) (.malformed "DEK nonce has the wrong length")
  ensure (x.nonce.length = nonceLen) (.malformed "nonce has the wrong length")
  let dek ← okOr .decrypt (aes.decrypt m.kek x.dekNonce aad.dek x.wrappedDek)
  ensure (dek.length = keyLen) (.malformed "DEK has the wrong length")
  okOr .decrypt (aes.decrypt dek x.nonce aad.secret x.ciphertext)

/-- Source: `MasterKey::seal` -/
def seal' (rng : Random) (plaintext : Bytes) (owner : SecretOwner) :
    Except CryptoError SealedSecret :=
  m.sealWith aes rng plaintext owner.aad

/-- Source: `MasterKey::open` -/
def open' (x : SealedSecret) (owner : SecretOwner) : Except CryptoError Bytes :=
  m.openWith aes x owner.aad

/-- Source: `MasterKey::seal_data` -/
def sealData (rng : Random) (plaintext : Bytes) (binding : DataBinding) :
    Except CryptoError Bytes := do
  (← m.sealWith aes rng plaintext binding.aad).toBlob

/-- Source: `MasterKey::open_data` -/
def openData (blob : Bytes) (binding : DataBinding) : Except CryptoError Bytes := do
  m.openWith aes (← SealedSecret.fromBlob blob) binding.aad

end MasterKey

/-! ### Requests -/

def maxPurposeLen : ℕ := 64

def maxSubjectLen : ℕ := 128

/-- Source: `service.rs` `parse_uuid`; `tryParse` is `Uuid::try_parse` -/
def parseUuid (tryParse : String → Option Uuid) (field value : String) : Except VaultError Uuid :=
  do
  ensure (value ≠ "") (.invalidArgument s!"{field} is required")
  okOr (.invalidArgument s!"{field} must be a UUID") (tryParse value)

/-- Source: `service.rs` `binding`, without what it notes for the audit trail -/
def binding (tryParse : String → Option Uuid) (tenantId purpose subjectId : String) :
    Except VaultError DataBinding := do
  let tenantId ← parseUuid tryParse "tenant_id" tenantId
  -- a-z, 0-9, and the three of the message
  ensure (purpose ≠ "" ∧ (utf8 purpose).length ≤ maxPurposeLen ∧ (utf8 purpose).all fun b =>
      (97 ≤ b ∧ b ≤ 122) ∨ (48 ≤ b ∧ b ≤ 57) ∨ b = 46 ∨ b = 95 ∨ b = 45)
    (.invalidArgument s!"purpose must be 1 to {maxPurposeLen} of a-z 0-9 . _ -")
  ensure (subjectId ≠ "" ∧ (utf8 subjectId).length ≤ maxSubjectLen ∧
      (utf8 subjectId).all fun b => 0x21 ≤ b ∧ b ≤ 0x7e)
    (.invalidArgument s!"subject_id must be 1 to {maxSubjectLen} printable ASCII characters")
  return ⟨tenantId, purpose, subjectId⟩

theorem binding_bounded {tryParse : String → Option Uuid}
    (h : binding tryParse tenantId purpose subjectId = .ok b) :
    (utf8 b.purpose).length ≤ maxPurposeLen ∧ (utf8 b.subjectId).length ≤ maxSubjectLen := by
  unfold binding at h
  obtain ⟨t, -, h⟩ := bind_eq_ok.mp h
  obtain ⟨_, hp, h⟩ := bind_eq_ok.mp h
  obtain ⟨_, hs, h⟩ := bind_eq_ok.mp h
  cases h
  exact ⟨(ensure_eq_ok.mp hp).2.1, (ensure_eq_ok.mp hs).2.1⟩

end Jarvis.Vault

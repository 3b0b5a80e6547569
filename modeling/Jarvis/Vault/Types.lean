import Jarvis.Bytes

/-!
# The Vault: types

Sources: `services/vault/src/domain.rs`, `error.rs`, the types of `crypto.rs`. The wire forms of
what is returned (`to_proto`) are left out.
-/

namespace Jarvis.Vault

open Encoding

/-- Microseconds. -/
abbrev Time := ℤ

abbrev Uuid := BitVec 128

/-- Source: `uuid` `as_bytes` -/
def Uuid.asBytes (u : Uuid) : Bytes := bigEndian 16 u.toNat

/-- Source: `uuid` `Display` -/
def Uuid.text (u : Uuid) : String :=
  let part (i n : ℕ) := hex ((u.asBytes.drop i).take n)
  "-".intercalate [part 0 4, part 4 2, part 6 2, part 8 2, part 10 6]

/-- Source: `domain.rs` `Provider` -/
inductive Provider where
  | openAi
  | xAi
  | anthropic
  | google
  deriving DecidableEq, Repr

/-- Source: `domain.rs` `Provider::as_str` -/
def Provider.asStr : Provider → String
  | .openAi => "openai"
  | .xAi => "xai"
  | .anthropic => "anthropic"
  | .google => "google"

/-- Source: `domain.rs` `KeyStatus` -/
inductive KeyStatus where
  | active
  | revoked
  deriving DecidableEq, Repr

/-- Source: `domain.rs` `RevocationReason` -/
inductive RevocationReason where
  | userRequested
  | rotated
  | compromised
  deriving DecidableEq, Repr

/-- Source: `domain.rs` `KeyMetadata` -/
structure KeyMetadata where
  keyId : Uuid
  tenantId : Uuid
  provider : Provider
  label : String
  keyHint : String
  status : KeyStatus
  createTime : Time
  revokeTime : Option Time
  revocationReason : Option RevocationReason
  deriving DecidableEq, Repr

/-- Source: `crypto.rs` `SealedSecret` -/
structure SealedSecret where
  kekId : String
  wrappedDek : Bytes
  dekNonce : Bytes
  ciphertext : Bytes
  nonce : Bytes
  deriving DecidableEq, Repr

/-- Source: `crypto.rs` `CryptoError`, without those of key derivation -/
inductive CryptoError where
  | rng
  | encrypt
  | decrypt
  | kekMismatch (expected found : String)
  | malformed (what : String)
  deriving DecidableEq, Repr

/-- Source: `error.rs` `VaultError` -/
inductive VaultError where
  | invalidArgument (message : String)
  | unauthenticated
  | permissionDenied
  | keyNotFound
  | keyRevoked
  | activeKeyExists
  | requestIdConflict
  | sealedDataInvalid
  | database
  | crypto (error : CryptoError)
  | dataIntegrity (what : String)
  deriving DecidableEq, Repr

/-- The codes of `tonic` that occur. -/
inductive Code where
  | invalidArgument
  | unauthenticated
  | permissionDenied
  | notFound
  | failedPrecondition
  | alreadyExists
  | internal
  deriving DecidableEq, Repr

theorem Uuid.delimited_asBytes : Delimited Set.univ Uuid.asBytes :=
  (delimited_bigEndian 16).comap (fun _ _ _ _ => BitVec.eq_of_toNat_eq) fun u _ => u.isLt

end Jarvis.Vault

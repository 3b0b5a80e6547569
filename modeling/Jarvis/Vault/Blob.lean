import Jarvis.Vault.Envelope
import Mathlib

/-!
# The Vault: sealed data

Data that a caller stores itself is sealed into a blob. The format of blobs is exact: `from_blob`
undoes `to_blob` (`fromBlob_toBlob`) and accepts nothing else (`toBlob_of_fromBlob`), and it never
reads beyond the bytes that there are (`fromBlobChecked_eq`). The sizes that SealData and OpenData
allow fit each other, so what was sealed can be opened (`handleOpen_sealed`). Sources:
`services/vault/src/crypto.rs` and `handle_seal`, `handle_open` in `service.rs`.
-/

namespace Jarvis.Vault

open Encoding

/-! ### The requests -/

def maxDataLen : ℕ := 64 * 1024

def maxSealedLen : ℕ := maxDataLen + 1024

/-- The message `SealDataRequest`. -/
structure SealDataRequest where
  tenantId : String
  purpose : String
  subjectId : String
  plaintext : Bytes
  deriving DecidableEq, Repr

/-- The message `OpenDataRequest`. -/
structure OpenDataRequest where
  tenantId : String
  purpose : String
  subjectId : String
  sealedData : Bytes
  deriving DecidableEq, Repr

variable {hkdf : Hkdf}

section

variable (tryParse : String → Option Uuid) (aes : Cipher) (m : MasterKey hkdf)

/-- Source: `handle_seal`; `authorized` is what `authorize` says of the caller -/
def handleSeal (authorized : Except VaultError PUnit) (rng : Random) (req : SealDataRequest) :
    Except VaultError Bytes := do
  authorized
  let binding ← binding tryParse req.tenantId req.purpose req.subjectId
  ensure (req.plaintext ≠ [] ∧ req.plaintext.length ≤ maxDataLen)
    (.invalidArgument s!"plaintext must be 1 to {maxDataLen} bytes")
  (m.sealData aes rng req.plaintext binding).mapError .crypto

/-- What a failure to open is to the caller. -/
def openError : CryptoError → VaultError
  | .decrypt => .sealedDataInvalid
  | .malformed _ => .sealedDataInvalid
  | .kekMismatch _ _ => .sealedDataInvalid
  | other => .crypto other

/-- Source: `handle_open` -/
def handleOpen (authorized : Except VaultError PUnit) (req : OpenDataRequest) :
    Except VaultError Bytes := do
  authorized
  let binding ← binding tryParse req.tenantId req.purpose req.subjectId
  ensure (req.sealedData ≠ [] ∧ req.sealedData.length ≤ maxSealedLen)
    (.invalidArgument s!"sealed must be 1 to {maxSealedLen} bytes")
  (m.openData aes req.sealedData binding).mapError openError

end

/-! ### Reading within bounds -/

/-- A reader that may fail, and that may also read out of bounds, which is `none`. -/
abbrev Reader (α : Type) := ExceptT CryptoError Option α

/-- `split_at` -/
def splitAtChecked (n : ℕ) (bytes : Bytes) : Reader (Bytes × Bytes) :=
  ExceptT.mk (if n ≤ bytes.length then some (.ok (bytes.splitAt n)) else none)

/-- `bytes[i]` -/
def indexChecked (i : ℕ) (bytes : Bytes) : Reader UInt8 := ExceptT.mk (bytes[i]?.map .ok)

/-- A part that reads nothing by position. -/
def Reader.lift {α : Type} (x : Except CryptoError α) : Reader α := ExceptT.mk (some x)

def takeChecked (n : ℕ) (rest : Bytes) : Reader (Bytes × Bytes) :=
  if rest.length < n then .lift (.error (.malformed "sealed data is truncated")) else
    splitAtChecked n rest

/-- `from_blob`, with every access by position checked. -/
def fromBlobChecked (blob : Bytes) : Reader SealedSecret := do
  let (magic, rest) ← takeChecked 4 blob
  .lift (ensure (magic = dataMagic) (.malformed "not sealed data (unknown format)"))
  let (kekIdLen, rest) ← takeChecked 1 rest
  let b ← indexChecked 0 kekIdLen
  let (kekId, rest) ← takeChecked b.toNat rest
  let kekId ← .lift (okOr (.malformed "KEK id is not UTF-8") (fromUtf8 kekId))
  let (dekNonce, rest) ← takeChecked nonceLen rest
  let (dekLen, rest) ← takeChecked 2 rest
  let b₀ ← indexChecked 0 dekLen
  let b₁ ← indexChecked 1 dekLen
  let (wrappedDek, rest) ← takeChecked (ofBigEndian [b₀, b₁]) rest
  let (nonce, rest) ← takeChecked nonceLen rest
  .lift (ensure (tagLen ≤ rest.length) (.malformed "sealed data is truncated"))
  return ⟨kekId, wrappedDek, dekNonce, rest, nonce⟩

theorem take_eq_ok : take n rest = .ok (a, b) ↔ a.length = n ∧ rest = a ++ b := by
  constructor
  · intro h
    unfold take at h
    split_ifs at h with hlen
    rw [List.splitAt_eq] at h
    obtain ⟨rfl, rfl⟩ := Prod.mk.inj (Except.ok.inj h)
    exact ⟨by rw [List.length_take]; omega, (List.take_append_drop n rest).symm⟩
  · rintro ⟨hlen, rfl⟩
    exact take_append hlen

theorem takeChecked_eq (n : ℕ) (rest : Bytes) : takeChecked n rest = .lift (take n rest) := by
  unfold takeChecked take
  split_ifs with h
  · rfl
  · rw [splitAtChecked, if_pos (not_lt.mp h)]
    rfl

/-- A step, and the rest after each of its results. -/
theorem Reader.bind_congr {α β : Type} {x : Except CryptoError α} {f : α → Reader β}
    {g : α → Except CryptoError β} (h : ∀ a, x = .ok a → f a = .lift (g a)) :
    (.lift x >>= f) = Reader.lift (x >>= g) := by
  cases x with
  | error e => rfl
  | ok a => exact h a rfl

theorem indexChecked_bind {β : Type} (h : bytes[i]? = some b) (f : UInt8 → Reader β) :
    (indexChecked i bytes >>= f) = f b := by
  have : indexChecked i bytes = .lift (.ok b) := by rw [indexChecked, h]; rfl
  rw [this]
  rfl

/-- **No access is out of bounds.** -/
theorem fromBlobChecked_eq (blob : Bytes) : (fromBlobChecked blob).run =
    some (SealedSecret.fromBlob blob) := by
  suffices h : fromBlobChecked blob = .lift (SealedSecret.fromBlob blob) by rw [h]; rfl
  simp only [fromBlobChecked, SealedSecret.fromBlob, takeChecked_eq]
  refine Reader.bind_congr ?_
  rintro ⟨magic, rest⟩ _
  refine Reader.bind_congr fun _ _ => ?_
  refine Reader.bind_congr ?_
  rintro ⟨kekIdLen, rest⟩ hlen
  obtain ⟨b, rfl⟩ := List.length_eq_one_iff.mp (take_eq_ok.mp hlen).1
  rw [indexChecked_bind rfl]
  have hb : ofBigEndian [b] = b.toNat := by rw [ofBigEndian]; simp
  rw [← hb]
  refine Reader.bind_congr ?_
  rintro ⟨kekId, rest⟩ _
  refine Reader.bind_congr fun kekId _ => ?_
  refine Reader.bind_congr ?_
  rintro ⟨dekNonce, rest⟩ _
  refine Reader.bind_congr ?_
  rintro ⟨dekLen, rest⟩ hlen
  obtain ⟨b₀, b₁, rfl⟩ := List.length_eq_two.mp (take_eq_ok.mp hlen).1
  rw [indexChecked_bind rfl, indexChecked_bind rfl]
  refine Reader.bind_congr ?_
  rintro ⟨wrappedDek, rest⟩ _
  refine Reader.bind_congr ?_
  rintro ⟨nonce, rest⟩ _
  refine Reader.bind_congr fun _ _ => ?_
  rfl

/-! ### The format -/

variable {x : SealedSecret} {blob : Bytes}

theorem toBlob_eq_ok :
    x.toBlob = .ok blob ↔ (utf8 x.kekId).length ≤ 255 ∧ x.wrappedDek.length ≤ 65535 ∧
      blob = dataMagic ++ (bigEndian 1 (utf8 x.kekId).length ++ (utf8 x.kekId ++ (x.dekNonce ++
        (bigEndian 2 x.wrappedDek.length ++ (x.wrappedDek ++ (x.nonce ++ x.ciphertext)))))) := by
  rw [SealedSecret.toBlob, ensure_bind_eq_ok, ensure_bind_eq_ok]
  exact and_congr_right fun _ => and_congr_right fun _ =>
    ⟨fun h => (Except.ok.inj h).symm, fun h => h ▸ rfl⟩

/-- **What is accepted is a blob of what is returned.** -/
theorem toBlob_of_fromBlob (h : SealedSecret.fromBlob blob = .ok x) :
    x.toBlob = .ok blob := by
  unfold SealedSecret.fromBlob at h
  obtain ⟨⟨magic, rest⟩, hmagic, h⟩ := bind_eq_ok.mp h
  obtain ⟨heq, h⟩ := ensure_bind_eq_ok.mp h
  obtain ⟨⟨kekIdLen, rest⟩, hidLen, h⟩ := bind_eq_ok.mp h
  obtain ⟨⟨kekId, rest⟩, hid, h⟩ := bind_eq_ok.mp h
  obtain ⟨text, htext, h⟩ := bind_eq_ok.mp h
  obtain ⟨⟨dekNonce, rest⟩, hdekNonce, h⟩ := bind_eq_ok.mp h
  obtain ⟨⟨dekLen, rest⟩, hdekLen, h⟩ := bind_eq_ok.mp h
  obtain ⟨⟨wrappedDek, rest⟩, hwrapped, h⟩ := bind_eq_ok.mp h
  obtain ⟨⟨nonce, rest⟩, hnonce, h⟩ := bind_eq_ok.mp h
  obtain ⟨-, h⟩ := ensure_bind_eq_ok.mp h
  cases h
  rw [take_eq_ok] at hmagic hidLen hid hdekNonce hdekLen hwrapped hnonce
  have hkekId : utf8 text = kekId := utf8_of_fromUtf8 (okOr_eq_ok.mp htext)
  obtain ⟨b, rfl⟩ := List.length_eq_one_iff.mp hidLen.1
  obtain ⟨b₀, b₁, rfl⟩ := List.length_eq_two.mp hdekLen.1
  have hb : ofBigEndian [b] < 256 := by
    have := b.toNat_lt
    simp [ofBigEndian, this]
  have hb₀ : ofBigEndian [b₀, b₁] < 65536 := by
    have := b₀.toNat_lt
    have := b₁.toNat_lt
    simp only [ofBigEndian, List.foldl_cons, List.foldl_nil]
    omega
  refine toBlob_eq_ok.mpr ⟨?_, ?_, ?_⟩
  · rw [hkekId, hid.1]
    omega
  · rw [hwrapped.1]
    omega
  · dsimp only
    rw [hkekId, hid.1, hwrapped.1, bigEndian_ofBigEndian hidLen.1, bigEndian_ofBigEndian hdekLen.1,
      ← heq, hmagic.2, hidLen.2, hid.2, hdekNonce.2, hdekLen.2, hwrapped.2, hnonce.2]

/-! ### The id of the key-encryption key -/

theorem length_utf8EncodeChar_hexDigit (n : ℕ) :
    (String.utf8EncodeChar (hexDigit n)).length = 1 := by
  have hdigits : ∀ c ∈ '0' :: "0123456789abcdef".toList, (String.utf8EncodeChar c).length = 1 :=
    List.all_iff_forall_prop.mp (by decide)
  apply hdigits
  rw [hexDigit, List.getD_eq_getElem?_getD]
  cases h : "0123456789abcdef".toList[n]? with
  | none => exact List.mem_cons_self
  | some c => exact List.mem_cons_of_mem _ (List.mem_of_getElem? h)

theorem length_utf8_push (s : String) (c : Char) :
    (utf8 (s.push c)).length = (utf8 s).length + (String.utf8EncodeChar c).length := by
  rw [utf8_eq_flatMap, utf8_eq_flatMap, String.toList_push, List.flatMap_append, List.length_append]
  simp

theorem length_utf8_hex (l : Bytes) : (utf8 (hex l)).length = 2 * l.length := by
  have hfold : ∀ s : String, (utf8 (l.foldl (fun out b =>
      (out.push (hexDigit (b.toNat / 16))).push (hexDigit (b.toNat % 16))) s)).length =
        (utf8 s).length + 2 * l.length := by
    induction l with
    | nil => exact fun _ => rfl
    | cons b l ih =>
      intro s
      rw [List.foldl_cons, ih, length_utf8_push, length_utf8_push, length_utf8EncodeChar_hexDigit,
        length_utf8EncodeChar_hexDigit, List.length_cons]
      omega
  have h := hfold ""
  rw [show (utf8 "").length = 0 by decide, Nat.zero_add] at h
  exact h

theorem MasterKey.length_kekId (m : MasterKey hkdf) : (utf8 m.kekId).length = 32 := by
  rw [m.kekId_eq, length_utf8_hex, (hkdf m.kek hkdfKekId 16).2]

/-! ### Sealing and opening -/

/-- The cipher encrypts messages of these sizes, decrypts what it has encrypted, and adds a tag. -/
structure Correct (aes : Cipher) : Prop where
  encrypts : ∀ {k n a p : Bytes}, k.length = keyLen → n.length = nonceLen → p.length ≤ maxDataLen →
    (aes.encrypt k n a p).isSome
  decrypts : ∀ {k n a p c : Bytes}, aes.encrypt k n a p = some c → aes.decrypt k n a c = some p
  length : ∀ {k n a p c : Bytes}, aes.encrypt k n a p = some c → c.length = p.length + tagLen

section

variable {tryParse : String → Option Uuid} {aes : Cipher} {m : MasterKey hkdf} {rng : Random}

variable {authorized : Except VaultError PUnit} {req : SealDataRequest} {p : Bytes} {aad : Aad}

/-- What `SealData` has done. -/
theorem handleSeal_eq_ok (h : handleSeal tryParse aes m authorized rng req = .ok blob) :
    ∃ b x, binding tryParse req.tenantId req.purpose req.subjectId = .ok b ∧
      req.plaintext.length ≤ maxDataLen ∧ m.sealWith aes rng req.plaintext b.aad = .ok x ∧
      x.toBlob = .ok blob := by
  unfold handleSeal at h
  obtain ⟨_, -, h⟩ := bind_eq_ok.mp h
  obtain ⟨b, hbinding, h⟩ := bind_eq_ok.mp h
  obtain ⟨hsize, h⟩ := ensure_bind_eq_ok.mp h
  obtain ⟨x, hseal, hblob⟩ := bind_eq_ok.mp (mapError_eq_ok.mp h)
  exact ⟨b, x, hbinding, hsize.2, hseal, hblob⟩

section

variable (haes : Correct aes) (hseal : m.sealWith aes rng p aad = .ok x)
include haes hseal

/-- What was sealed is read back from its blob. -/
theorem Correct.fromBlob (hblob : x.toBlob = .ok blob) : SealedSecret.fromBlob blob = .ok x := by
  obtain ⟨dek, nonce, dekNonce, -, hc, -, -, hdn, hn⟩ := MasterKey.sealWith_eq_ok hseal
  refine SealedSecret.fromBlob_toBlob hblob (by rw [hdn, dekNonce.2]) (by rw [hn, nonce.2]) ?_
  rw [haes.length hc]
  exact Nat.le_add_left _ _

/-- What was sealed opens. -/
theorem Correct.openWith : m.openWith aes x aad = .ok p := by
  obtain ⟨dek, nonce, dekNonce, -, hc, hw, hid, hdn, hn⟩ := MasterKey.sealWith_eq_ok hseal
  refine MasterKey.openWith_eq_ok.mpr ⟨hid, by rw [hdn, dekNonce.2], by rw [hn, nonce.2], dek,
    ?_, dek.2, ?_⟩
  · rw [hdn]
    exact haes.decrypts hw
  · rw [hn]
    exact haes.decrypts hc

/-- **The sizes fit**: the blob of data that may be sealed is not too long to be opened. -/
theorem Correct.length_blob (hblob : x.toBlob = .ok blob) (hp : p.length ≤ maxDataLen) :
    blob ≠ [] ∧ blob.length ≤ maxSealedLen := by
  obtain ⟨dek, nonce, dekNonce, -, hc, hw, -, hdn, hn⟩ := MasterKey.sealWith_eq_ok hseal
  obtain ⟨hid, -, rfl⟩ := toBlob_eq_ok.mp hblob
  have hmagic : dataMagic.length = 4 := by decide
  have hlen := haes.length hc
  have hwlen := haes.length hw
  have hdek := dek.2
  have hnonce := nonce.2
  have hdekNonce := dekNonce.2
  constructor
  · intro h
    have := (List.append_eq_nil_iff.mp h).1
    exact absurd this (by decide)
  · simp only [List.length_append, length_bigEndian, hmagic, hdn, hn, hlen, hwlen, hdek,
      hnonce, hdekNonce]
    unfold maxSealedLen maxDataLen at *
    unfold keyLen nonceLen tagLen
    omega

end

/-- **What was sealed can be opened**, under the same binding. -/
theorem handleOpen_sealed (haes : Correct aes)
    (h : handleSeal tryParse aes m authorized rng req = .ok blob) :
    handleOpen tryParse aes m (.ok ⟨⟩) ⟨req.tenantId, req.purpose, req.subjectId, blob⟩ =
    .ok req.plaintext := by
  obtain ⟨b, x, hbinding, hsize, hseal, hblob⟩ := handleSeal_eq_ok h
  have hopen : m.openData aes blob b = .ok req.plaintext :=
    bind_eq_ok.mpr ⟨x, haes.fromBlob hseal hblob, haes.openWith hseal⟩
  unfold handleOpen
  rw [ok_bind, hbinding, ok_bind, ensure_of (haes.length_blob hseal hblob hsize), ok_bind, hopen]
  rfl

/-- What `SealData` accepts it seals, if there is randomness. -/
theorem succeeds_handleSeal (haes : Correct aes)
    (hbinding : binding tryParse req.tenantId req.purpose req.subjectId = .ok b)
    (hsize : req.plaintext ≠ [] ∧ req.plaintext.length ≤ maxDataLen) (dek : Fixed keyLen)
    (nonce dekNonce : Fixed nonceLen) :
    Succeeds (handleSeal tryParse aes m (.ok ⟨⟩) ⟨some dek, some nonce, some dekNonce⟩ req) := by
  obtain ⟨c, hc⟩ := Option.isSome_iff_exists.mp
    (haes.encrypts (a := b.aad.secret) dek.2 nonce.2 hsize.2)
  obtain ⟨w, hw⟩ := Option.isSome_iff_exists.mp
    (haes.encrypts (k := m.kek) (a := b.aad.dek) (p := dek) m.kek.2
    dekNonce.2 (by rw [dek.2]; decide))
  have hseal : m.sealWith aes ⟨some dek, some nonce, some dekNonce⟩ req.plaintext b.aad =
      .ok ⟨m.kekId, w, dekNonce, c, nonce⟩ := by
    simp only [MasterKey.sealWith, okOr, ok_bind, hc, hw]
    rfl
  obtain ⟨blob, hblob⟩ : ∃ blob, SealedSecret.toBlob ⟨m.kekId, w, dekNonce, c, nonce⟩ = .ok blob :=
    ⟨_, toBlob_eq_ok.mpr ⟨by rw [m.length_kekId]; decide,
      by rw [haes.length hw, dek.2]; decide, rfl⟩⟩
  refine ⟨blob, ?_⟩
  unfold handleSeal
  rw [ok_bind, hbinding, ok_bind, ensure_of hsize, ok_bind, MasterKey.sealData, hseal,
    ok_bind, hblob]
  rfl

/-- **Sealed data is opened as it was sealed.** The format of blobs is exact and read within bounds;
and what `SealData` accepts it seals into a blob that `OpenData` opens. -/
theorem sealed_data_round_trip (tryParse : String → Option Uuid) (haes : Correct aes)
    (m : MasterKey hkdf) :
    (∀ x : SealedSecret, (utf8 x.kekId).length ≤ 255 → x.dekNonce.length = nonceLen →
      x.nonce.length = nonceLen → x.wrappedDek.length ≤ 65535 → tagLen ≤ x.ciphertext.length →
      ∃ blob, x.toBlob = .ok blob ∧ SealedSecret.fromBlob blob = .ok x) ∧
    (∀ blob x, SealedSecret.fromBlob blob = .ok x → x.toBlob = .ok blob) ∧
    (∀ blob, (fromBlobChecked blob).run = some (SealedSecret.fromBlob blob)) ∧
    (∀ req b, binding tryParse req.tenantId req.purpose req.subjectId = .ok b →
      req.plaintext ≠ [] ∧ req.plaintext.length ≤ maxDataLen → ∀ dek nonce dekNonce,
      Succeeds (handleSeal tryParse aes m (.ok ⟨⟩) ⟨some dek, some nonce, some dekNonce⟩ req)) ∧
    (∀ authorized rng req blob, handleSeal tryParse aes m authorized rng req = .ok blob →
      handleOpen tryParse aes m (.ok ⟨⟩) ⟨req.tenantId, req.purpose, req.subjectId, blob⟩ =
        .ok req.plaintext) := by
  refine ⟨fun x hid hdn hn hw hc => ?_, fun _ _ => toBlob_of_fromBlob, fromBlobChecked_eq,
    fun _ _ => succeeds_handleSeal haes, fun _ _ _ _ => handleOpen_sealed haes⟩
  have hblob := toBlob_eq_ok.mpr ⟨hid, hw, rfl⟩
  exact ⟨_, hblob, SealedSecret.fromBlob_toBlob hblob hdn hn hc⟩

end

/-- A cipher that adds an empty tag. -/
def padding : Cipher where
  encrypt _ _ _ p := some (p ++ List.replicate tagLen 0)
  decrypt _ _ _ c := some (c.take (c.length - tagLen))

theorem correct_padding : Correct padding where
  encrypts _ _ _ := rfl
  decrypts h := by
    cases h
    simp [padding]
  length h := by
    cases h
    simp

/-- Two bytes, under a cipher that only pads. -/
theorem sealed_data_round_trip_padding :
    handleOpen (fun _ => some 1) padding
    (MasterKey.fromKeyBytes (fun _ _ n => fill n 0) (fill 32 0)) (.ok ⟨⟩)
      ⟨"t", "mcp.oauth-tokens", "integration-1", (handleSeal (fun _ => some 1) padding
        (MasterKey.fromKeyBytes (fun _ _ n => fill n 0) (fill 32 0)) (.ok ⟨⟩)
        ⟨some (fill 32 1), some (fill 12 2), some (fill 12 3)⟩
        ⟨"t", "mcp.oauth-tokens", "integration-1", [7, 8]⟩).toOption.getD []⟩ = .ok [7, 8] := by
  have hround := sealed_data_round_trip (fun _ => some 1) correct_padding
    (MasterKey.fromKeyBytes (fun _ _ n => fill n 0) (fill 32 0))
  obtain ⟨-, -, -, hseal, hopen⟩ := hround
  obtain ⟨blob, hblob⟩ := hseal ⟨"t", "mcp.oauth-tokens", "integration-1", [7, 8]⟩ _ rfl (by decide)
    (fill 32 1) (fill 12 2) (fill 12 3)
  rw [hblob]
  exact hopen _ _ _ _ hblob

end Jarvis.Vault

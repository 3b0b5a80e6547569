import Jarvis.Vault.Crypto

/-!
# The Vault: what a sealed value is bound to

The four associated data of an envelope (of the data key and of the secret, for a stored provider
key and for sealed data) are different for all owners and bindings that the service admits, and none
of one use is one of another. So if AES-GCM is ideal a sealed value opens only with the
key-encryption key, as the kind and for the owner or binding with which it was sealed.
-/

namespace Jarvis.Vault

open Encoding

/-! ### Associated data -/

/-- The layers of an envelope. -/
inductive Layer where
  | dek
  | secret
  deriving DecidableEq

def Aad.layer (a : Aad) : Layer → Bytes
  | .dek => a.dek
  | .secret => a.secret

/-- The kinds of sealed values: a stored provider key, and sealed data. -/
inductive Kind where
  | key
  | data
  deriving DecidableEq

/-- The labels of the four uses. -/
def label : Kind → Layer → Bytes
  | .key, .dek => aadDek
  | .key, .secret => aadSecret
  | .data, .dek => aadDataDek
  | .data, .secret => aadData

theorem zero_not_mem_label (k : Kind) (l : Layer) : 0 ∉ label k l := by
  cases k <;> cases l <;> decide

variable {l l' : Layer}

theorem label_injective (h : label k l = label k' l') :
    k = k' ∧ l = l' := by
  cases k <;> cases k' <;> cases l <;> cases l' <;>
    first | exact ⟨rfl, rfl⟩ | exact absurd h (by decide)

/-- What a sealed value belongs to. -/
inductive Holder where
  | key (owner : SecretOwner)
  | data (binding : DataBinding)
  deriving DecidableEq

namespace Holder

def aad : Holder → Aad
  | .key o => o.aad
  | .data b => b.aad

def kind : Holder → Kind
  | .key _ => .key
  | .data _ => .data

/-- The associated data after the label. -/
def tail : Holder → Bytes
  | .key o => o.tenantId.asBytes ++ (o.keyId.asBytes ++ utf8 o.provider.asStr)
  | .data b => b.tenantId.asBytes ++
      ((bigEndian 1 (min (utf8 b.purpose).length 255) ++ utf8 b.purpose) ++
        (bigEndian 2 (min (utf8 b.subjectId).length 65535) ++ utf8 b.subjectId))

theorem layer_aad (h : Holder) (l : Layer) :
    h.aad.layer l = (label h.kind l ++ [0]) ++ h.tail := by
  cases h <;> cases l <;>
    simp only [aad, kind, label, tail, Aad.layer, SecretOwner.aad, SecretOwner.associatedData,
      DataBinding.aad, DataBinding.encode, List.append_assoc]

/-- The lengths that the service admits. -/
def Bounded : Holder → Prop
  | .key _ => True
  | .data b => (utf8 b.purpose).length ≤ maxPurposeLen ∧ (utf8 b.subjectId).length ≤ maxSubjectLen

/-- The service works for every owner, and for the bindings that pass its checks. -/
def Admitted (tryParse : String → Option Uuid) : Holder → Prop
  | .key _ => True
  | .data b => ∃ tenantId purpose subjectId, binding tryParse tenantId purpose subjectId = .ok b

theorem Admitted.bounded {tryParse : String → Option Uuid} :
    ∀ {h : Holder}, h.Admitted tryParse → h.Bounded
  | .key _, _ => trivial
  | .data _, ⟨_, _, _, h⟩ => binding_bounded h

end Holder

theorem Provider.asStr_injective : Function.Injective Provider.asStr := by
  intro p q h
  cases p <;> cases q <;> first | rfl | exact absurd h (by decide)

theorem SecretOwner.eq_of_tail (h : (Holder.key o).tail = (Holder.key o').tail) :
    o = o' := by
  obtain ⟨ht, h⟩ := Uuid.delimited_asBytes trivial trivial h
  obtain ⟨hk, h⟩ := Uuid.delimited_asBytes trivial trivial h
  have hp := Provider.asStr_injective (utf8_injective h)
  cases o
  cases o'
  exact congr (congr (congrArg _ ht) hk) hp

/-- A text with its length in front, in so many bytes. -/
theorem delimited_text (k : ℕ) :
    Delimited {s : String | (utf8 s).length < 256 ^ k} fun s =>
      bigEndian k (utf8 s).length ++ utf8 s :=
  (delimited_bigEndian k).prefixed.comap utf8_injective.injOn fun _ hs => hs

theorem DataBinding.eq_of_tail (hb : (Holder.data b).Bounded) (hb' : (Holder.data b').Bounded)
    (h : (Holder.data b).tail = (Holder.data b').tail) : b = b' := by
  simp only [Holder.Bounded, maxPurposeLen, maxSubjectLen] at hb hb'
  simp only [Holder.tail] at h
  -- the lengths fit, so that none of them is cut
  rw [min_eq_left (by omega), min_eq_left (by omega), min_eq_left (by omega),
    min_eq_left (by omega)] at h
  obtain ⟨ht, h⟩ := Uuid.delimited_asBytes trivial trivial h
  have hpurpose (s : String) (hs : (utf8 s).length ≤ 64) : (utf8 s).length < 256 ^ 1 := by omega
  have hsubject (s : String) (hs : (utf8 s).length ≤ 128) : (utf8 s).length < 256 ^ 2 := by omega
  obtain ⟨hp, h⟩ := delimited_text 1 (hpurpose _ hb.1) (hpurpose _ hb'.1) h
  have hs := (delimited_text 2).injOn (hsubject _ hb.2) (hsubject _ hb'.2) h
  cases b
  cases b'
  exact congr (congr (congrArg _ ht) hp) hs

/-- Associated data are of one layer of one holder. -/
theorem Holder.layer_aad_injective {h h' : Holder} (hb : h.Bounded) (hb' : h'.Bounded)
    (heq : h.aad.layer l = h'.aad.layer l') : l = l' ∧ h = h' := by
  rw [layer_aad, layer_aad] at heq
  obtain ⟨hlabel, htail⟩ :=
    delimited_terminated 0 (zero_not_mem_label h.kind l) (zero_not_mem_label h'.kind l') heq
  obtain ⟨hkind, hl⟩ := label_injective hlabel
  refine ⟨hl, ?_⟩
  cases h with
  | key o =>
    cases h' with
    | key o' => exact congrArg _ (SecretOwner.eq_of_tail htail)
    | data b => cases hkind
  | data b =>
    cases h' with
    | key o => cases hkind
    | data b' => exact congrArg _ (DataBinding.eq_of_tail hb hb' htail)

/-! ### Blobs -/

theorem take_append {n : ℕ} {l r : Bytes} (h : l.length = n) : take n (l ++ r) = .ok (l, r) := by
  rw [take, if_neg (by rw [List.length_append]; omega), List.splitAt_eq, ← h, List.take_left,
    List.drop_left]

theorem SealedSecret.fromBlob_toBlob {x : SealedSecret} {blob : Bytes} (h : x.toBlob = .ok blob)
    (hdek : x.dekNonce.length = nonceLen) (hn : x.nonce.length = nonceLen)
    (hc : tagLen ≤ x.ciphertext.length) : fromBlob blob = .ok x := by
  obtain ⟨_, hid, h⟩ := bind_eq_ok.mp h
  obtain ⟨_, hw, h⟩ := bind_eq_ok.mp h
  cases h
  rw [ensure_eq_ok] at hid hw
  have hid' : ofBigEndian (bigEndian 1 (utf8 x.kekId).length) = (utf8 x.kekId).length :=
    ofBigEndian_bigEndian (by omega)
  have hw' : ofBigEndian (bigEndian 2 x.wrappedDek.length) = x.wrappedDek.length :=
    ofBigEndian_bigEndian (by omega)
  rw [fromBlob, take_append (show dataMagic.length = 4 by decide), ok_bind]
  dsimp only
  rw [ensure_of rfl, ok_bind, take_append (length_bigEndian 1 _), ok_bind]
  dsimp only
  rw [hid', take_append rfl, ok_bind]
  dsimp only
  rw [fromUtf8_utf8, okOr, ok_bind, take_append hdek, ok_bind]
  dsimp only
  rw [take_append (length_bigEndian 2 _), ok_bind]
  dsimp only
  rw [hw', take_append rfl, ok_bind]
  dsimp only
  rw [take_append hn, ok_bind]
  dsimp only
  rw [ensure_of hc, ok_bind]
  rfl

/-! ### Sealing and opening -/

section

variable {hkdf : Hkdf} {aes : Cipher}

theorem MasterKey.sealWith_eq_ok {m : MasterKey hkdf} {rng : Random} {plaintext : Bytes} {aad : Aad}
    {x : SealedSecret} (h : m.sealWith aes rng plaintext aad = .ok x) :
    ∃ dek nonce dekNonce, rng = ⟨some dek, some nonce, some dekNonce⟩ ∧
      aes.encrypt dek nonce aad.secret plaintext = some x.ciphertext ∧
      aes.encrypt m.kek dekNonce aad.dek dek = some x.wrappedDek ∧
      x.kekId = m.kekId ∧ x.dekNonce = dekNonce ∧ x.nonce = nonce := by
  obtain ⟨dek, hdek, h⟩ := bind_eq_ok.mp h
  obtain ⟨nonce, hnonce, h⟩ := bind_eq_ok.mp h
  obtain ⟨c, hc, h⟩ := bind_eq_ok.mp h
  obtain ⟨dekNonce, hdekNonce, h⟩ := bind_eq_ok.mp h
  obtain ⟨w, hw, h⟩ := bind_eq_ok.mp h
  cases h
  rw [okOr_eq_ok] at hdek hnonce hc hdekNonce hw
  cases rng
  cases hdek
  cases hnonce
  cases hdekNonce
  exact ⟨dek, nonce, dekNonce, rfl, hc, hw, rfl, rfl, rfl⟩

theorem MasterKey.openWith_eq_ok {m : MasterKey hkdf} {x : SealedSecret} {aad : Aad} {p : Bytes} :
    m.openWith aes x aad = .ok p ↔
      x.kekId = m.kekId ∧ x.dekNonce.length = nonceLen ∧ x.nonce.length = nonceLen ∧
      ∃ dek, aes.decrypt m.kek x.dekNonce aad.dek x.wrappedDek = some dek ∧ dek.length = keyLen ∧
        aes.decrypt dek x.nonce aad.secret x.ciphertext = some p := by
  simp only [openWith, bind_eq_ok, ensure_eq_ok, okOr_eq_ok, exists_const]

/-- A call of `seal_with`. -/
structure Sealing (hkdf : Hkdf) where
  master : MasterKey hkdf
  rng : Random
  plaintext : Bytes
  holder : Holder

/-- The encryptions that a call makes, if it comes so far. -/
inductive Sealing.Makes (aes : Cipher) (s : Sealing hkdf) :
    Encryption Bytes Bytes Bytes Bytes Bytes → Prop where
  | secret (hdek : s.rng.dek = some dek) (hnonce : s.rng.nonce = some nonce)
      (h : aes.encrypt dek nonce (s.holder.aad.layer .secret) s.plaintext = some c) :
      Makes aes s ⟨dek, nonce, s.holder.aad.layer .secret, s.plaintext, c⟩
  | wrap (hdek : s.rng.dek = some dek) (hnonce : s.rng.dekNonce = some dekNonce)
      (h : aes.encrypt s.master.kek dekNonce (s.holder.aad.layer .dek) dek = some w) :
      Makes aes s ⟨s.master.kek, dekNonce, s.holder.aad.layer .dek, dek, w⟩

variable {s : Sealing hkdf}

/-- Which of the two it is, by its associated data. -/
theorem Sealing.Makes.of_ad {e : Encryption Bytes Bytes Bytes Bytes Bytes} (he : s.Makes aes e)
    {h : Holder} {l : Layer} (hs : s.holder.Bounded) (hh : h.Bounded) (had : e.ad = h.aad.layer l) :
    s.holder = h ∧ match l with
      | .secret => s.rng.dek.map Subtype.val = some e.key ∧ s.plaintext = e.message
      | .dek => s.master.kek = e.key ∧ s.rng.dek.map Subtype.val = some e.message := by
  cases he with
  | secret hdek _ _ =>
    obtain ⟨rfl, rfl⟩ := Holder.layer_aad_injective (l := .secret) hs hh had
    exact ⟨rfl, by rw [hdek]; rfl, rfl⟩
  | wrap hdek _ _ =>
    obtain ⟨rfl, rfl⟩ := Holder.layer_aad_injective (l := .dek) hs hh had
    exact ⟨rfl, rfl, by rw [hdek]; rfl⟩

/-- The encryptions that calls make. -/
def made (aes : Cipher) (ss : List (Sealing hkdf))
    (x : Encryption Bytes Bytes Bytes Bytes Bytes) : Prop :=
  ∃ s ∈ ss, s.Makes aes x

variable {ss : List (Sealing hkdf)} {m : MasterKey hkdf} {h : Holder} {x : SealedSecret} {p : Bytes}

/-- What a call sealed opens with its key-encryption key, for its holder, and not otherwise. -/
theorem openWith_sealed (hideal : aes.Ideal (made aes ss)) (hs : s ∈ ss) (hb : s.holder.Bounded)
    (hh : h.Bounded) (hx : s.master.sealWith aes s.rng s.plaintext s.holder.aad = .ok x) :
    m.openWith aes x h.aad = .ok p ↔ m.kek = s.master.kek ∧ h = s.holder ∧ p = s.plaintext := by
  obtain ⟨dek, nonce, dekNonce, hrng, hsecret, hwrap, hid, hdn, hn⟩ := MasterKey.sealWith_eq_ok hx
  have hmw : made aes ss ⟨s.master.kek, dekNonce, s.holder.aad.layer .dek, dek, x.wrappedDek⟩ :=
    ⟨s, hs, .wrap (by rw [hrng]) (by rw [hrng]) hwrap⟩
  have hms : made aes ss ⟨dek, nonce, s.holder.aad.layer .secret, s.plaintext, x.ciphertext⟩ :=
    ⟨s, hs, .secret (by rw [hrng]) (by rw [hrng]) hsecret⟩
  rw [MasterKey.openWith_eq_ok]
  constructor
  · rintro ⟨-, -, -, dek', hd, -, hp⟩
    obtain ⟨hkek, -, haad, rfl⟩ := (hideal.decrypt_made hmw).mp hd
    obtain ⟨-, -, -, rfl⟩ := (hideal.decrypt_made hms).mp hp
    have haad : h.aad.layer .dek = s.holder.aad.layer .dek := haad
    exact ⟨Subtype.ext hkek, (Holder.layer_aad_injective hh hb haad).2, rfl⟩
  · rintro ⟨hkek, rfl, rfl⟩
    refine ⟨?_, by rw [hdn, dekNonce.2], by rw [hn, nonce.2], dek, ?_, dek.2, ?_⟩
    · rw [hid, s.master.kekId_eq, m.kekId_eq, hkek]
    · rw [hkek, hdn]
      exact hideal.correct hmw
    · rw [hn]
      exact hideal.correct hms

/-- What opens for a holder is what was sealed for it, with the data key that was sealed with this
key-encryption key. -/
theorem of_openWith (hideal : aes.Ideal (made aes ss)) (hss : ∀ s ∈ ss, s.holder.Bounded)
    (hh : h.Bounded) (ho : m.openWith aes x h.aad = .ok p) :
    ∃ s ∈ ss, s.master.kek = m.kek ∧ s.holder = h ∧
      ∃ s' ∈ ss, s'.holder = h ∧ s'.rng.dek = s.rng.dek ∧ s'.plaintext = p := by
  obtain ⟨-, -, -, dek, hd, -, hp⟩ := MasterKey.openWith_eq_ok.mp ho
  obtain ⟨s, hs, hwrap⟩ := hideal.authentic hd
  obtain ⟨s', hs', hsecret⟩ := hideal.authentic hp
  obtain ⟨rfl, hkek, hdek⟩ := hwrap.of_ad (l := .dek) (hss s hs) hh rfl
  obtain ⟨hholder, hdek', hp⟩ := hsecret.of_ad (l := .secret) (hss s' hs') hh rfl
  refine ⟨s, hs, Subtype.ext hkek, rfl, s', hs', hholder, ?_, hp⟩
  exact Option.map_injective Subtype.val_injective (hdek'.trans hdek.symm)

/-! ### Sealed values -/

/-- A sealed value: a row of the Vault, or a blob that a caller keeps. -/
inductive Sealed where
  | row (x : SealedSecret)
  | blob (bytes : Bytes)

/-- Sealing, for a holder of either kind. -/
def Sealing.result (aes : Cipher) (s : Sealing hkdf) : Except CryptoError Sealed :=
  match s.holder with
  | .key o => do return .row (← s.master.seal' aes s.rng s.plaintext o)
  | .data b => do return .blob (← s.master.sealData aes s.rng s.plaintext b)

/-- Opening, as a holder of either kind; a row is opened as data through its blob, and a blob as a
provider key through the secret it holds. -/
def MasterKey.openAs (aes : Cipher) (m : MasterKey hkdf) : Sealed → Holder →
    Except CryptoError Bytes
  | .row x, .key o => m.open' aes x o
  | .row x, .data b => do m.openData aes (← x.toBlob) b
  | .blob l, .key o => do m.open' aes (← SealedSecret.fromBlob l) o
  | .blob l, .data b => m.openData aes l b

/-- The secret that opening reads out of a sealed value. -/
def Sealed.read : Sealed → Kind → Except CryptoError SealedSecret
  | .row x, .key => .ok x
  | .row x, .data => do SealedSecret.fromBlob (← x.toBlob)
  | .blob l, _ => SealedSecret.fromBlob l

theorem openAs_eq_ok :
    m.openAs aes v h = .ok p ↔ ∃ x, v.read h.kind = .ok x ∧ m.openWith aes x h.aad = .ok p := by
  cases v <;> cases h <;>
    simp only [MasterKey.openAs, MasterKey.open', MasterKey.openData, Sealed.read, Holder.kind,
      Holder.aad, bind_eq_ok, Except.ok.injEq, exists_eq_left']
  exact ⟨fun ⟨l, hl, x, hx, ho⟩ => ⟨x, ⟨l, hl, hx⟩, ho⟩, fun ⟨x, ⟨l, hl, hx⟩, ho⟩ =>
    ⟨l, hl, x, hx, ho⟩⟩

section

variable (htag : ∀ {k n a p c}, aes.encrypt k n a p = some c → c.length = p.length + tagLen)

include htag

/-- A blob of what was sealed holds just that. -/
theorem fromBlob_sealed {rng : Random} {aad : Aad} {l : Bytes}
    (hx : m.sealWith aes rng p aad = .ok x) (hl : x.toBlob = .ok l) :
    SealedSecret.fromBlob l = .ok x := by
  obtain ⟨dek, nonce, dekNonce, -, hc, -, -, hdn, hn⟩ := MasterKey.sealWith_eq_ok hx
  refine SealedSecret.fromBlob_toBlob hl (by rw [hdn, dekNonce.2]) (by rw [hn, nonce.2]) ?_
  rw [htag hc]
  exact Nat.le_add_left _ _

/-- A sealed value holds what was sealed, and can be read as no other secret. -/
theorem Sealing.read_result {s : Sealing hkdf} {v : Sealed} (hv : s.result aes = .ok v) :
    ∃ x, s.master.sealWith aes s.rng s.plaintext s.holder.aad = .ok x ∧
      v.read s.holder.kind = .ok x ∧ ∀ {k x'}, v.read k = .ok x' → x' = x := by
  unfold Sealing.result at hv
  cases hh : s.holder with
  | key o =>
    rw [hh] at hv
    obtain ⟨x, hx, hv⟩ := bind_eq_ok.mp hv
    cases hv
    refine ⟨x, hx, rfl, fun {k x'} hread => ?_⟩
    cases k with
    | key => exact (Except.ok.inj hread).symm
    | data =>
      obtain ⟨l, hl, hread⟩ := bind_eq_ok.mp hread
      exact Except.ok.inj (hread.symm.trans (fromBlob_sealed htag hx hl))
  | data b =>
    rw [hh] at hv
    obtain ⟨l, hseal, hv⟩ := bind_eq_ok.mp hv
    cases hv
    obtain ⟨x, hx, hl⟩ := bind_eq_ok.mp hseal
    have hread := fromBlob_sealed htag hx hl
    exact ⟨x, hx, hread, fun hread' => Except.ok.inj (hread'.symm.trans hread)⟩

end

/-- The associated data of the four uses are different for everything the service admits. If AES-GCM
is ideal, a sealed value opens with the key-encryption key and as the holder with which it was
sealed, and not otherwise; and whatever opens as a holder was sealed for it. -/
theorem envelope_binding {tryParse : String → Option Uuid} {aes : Cipher} {ss : List (Sealing hkdf)}
    (htag : ∀ {k n a p c}, aes.encrypt k n a p = some c → c.length = p.length + tagLen)
    (hideal : aes.Ideal (made aes ss)) (hss : ∀ s ∈ ss, s.holder.Admitted tryParse) :
    (∀ h h' : Holder, h.Admitted tryParse → h'.Admitted tryParse → ∀ l l' : Layer,
      h.aad.layer l = h'.aad.layer l' → l = l' ∧ h = h') ∧
    (∀ s ∈ ss, ∀ v, s.result aes = .ok v → ∀ (m : MasterKey hkdf) (h : Holder),
      h.Admitted tryParse → ∀ p, m.openAs aes v h = .ok p ↔
        m.kek = s.master.kek ∧ h = s.holder ∧ p = s.plaintext) ∧
    (∀ v (m : MasterKey hkdf) (h : Holder) p, h.Admitted tryParse → m.openAs aes v h = .ok p →
      ∃ s ∈ ss, s.master.kek = m.kek ∧ s.holder = h ∧
        ∃ s' ∈ ss, s'.holder = h ∧ s'.rng.dek = s.rng.dek ∧ s'.plaintext = p) := by
  refine ⟨fun h h' hh hh' l l' => Holder.layer_aad_injective hh.bounded hh'.bounded,
    fun s hs v hv m h hh p => ?_, fun v m h p hh ho => ?_⟩
  · obtain ⟨x, hx, hread, honly⟩ := Sealing.read_result htag hv
    have hiff := openWith_sealed (m := m) (p := p) hideal hs (hss s hs).bounded hh.bounded hx
    rw [openAs_eq_ok]
    constructor
    · rintro ⟨x', hx', ho⟩
      obtain rfl := honly hx'
      exact hiff.mp ho
    · rintro ⟨hm, rfl, hp⟩
      exact ⟨x, hread, hiff.mpr ⟨hm, rfl, hp⟩⟩
  · obtain ⟨x, -, ho⟩ := openAs_eq_ok.mp ho
    exact of_openWith hideal (fun s hs => (hss s hs).bounded) hh.bounded ho

end

/-- The same byte everywhere. -/
def fill (n : ℕ) (b : UInt8) : Fixed n := ⟨List.replicate n b, List.length_replicate⟩

/-- A call that seals the byte `b`, and draws nothing but it. -/
def sealByte (b : UInt8) (h : Holder) : Sealing fun _ _ n => fill n 0 :=
  ⟨.fromKeyBytes _ (fill keyLen 1), ⟨some (fill keyLen b), some (fill nonceLen b),
    some (fill nonceLen b)⟩, [b], h⟩

/-- The encryptions of that call. -/
def encryptions (b : UInt8) (h : Holder) : List (Encryption Bytes Bytes Bytes Bytes Bytes) :=
  [⟨fill keyLen b, fill nonceLen b, h.aad.secret, [b], fill (1 + tagLen) b⟩,
    ⟨fill keyLen 1, fill nonceLen b, h.aad.dek, fill keyLen b, fill (keyLen + tagLen) b⟩]

def someOwner : Holder := .key ⟨1, 7, .openAi⟩

def someBinding : Holder := .data ⟨1, "mcp.oauth-tokens", "integration-1"⟩

/-- AES-GCM, when only a provider key and data are sealed. -/
def aesOfTwo : Cipher := .ofTable (encryptions 2 someOwner ++ encryptions 3 someBinding)

/-- The blob of the data opens for its binding only. -/
theorem envelope_binding_two :
    ∃ v, (sealByte 3 someBinding).result aesOfTwo = .ok v ∧
      ∀ (m : MasterKey fun _ _ n => fill n 0) (h : Holder), h.Admitted (fun _ => some 1) → ∀ p,
        m.openAs aesOfTwo v h = .ok p ↔ m.kek = fill keyLen 1 ∧ h = someBinding ∧ p = [3] := by
  have hideal : aesOfTwo.Ideal (made aesOfTwo [sealByte 2 someOwner, sealByte 3 someBinding]) := by
    refine (Aead.ofTable_ideal (by decide +kernel)).congr fun x => ⟨fun hx => ?_, ?_⟩
    · rcases List.mem_append.mp hx with hx | hx
      · rcases List.mem_cons.mp hx with rfl | hx
        · exact ⟨_, List.mem_cons_self, .secret rfl rfl (by decide +kernel)⟩
        · obtain rfl := List.mem_singleton.mp hx
          exact ⟨_, List.mem_cons_self, .wrap rfl rfl (by decide +kernel)⟩
      · rcases List.mem_cons.mp hx with rfl | hx
        · exact ⟨_, List.mem_cons_of_mem _ List.mem_cons_self, .secret rfl rfl (by decide +kernel)⟩
        · obtain rfl := List.mem_singleton.mp hx
          exact ⟨_, List.mem_cons_of_mem _ List.mem_cons_self, .wrap rfl rfl (by decide +kernel)⟩
    · rintro ⟨s, -, hmakes⟩
      cases hmakes with
      | secret _ _ h | wrap _ _ h => exact Aead.mem_of_ofTable_encrypt h
  have htag : ∀ e ∈ encryptions 2 someOwner ++ encryptions 3 someBinding,
      e.ciphertext.length = e.message.length + tagLen := by decide +kernel
  have hss : ∀ s ∈ [sealByte 2 someOwner, sealByte 3 someBinding],
      s.holder.Admitted fun _ => some 1 := by
    intro s hs
    rcases List.mem_cons.mp hs with rfl | hs
    · trivial
    · obtain rfl := List.mem_singleton.mp hs
      exact ⟨"a", "mcp.oauth-tokens", "integration-1", by decide +kernel⟩
  have hok : ((sealByte 3 someBinding).result aesOfTwo).toBool = true := by decide +kernel
  cases hv : (sealByte 3 someBinding).result aesOfTwo with
  | error e =>
    rw [hv] at hok
    cases hok
  | ok v =>
    exact ⟨v, rfl,
      (envelope_binding (fun h => htag _ (Aead.mem_of_ofTable_encrypt h)) hideal hss).2.1
      _ (List.mem_cons_of_mem _ List.mem_cons_self) v hv⟩

end Jarvis.Vault

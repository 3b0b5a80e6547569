import Mathlib.Data.List.Basic

/-!
# Authenticated encryption with associated data

An encryption is of a message, under a key and a nonce, with associated data that are not in the
ciphertext and have to be given again to decrypt it. An *ideal* one is known by a table of the
encryptions made: a ciphertext decrypts exactly under the key, the nonce and the associated data
with which it was made (nobody else can make one), and no two encryptions have the same ciphertext.

What is ideal is so for the encryptions made. Lengths can stay those of a real one, under which two
ciphertexts of all there could be must collide.
-/

namespace Jarvis

/-- An encryption that was made. -/
structure Encryption (K N A M C : Type*) where
  key : K
  nonce : N
  ad : A
  message : M
  ciphertext : C
  deriving DecidableEq

/-- Authenticated encryption. -/
structure Aead (K N A M C : Type*) where
  encrypt : K → N → A → M → Option C
  decrypt : K → N → A → C → Option M

namespace Aead

variable {K N A M C : Type*}

/-- It is ideal for the encryptions made. -/
structure Ideal (e : Aead K N A M C) (made : Encryption K N A M C → Prop) : Prop where
  correct : ∀ {x}, made x → e.decrypt x.key x.nonce x.ad x.ciphertext = some x.message
  authentic : ∀ {k n a c m}, e.decrypt k n a c = some m → made ⟨k, n, a, m, c⟩
  distinct : ∀ {x y}, made x → made y → x.ciphertext = y.ciphertext → x = y

namespace Ideal

variable {e : Aead K N A M C} {made : Encryption K N A M C → Prop} {k : K} {n : N} {a : A} {c : C}
  {m : M}

theorem decrypt_iff (h : e.Ideal made) : e.decrypt k n a c = some m ↔ made ⟨k, n, a, m, c⟩ :=
  ⟨h.authentic, fun hx => h.correct hx⟩

theorem congr {made' : Encryption K N A M C → Prop} (h : e.Ideal made)
    (hm : ∀ x, made x ↔ made' x) : e.Ideal made' :=
  funext (fun x => propext (hm x)) ▸ h

/-- A ciphertext that was made decrypts as it was made, and not otherwise. -/
theorem decrypt_made (h : e.Ideal made) (hx : made x) :
    e.decrypt k n a x.ciphertext = some m ↔ k = x.key ∧ n = x.nonce ∧ a = x.ad ∧ m = x.message := by
  rw [h.decrypt_iff]
  constructor
  · intro hy
    have hyx := h.distinct hy hx rfl
    exact ⟨congrArg Encryption.key hyx, congrArg Encryption.nonce hyx, congrArg Encryption.ad hyx,
      congrArg Encryption.message hyx⟩
  · rintro ⟨rfl, rfl, rfl, rfl⟩
    exact hx

end Ideal

variable [DecidableEq K] [DecidableEq N] [DecidableEq A] [DecidableEq M] [DecidableEq C]

/-- Encryption that only knows a table. -/
def ofTable (t : List (Encryption K N A M C)) : Aead K N A M C where
  encrypt k n a m :=
    (t.find? fun x => x.key = k ∧ x.nonce = n ∧ x.ad = a ∧ x.message = m).map Encryption.ciphertext
  decrypt k n a c :=
    (t.find? fun x => x.key = k ∧ x.nonce = n ∧ x.ad = a ∧ x.ciphertext = c).map Encryption.message

variable {t : List (Encryption K N A M C)}

theorem mem_of_ofTable_encrypt (h : (ofTable t).encrypt k n a m = some c) :
    ⟨k, n, a, m, c⟩ ∈ t := by
  obtain ⟨x, hx, rfl⟩ := Option.map_eq_some_iff.mp h
  have hp := List.find?_some hx
  obtain ⟨rfl, rfl, rfl, rfl⟩ := of_decide_eq_true hp
  exact List.mem_of_find?_eq_some hx

theorem ofTable_ideal (ht : ∀ x ∈ t, ∀ y ∈ t, x.ciphertext = y.ciphertext → x = y) :
    (ofTable t).Ideal (· ∈ t) where
  authentic := by
    intro k n a c m h
    obtain ⟨x, hx, rfl⟩ := Option.map_eq_some_iff.mp h
    have hp := List.find?_some hx
    obtain ⟨rfl, rfl, rfl, rfl⟩ := of_decide_eq_true hp
    exact List.mem_of_find?_eq_some hx
  correct := by
    intro x hx
    cases hfind : t.find? fun y =>
        y.key = x.key ∧ y.nonce = x.nonce ∧ y.ad = x.ad ∧ y.ciphertext = x.ciphertext with
    | none => simpa using List.find?_eq_none.mp hfind x hx
    | some y =>
      have hp := List.find?_some hfind
      obtain ⟨-, -, -, hc⟩ := of_decide_eq_true hp
      obtain rfl := ht y (List.mem_of_find?_eq_some hfind) x hx hc
      simp only [ofTable, hfind, Option.map_some]
  distinct := fun hx hy => ht _ hx _ hy

end Aead

end Jarvis

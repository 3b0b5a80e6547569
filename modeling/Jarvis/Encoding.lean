import Mathlib.Data.List.Induction
import Mathlib.Tactic.NormNum

/-!
# Encodings that say where they end

An encoding is *delimited* on a set of values when the encoding of one of them, with anything after
it, can be that of no other with anything after it: a reader always knows where the value ends and
which one it was. Then encodings can be written one after the other and nothing is lost.
-/

namespace Jarvis.Encoding

variable {α β γ : Type*}

/-- On `s`, the encoding of a value ends where no other's does. -/
def Delimited (s : Set α) (enc : α → List β) : Prop :=
  ∀ ⦃a⦄, a ∈ s → ∀ ⦃b⦄, b ∈ s → ∀ ⦃r r'⦄, enc a ++ r = enc b ++ r' → a = b ∧ r = r'

/-! ### Putting encodings together -/

namespace Delimited

variable {s : Set α} {enc : α → List β}

theorem injOn (h : Delimited s enc) : Set.InjOn enc s := by
  intro a ha b hb hab
  exact (@h a ha b hb [] [] (by rw [hab])).1

theorem mono (h : Delimited s enc) (hts : t ⊆ s) : Delimited t enc :=
  fun _ ha _ hb _ _ heq => h (hts ha) (hts hb) heq

variable {t : Set γ} {n : Set ℕ} {len : ℕ → List β}

/-- Values that are known by what is encoded of them. -/
theorem comap {f : γ → α} (h : Delimited s enc) (hf : Set.InjOn f t) (hts : Set.MapsTo f t s) :
    Delimited t fun c => enc (f c) := by
  intro a ha b hb r r' heq
  obtain ⟨hab, hr⟩ := h (hts ha) (hts hb) heq
  exact ⟨hf ha hb hab, hr⟩

theorem prod {enc' : γ → List β} (h : Delimited s enc) (h' : Delimited t enc') :
    Delimited (s ×ˢ t) fun p : α × γ => enc p.1 ++ enc' p.2 := by
  rintro ⟨a, c⟩ ⟨ha, hc⟩ ⟨b, d⟩ ⟨hb, hd⟩ r r' heq
  simp only [List.append_assoc] at heq
  obtain ⟨rfl, hrest⟩ := h ha hb heq
  obtain ⟨rfl, rfl⟩ := h' hc hd hrest
  exact ⟨rfl, rfl⟩

/-- Two lists of the same length. -/
theorem flatMap (h : Delimited s enc) :
    ∀ {l l' : List α}, l.length = l'.length → (∀ a ∈ l, a ∈ s) → (∀ a ∈ l', a ∈ s) →
      ∀ {r r' : List β}, l.flatMap enc ++ r = l'.flatMap enc ++ r' → l = l' ∧ r = r'
  | [], [], _, _, _, _, _, heq => ⟨rfl, heq⟩
  | a :: l, b :: l', hlen, hl, hl', r, r', heq => by
    simp only [List.flatMap_cons, List.append_assoc] at heq
    obtain ⟨rfl, hrest⟩ := h (hl a List.mem_cons_self) (hl' b List.mem_cons_self) heq
    obtain ⟨rfl, rfl⟩ := flatMap h (Nat.succ.inj hlen)
      (fun a ha => hl a (List.mem_cons_of_mem _ ha))
      (fun a ha => hl' a (List.mem_cons_of_mem _ ha)) hrest
    exact ⟨rfl, rfl⟩

/-- Lists of any lengths, when nothing is encoded as nothing. -/
theorem flatMap_injective (h : Delimited s enc) (hne : ∀ a ∈ s, enc a ≠ []) :
    ∀ {l l' : List α}, (∀ a ∈ l, a ∈ s) → (∀ a ∈ l', a ∈ s) →
      l.flatMap enc = l'.flatMap enc → l = l'
  | [], [], _, _, _ => rfl
  | [], b :: l', _, hl', heq => by
    rw [List.flatMap_nil, List.flatMap_cons] at heq
    exact (hne b (hl' b List.mem_cons_self) (List.append_eq_nil_iff.mp heq.symm).1).elim
  | a :: l, [], hl, _, heq => by
    rw [List.flatMap_nil, List.flatMap_cons] at heq
    exact (hne a (hl a List.mem_cons_self) (List.append_eq_nil_iff.mp heq).1).elim
  | a :: l, b :: l', hl, hl', heq => by
    rw [List.flatMap_cons, List.flatMap_cons] at heq
    obtain ⟨rfl, hrest⟩ := h (hl a List.mem_cons_self) (hl' b List.mem_cons_self) heq
    rw [flatMap_injective h hne (fun a ha => hl a (List.mem_cons_of_mem _ ha))
      (fun a ha => hl' a (List.mem_cons_of_mem _ ha)) hrest]

/-- A list, with its length in front. -/
theorem list (hlen : Delimited n len) (h : Delimited s enc) :
    Delimited {l : List α | l.length ∈ n ∧ ∀ a ∈ l, a ∈ s}
      fun l => len l.length ++ l.flatMap enc := by
  rintro l ⟨hn, hl⟩ l' ⟨hn', hl'⟩ r r' heq
  simp only [List.append_assoc] at heq
  obtain ⟨hll, heq⟩ := hlen hn hn' heq
  exact h.flatMap hll hl hl' heq

/-- A string, with its length in front. -/
theorem prefixed (hlen : Delimited n len) :
    Delimited {l : List β | l.length ∈ n} fun l => len l.length ++ l := by
  intro l hn l' hn' r r' heq
  simp only [List.append_assoc] at heq
  obtain ⟨hll, heq⟩ := hlen hn hn' heq
  exact List.append_inj heq hll

end Delimited

variable {n k : ℕ}

theorem delimited_fixed {enc : α → List β} (hlen : ∀ a ∈ s, (enc a).length = n)
    (hinj : Set.InjOn enc s) : Delimited s enc := by
  intro a ha b hb r r' heq
  obtain ⟨hab, hr⟩ := List.append_inj heq ((hlen a ha).trans (hlen b hb).symm)
  exact ⟨hinj ha hb hab, hr⟩

/-- Strings without `z`, which is written after them. -/
theorem delimited_terminated (z : β) : Delimited {l : List β | z ∉ l} fun l => l ++ [z]
  | [], _, [], _, _, _, heq => ⟨rfl, by simpa using heq⟩
  | [], _, b :: l', hl', r, r', heq => by
    simp only [List.nil_append, List.cons_append, List.cons.injEq] at heq
    exact (hl' (heq.1 ▸ List.mem_cons_self)).elim
  | a :: l, hl, [], _, r, r', heq => by
    simp only [List.nil_append, List.cons_append, List.cons.injEq] at heq
    exact (hl (heq.1 ▸ List.mem_cons_self)).elim
  | a :: l, hl, b :: l', hl', r, r', heq => by
    simp only [List.cons_append, List.cons.injEq] at heq
    obtain ⟨rfl, heq⟩ := heq
    obtain ⟨rfl, hr⟩ := delimited_terminated z (fun h => hl (List.mem_cons_of_mem _ h))
      (fun h => hl' (List.mem_cons_of_mem _ h)) heq
    exact ⟨rfl, hr⟩

/-! ### Numbers -/

/-- The last `k` bytes of a number, the most significant one first. -/
def bigEndian : ℕ → ℕ → List UInt8
  | 0, _ => []
  | k + 1, n => bigEndian k (n / 256) ++ [UInt8.ofNat n]

@[simp] theorem length_bigEndian (k n : ℕ) : (bigEndian k n).length = k := by
  induction k generalizing n with
  | zero => rfl
  | succ k ih => rw [bigEndian, List.length_append, ih, List.length_singleton]

/-- The number that bytes are, the most significant one first. -/
def ofBigEndian (l : List UInt8) : ℕ := l.foldl (fun n b => 256 * n + b.toNat) 0

theorem ofBigEndian_bigEndian : ∀ {n : ℕ}, n < 256 ^ k → ofBigEndian (bigEndian k n) = n := by
  induction k with
  | zero =>
    intro n hn
    exact (Nat.lt_one_iff.mp hn).symm
  | succ k ih =>
    intro n hn
    have hdiv : n / 256 < 256 ^ k := Nat.div_lt_of_lt_mul (by rwa [pow_succ, mul_comm] at hn)
    have hhigh := ih hdiv
    rw [ofBigEndian] at hhigh
    rw [ofBigEndian, bigEndian, List.foldl_append, hhigh, List.foldl_cons, List.foldl_nil,
      UInt8.toNat_ofNat']
    omega

theorem ofBigEndian_concat (l : List UInt8) (b : UInt8) :
    ofBigEndian (l ++ [b]) = 256 * ofBigEndian l + b.toNat := by
  rw [ofBigEndian, ofBigEndian, List.foldl_append, List.foldl_cons, List.foldl_nil]

/-- Bytes are those of the number that they are. -/
theorem bigEndian_ofBigEndian (h : l.length = k) :
    bigEndian k (ofBigEndian l) = l := by
  induction l using List.reverseRecOn generalizing k with
  | nil =>
    subst h
    rfl
  | append_singleton l b ih =>
    have hb := b.toNat_lt
    have hdiv : (256 * ofBigEndian l + b.toNat) / 256 = ofBigEndian l := by omega
    have hmod : UInt8.ofNat (256 * ofBigEndian l + b.toNat) = b := by
      apply UInt8.toNat_inj.mp
      rw [UInt8.toNat_ofNat']
      omega
    rw [List.length_append, List.length_singleton] at h
    subst h
    rw [ofBigEndian_concat, bigEndian, hdiv, hmod, ih rfl]

theorem delimited_bigEndian (k : ℕ) : Delimited {n | n < 256 ^ k} (bigEndian k) :=
  delimited_fixed (fun n _ => length_bigEndian k n)
    (Set.LeftInvOn.injOn fun _ hn => ofBigEndian_bigEndian hn)

/-- A number in groups of seven bits, the least significant one first; every group but the last one
is marked. -/
def uvarint (n : ℕ) : List UInt8 :=
  if n < 128 then [UInt8.ofNat n] else UInt8.ofNat (n % 128 + 128) :: uvarint (n / 128)

theorem toNat_ofNat_low (h : n < 256) : (UInt8.ofNat n).toNat = n := by
  rw [UInt8.toNat_ofNat']
  exact Nat.mod_eq_of_lt h

theorem delimited_uvarint : Delimited Set.univ uvarint := by
  intro a _
  induction a using Nat.strong_induction_on with
  | _ a ih =>
    intro b _ r r' heq
    rw [uvarint.eq_def a, uvarint.eq_def b] at heq
    split_ifs at heq with ha hb hb <;>
      simp only [List.cons_append, List.nil_append, List.cons.injEq] at heq <;>
      have hhead := congrArg UInt8.toNat heq.1
    · rw [toNat_ofNat_low (by omega), toNat_ofNat_low (by omega)] at hhead
      exact ⟨hhead, heq.2⟩
    · rw [toNat_ofNat_low (by omega), toNat_ofNat_low (by omega)] at hhead
      omega
    · rw [toNat_ofNat_low (by omega), toNat_ofNat_low (by omega)] at hhead
      omega
    · rw [toNat_ofNat_low (by omega), toNat_ofNat_low (by omega)] at hhead
      obtain ⟨hdiv, hr⟩ := ih (a / 128) (by omega) trivial trivial heq.2
      exact ⟨by omega, hr⟩

end Jarvis.Encoding

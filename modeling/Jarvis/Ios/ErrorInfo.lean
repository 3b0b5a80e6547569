import Jarvis.Bytes
import Jarvis.Fallible
import Mathlib

/-!
# The iOS app: details of errors

How the app reads `google.rpc.ErrorInfo`. Source: `apps/ios/JarvisKit/Sources/JarvisKit/Connect/`
(`ProtobufReader.swift`, and `ErrorInfo(protobuf:)` of `ConnectClient.swift`). What ends a Swift
program, an index out of bounds or an integer that does not fit, is a failure of its own (`trap`).
-/

namespace Jarvis.Ios

/-! ### Source -/

/-- What a call ends with if it does not return. -/
inductive Failure where
  | malformed
  | trap
  deriving DecidableEq

/-- Source: `WireType` -/
inductive WireType where
  | varint
  | fixed64
  | lengthDelimited
  | fixed32
  deriving DecidableEq

namespace WireType

def rawValue : WireType → ℕ
  | varint => 0
  | fixed64 => 1
  | lengthDelimited => 2
  | fixed32 => 5

/-- `WireType(rawValue:)` -/
def ofRawValue (n : ℕ) : Option WireType :=
  [varint, fixed64, lengthDelimited, fixed32].find? fun w => w.rawValue = n

end WireType

/-- Source: `ProtobufReader` -/
structure ProtobufReader where
  bytes : Bytes
  offset : ℕ

namespace ProtobufReader

/-- The reader some bytes further on. -/
def move (r : ProtobufReader) (n : ℕ) : ProtobufReader := { r with offset := r.offset + n }

/-- The loop of `varint`, with `n` bytes to go. -/
def varintFrom (r : ProtobufReader) (value shift : ℕ) : ℕ → Except Failure (ℕ × ProtobufReader)
  | 0 => .error .malformed
  | n + 1 => do
      ensure (r.offset < r.bytes.length) .malformed
      let byte ← okOr .trap r.bytes[r.offset]?
      let value := value ||| ((byte.toNat &&& 0x7f) <<< shift) % 2 ^ 64
      if byte.toNat &&& 0x80 = 0 then pure (value, r.move 1) else
        (r.move 1).varintFrom value (shift + 7) n

/-- Source: `varint`; the shifts from 0 to 63 by 7 are ten -/
def varint (r : ProtobufReader) : Except Failure (ℕ × ProtobufReader) := r.varintFrom 0 0 10

/-- Source: `nextTag` -/
def nextTag (r : ProtobufReader) : Except Failure (Option (ℕ × WireType) × ProtobufReader) :=
  if r.offset < r.bytes.length then do
    let (tag, r) ← r.varint
    let wireType ← okOr .malformed (WireType.ofRawValue (tag &&& 7))
    ensure (tag >>> 3 ≠ 0) .malformed
    pure (some (tag >>> 3, wireType), r)
  else pure (none, r)

/-- Source: `lengthDelimited` -/
def lengthDelimited (r : ProtobufReader) : Except Failure (Bytes × ProtobufReader) := do
  let (length, r) ← r.varint
  ensure (r.offset ≤ r.bytes.length) .trap
  ensure (length ≤ r.bytes.length - r.offset) .malformed
  -- The end is an `Int`, and within the array.
  ensure (r.offset + length < 2 ^ 63 ∧ r.offset + length ≤ r.bytes.length) .trap
  pure ((r.bytes.drop r.offset).take length, r.move length)

/-- Source: `string` -/
def string (r : ProtobufReader) : Except Failure (String × ProtobufReader) := do
  let (slice, r) ← r.lengthDelimited
  let text ← okOr .malformed (fromUtf8 slice)
  pure (text, r)

/-- Source: `advance` -/
def advance (r : ProtobufReader) (count : ℕ) : Except Failure (Unit × ProtobufReader) := do
  ensure (r.offset + count ≤ r.bytes.length) .malformed
  pure ((), r.move count)

/-- Source: `skip` -/
def skip (r : ProtobufReader) : WireType → Except Failure (Unit × ProtobufReader)
  | .varint => do
      let (_, r) ← r.varint
      pure ((), r)
  | .lengthDelimited => do
      let (_, r) ← r.lengthDelimited
      pure ((), r)
  | .fixed64 => r.advance 8
  | .fixed32 => r.advance 4

end ProtobufReader

/-- Source: `ConnectError.ErrorInfo` -/
structure ErrorInfo where
  reason : String
  domain : String
  deriving DecidableEq

namespace ErrorInfo

/-- The cases of the loop of `init(protobuf:)`. -/
def assign (info : ErrorInfo) (number : ℕ) (wireType : WireType) (r : ProtobufReader) :
    Except Failure (ErrorInfo × ProtobufReader) :=
  if number = 1 ∧ wireType = .lengthDelimited then do
    let (reason, r) ← r.string
    pure ({ info with reason }, r)
  else if number = 2 ∧ wireType = .lengthDelimited then do
    let (domain, r) ← r.string
    pure ({ info with domain }, r)
  else do
    let (_, r) ← r.skip wireType
    pure (info, r)

/-- The loop of `init(protobuf:)`; nothing if it is still going. -/
def fields : ℕ → ProtobufReader → ErrorInfo → Option (Except Failure ErrorInfo)
  | 0, _, _ => none
  | fuel + 1, r, info =>
    match r.nextTag with
    | .error e => some (.error e)
    | .ok (none, _) => some (.ok info)
    | .ok (some (number, wireType), r) =>
      match assign info number wireType r with
      | .error e => some (.error e)
      | .ok (info, r) => fields fuel r info

/-- Bytes that an array can hold. -/
abbrev Data := { l : Bytes // l.length < 2 ^ 63 }

/-- Source: `ErrorInfo.init(protobuf:)` -/
def protobuf (fuel : ℕ) (data : Data) : Option (Except Failure ErrorInfo) :=
  fields fuel ⟨data.1, 0⟩ ⟨"", ""⟩

end ErrorInfo

/-! ### Any bytes -/

/-- A reader within an array. -/
structure ProtobufReader.InBounds (r : ProtobufReader) : Prop where
  offset : r.offset ≤ r.bytes.length
  length : r.bytes.length < 2 ^ 63

/-- What a function of the reader keeps: it throws, or it returns with the reader at least `n` bytes
further on and still within the array. It does not trap. -/
def Reads {α : Type} (n : ℕ) (r : ProtobufReader)
    (x : Except Failure (α × ProtobufReader)) : Prop :=
  x = .error .malformed ∨
    ∃ a r', x = .ok (a, r') ∧ r'.InBounds ∧ r'.bytes = r.bytes ∧ r.offset + n ≤ r'.offset

variable {r : ProtobufReader}

section

variable {α β : Type} {n m : ℕ}

theorem Reads.malformed : Reads n r (.error .malformed : Except Failure (α × ProtobufReader)) :=
  .inl rfl

theorem Reads.pure (hr : r.InBounds) (a : α) : Reads 0 r (Pure.pure (a, r)) :=
  .inr ⟨a, r, rfl, hr, rfl, le_rfl⟩

variable {x : Except Failure (α × ProtobufReader)}

theorem Reads.bind {f : α × ProtobufReader → Except Failure (β × ProtobufReader)} (h : Reads n r x)
    (hf : ∀ a r', r'.InBounds → Reads 0 r' (f (a, r'))) : Reads n r (x >>= f) := by
  rcases h with rfl | ⟨a, r', rfl, hin, hbytes, hle⟩
  · exact .inl rfl
  · rw [ok_bind]
    refine (hf a r' hin).imp_right ?_
    rintro ⟨b, r'', hx, hin', hbytes', hle'⟩
    exact ⟨b, r'', hx, hin', hbytes'.trans hbytes, by omega⟩

theorem Reads.mono (h : Reads n r x) (hm : m ≤ n) : Reads m r x := by
  refine h.imp_right ?_
  rintro ⟨a, r', hx, hin, hbytes, hle⟩
  exact ⟨a, r', hx, hin, hbytes, by omega⟩

theorem Reads.ensure {c : Prop} [Decidable c] {f : PUnit → Except Failure (β × ProtobufReader)}
    (h : c → Reads n r (f ⟨⟩)) : Reads n r (Jarvis.ensure c .malformed >>= f) := by
  unfold Jarvis.ensure
  split_ifs with hc
  · exact h hc
  · exact .inl rfl

theorem Reads.okOr {f : α → Except Failure (β × ProtobufReader)}
    (h : ∀ a, o = some a → Reads n r (f a)) : Reads n r (Jarvis.okOr .malformed o >>= f) := by
  cases o with
  | none => exact .inl rfl
  | some a => exact h a rfl

/-- The reader after bytes that are there. -/
theorem ProtobufReader.InBounds.move (hr : r.InBounds) (hn : r.offset + n ≤ r.bytes.length) :
    Reads n r (Pure.pure ((), r.move n)) :=
  .inr ⟨(), r.move n, rfl, ⟨hn, hr.length⟩, rfl, le_rfl⟩

namespace ProtobufReader

section

variable (hr : r.InBounds)
include hr

theorem varintFrom_reads : Reads 1 r (r.varintFrom value shift k) := by
  induction k generalizing r value shift with
  | zero => exact .malformed
  | succ k ih =>
    refine Reads.ensure fun hlt => ?_
    have hbyte : r.bytes[r.offset]? = some r.bytes[r.offset] := List.getElem?_eq_getElem hlt
    have hnext : (r.move 1).InBounds := ⟨hlt, hr.length⟩
    rw [hbyte, okOr, ok_bind]
    dsimp only
    split_ifs
    · exact .inr ⟨_, r.move 1, rfl, hnext, rfl, le_rfl⟩
    · refine (ih hnext).imp_right ?_
      rintro ⟨a, r', hx, hin, hbytes, hle⟩
      exact ⟨a, r', hx, hin, hbytes, by simp only [move] at hle; omega⟩

theorem varint_reads : Reads 1 r r.varint := varintFrom_reads hr

theorem lengthDelimited_reads : Reads 1 r r.lengthDelimited := by
  refine (varint_reads hr).bind fun length r' hin => ?_
  have hlen := hin.length
  dsimp only
  rw [ensure_of hin.offset, ok_bind]
  refine Reads.ensure fun hle => ?_
  have hend : r'.offset + length ≤ r'.bytes.length := by
    have := hin.offset
    omega
  rw [ensure_of ⟨by omega, hend⟩, ok_bind]
  exact .inr ⟨_, r'.move length, rfl, ⟨hend, hlen⟩, rfl, Nat.le_add_right _ _⟩

theorem string_reads : Reads 1 r r.string := by
  refine (lengthDelimited_reads hr).bind fun slice r' hin => ?_
  exact Reads.okOr fun text _ => .pure hin text

theorem advance_reads (count : ℕ) : Reads count r (r.advance count) :=
  Reads.ensure fun hle => hr.move hle

theorem skip_reads (w : WireType) : Reads 1 r (r.skip w) := by
  cases w with
  | varint => exact (varint_reads hr).bind fun _ r' hin => .pure hin ()
  | lengthDelimited => exact (lengthDelimited_reads hr).bind fun _ r' hin => .pure hin ()
  | fixed64 => exact (advance_reads hr 8).mono (by decide)
  | fixed32 => exact (advance_reads hr 4).mono (by decide)

/-- At the end there is no tag; before it, a tag takes a byte. -/
theorem nextTag_reads : r.nextTag = .ok (none, r) ∨ Reads 1 r r.nextTag := by
  unfold nextTag
  split_ifs
  · refine .inr ((varint_reads hr).bind fun tag r' hin => ?_)
    exact Reads.okOr fun w _ => Reads.ensure fun _ => .pure hin _
  · exact .inl rfl

end

end ProtobufReader

namespace ErrorInfo

theorem assign_reads (hr : r.InBounds) (info : ErrorInfo) (number : ℕ) (w : WireType) :
    Reads 1 r (assign info number w r) := by
  unfold assign
  split_ifs
  · exact (ProtobufReader.string_reads hr).bind fun _ _ hin => .pure hin _
  · exact (ProtobufReader.string_reads hr).bind fun _ _ hin => .pure hin _
  · exact (ProtobufReader.skip_reads hr w).bind fun _ _ hin => .pure hin _

/-- **Any bytes**: each turn of the loop takes bytes, so it ends, and it does not trap. -/
theorem fields_ends (hr : r.InBounds) (hfuel : r.bytes.length - r.offset < fuel) :
    ∃ x, fields fuel r info = some x ∧ x ≠ .error .trap := by
  induction fuel generalizing r info with
  | zero => exact (Nat.not_lt_zero _ hfuel).elim
  | succ fuel ih =>
    unfold fields
    rcases ProtobufReader.nextTag_reads hr with hend | herr | ⟨tag, r', htag, hin, hbytes, hle⟩
    · rw [hend]
      exact ⟨.ok info, rfl, by simp⟩
    · rw [herr]
      exact ⟨.error .malformed, rfl, by simp⟩
    · rw [htag]
      cases tag with
      | none => exact ⟨.ok info, rfl, by simp⟩
      | some tag =>
        obtain ⟨number, w⟩ := tag
        rcases assign_reads hin info number w with herr | ⟨info', r'', hok, hin', hbytes', hle'⟩
        · simp only [herr]
          exact ⟨.error .malformed, rfl, by simp⟩
        · simp only [hok]
          have := hin'.offset
          exact ih hin' (by rw [hbytes', hbytes] at *; omega)

end ErrorInfo

end

/-! ### Encodings -/

/-- Groups of seven bits, the lowest first; all bytes but the last have their high bit set. -/
inductive Groups : Bytes → ℕ → Prop where
  | last {b : UInt8} : b.toNat < 128 → Groups [b] b.toNat
  | more {b : UInt8} {bs : Bytes} {v : ℕ} : 128 ≤ b.toNat → Groups bs v →
      Groups (b :: bs) (b.toNat - 128 + 128 * v)

/-- A number as a varint, shortest or not. -/
structure Varint (bs : Bytes) (v : ℕ) : Prop where
  groups : Groups bs v
  length : bs.length ≤ 10
  lt : v < 2 ^ 64

/-- What a field holds. -/
inductive Payload where
  | varint (v : ℕ)
  | fixed64 (l : Bytes)
  | lengthDelimited (l : Bytes)
  | fixed32 (l : Bytes)

def Payload.wireType : Payload → WireType
  | .varint _ => .varint
  | .fixed64 _ => .fixed64
  | .lengthDelimited _ => .lengthDelimited
  | .fixed32 _ => .fixed32

/-- The encodings of what a field holds. -/
inductive Payload.Encoded : Payload → Bytes → Prop where
  | varint {bs : Bytes} {v : ℕ} : Varint bs v → Encoded (.varint v) bs
  | fixed64 {l : Bytes} : l.length = 8 → Encoded (.fixed64 l) l
  | lengthDelimited {bs l : Bytes} : Varint bs l.length → Encoded (.lengthDelimited l) (bs ++ l)
  | fixed32 {l : Bytes} : l.length = 4 → Encoded (.fixed32 l) l

theorem Payload.Encoded.of_wireType {p : Payload} {b : Bytes} (h : p.Encoded b)
    (hwire : p.wireType = .lengthDelimited) :
    ∃ bs l, p = .lengthDelimited l ∧ Varint bs l.length ∧ b = bs ++ l := by
  cases h with
  | @lengthDelimited bs l hlen => exact ⟨bs, l, rfl, hlen, rfl⟩
  | varint | fixed64 | fixed32 => cases hwire

structure Field where
  number : ℕ
  payload : Payload

/-- The encodings of a message: its fields one after the other. -/
inductive Message : List Field → Bytes → Prop where
  | nil : Message [] []
  | cons {f : Field} {fs : List Field} {tag body rest : Bytes} : f.number ≠ 0 →
      Varint tag (f.number * 8 + f.payload.wireType.rawValue) → f.payload.Encoded body →
        Message fs rest →
      Message (f :: fs) (tag ++ (body ++ rest))

/-- The bytes of a field, if it is the one with a number and has a length. -/
def Field.bytes (number : ℕ) (f : Field) : Option Bytes :=
  match f.payload with
  | .lengthDelimited l => if f.number = number then some l else none
  | _ => none

/-- The reason and the domain are UTF-8. -/
def Field.Valid (f : Field) : Prop :=
  ∀ number l, number = 1 ∨ number = 2 → f.bytes number = some l → ∃ t, fromUtf8 l = some t

/-- The text of a field with a number. -/
def Field.text (number : ℕ) (f : Field) : Option String := (f.bytes number).bind fromUtf8

/-- The last text with a number; `t` if there is none. -/
def lastText (number : ℕ) (t : String) (fs : List Field) : String :=
  ((fs.filterMap (Field.text number)).getLast?).getD t

theorem lastText_cons (number : ℕ) (t : String) (f : Field) (fs : List Field) :
    lastText number t (f :: fs) = lastText number ((f.text number).getD t) fs := by
  unfold lastText
  cases h : f.text number with
  | none => rw [List.filterMap_cons_none h, Option.getD_none]
  | some u =>
    rw [List.filterMap_cons_some h, Option.getD_some]
    cases (fs.filterMap (Field.text number)).eq_nil_or_concat with
    | inl hnil => rw [hnil]; rfl
    | inr hsnoc =>
      obtain ⟨l, last, hl⟩ := hsnoc
      rw [hl, List.concat_eq_append]
      simp [List.getLast?_cons]

variable {l rest : Bytes}

namespace ProtobufReader

/-- What is left to read. -/
def unread (r : ProtobufReader) : Bytes := r.bytes.drop r.offset

theorem unread_move (h : r.unread = l ++ rest) : (r.move l.length).unread = rest := by
  unfold unread move at *
  dsimp only
  rw [← List.drop_drop, h, List.drop_left]

theorem length_of_unread (h : r.unread = l ++ rest) (hl : l ≠ []) :
    r.offset + l.length + rest.length = r.bytes.length := by
  have hlen := congrArg List.length h
  have hpos := List.length_pos_of_ne_nil hl
  unfold unread at hlen
  rw [List.length_drop, List.length_append] at hlen
  omega

theorem InBounds.move_of_unread (hr : r.InBounds) (h : r.unread = l ++ rest) :
    (r.move l.length).InBounds := by
  have hlen := congrArg List.length h
  have hoffset := hr.offset
  unfold unread at hlen
  rw [List.length_drop, List.length_append] at hlen
  have hnext : r.offset + l.length ≤ r.bytes.length := by omega
  exact ⟨hnext, hr.length⟩

theorem getElem?_of_unread (h : r.unread = b :: rest) : r.bytes[r.offset]? = some b := by
  have hhead : r.unread.head? = some b := by rw [h]; rfl
  unfold unread at hhead
  rwa [List.head?_drop] at hhead

end ProtobufReader

theorem and_high : ∀ n < 256, n &&& 0x80 = 0 ↔ n < 128 := by decide +kernel

theorem and_low (n : ℕ) : n &&& 0x7f = n % 128 := Nat.and_two_pow_sub_one_eq_mod n 7

/-- A group goes above the ones before it. -/
theorem or_shift (hvalue : value < 2 ^ shift) (hx : x * 2 ^ shift < 2 ^ 64) :
    value ||| (x <<< shift) % 2 ^ 64 = value + x * 2 ^ shift := by
  rw [Nat.shiftLeft_eq, Nat.mod_eq_of_lt hx, Nat.or_comm, Nat.mul_comm,
    ← Nat.two_pow_add_eq_or_of_lt hvalue, Nat.add_comm]

namespace ProtobufReader

section

variable {bs : Bytes} {v : ℕ}

theorem move_move (r : ProtobufReader) (n m : ℕ) : (r.move n).move m = r.move (n + m) := by
  simp [move, Nat.add_assoc]

/-- One byte of a varint. -/
theorem varintFrom_cons (h : r.unread = b :: rest) (hvalue : value < 2 ^ shift)
    (hlt : b.toNat % 128 * 2 ^ shift < 2 ^ 64) :
    r.varintFrom value shift (n + 1) =
      if b.toNat < 128 then .ok (value + b.toNat % 128 * 2 ^ shift, r.move 1)
      else (r.move 1).varintFrom (value + b.toNat % 128 * 2 ^ shift) (shift + 7) n := by
  have hlen := length_of_unread (l := [b]) h (by simp)
  have hhigh : (b.toNat &&& 0x80 = 0) = (b.toNat < 128) := propext (and_high _ b.toNat_lt)
  rw [varintFrom, ensure_of (by simp at hlen; omega), ok_bind, getElem?_of_unread h, okOr, ok_bind]
  simp only [and_low, or_shift hvalue hlt, hhigh]
  rfl

theorem varintFrom_groups (h : Groups bs v) : ∀ {r : ProtobufReader} (value shift n : ℕ),
    r.unread = bs ++ rest → bs.length ≤ n → value < 2 ^ shift → value + v * 2 ^ shift < 2 ^ 64 →
      r.varintFrom value shift n = .ok (value + v * 2 ^ shift, r.move bs.length) := by
  induction h with
  | @last b hb =>
    intro r value shift n hunread hn hvalue hlt
    obtain ⟨n, rfl⟩ := Nat.exists_eq_add_of_le' hn
    have hmod : b.toNat % 128 = b.toNat := Nat.mod_eq_of_lt hb
    rw [List.length_singleton, varintFrom_cons hunread hvalue (by rw [hmod]; omega),
      if_pos hb, hmod]
  | @more b bs v hb _ ih =>
    intro r value shift n hunread hn hvalue hlt
    obtain ⟨n, rfl⟩ := Nat.exists_eq_add_of_le'
      ((Nat.succ_le_of_lt (Nat.succ_pos bs.length)).trans hn)
    have hmod : b.toNat % 128 = b.toNat - 128 := by
      have := b.toNat_lt
      omega
    have hpow : 2 ^ (shift + 7) = 128 * 2 ^ shift := by rw [Nat.pow_add, Nat.mul_comm]
    have hsum : value + (b.toNat - 128) * 2 ^ shift + v * 2 ^ (shift + 7) =
        value + (b.toNat - 128 + 128 * v) * 2 ^ shift := by
      rw [hpow]
      ring
    have hgroup : value + (b.toNat - 128) * 2 ^ shift < 2 ^ (shift + 7) := by
      have hle : (b.toNat - 128) * 2 ^ shift ≤ 127 * 2 ^ shift := by
        refine Nat.mul_le_mul_right _ ?_
        have := b.toNat_lt
        omega
      omega
    have hnext : (r.move 1).unread = bs ++ rest := unread_move (l := [b]) hunread
    rw [varintFrom_cons hunread hvalue (by rw [hmod]; omega), if_neg (by omega), hmod,
      ih _ _ _ hnext (by simpa using hn) hgroup (by omega), hsum, move_move,
      List.length_cons, Nat.add_comm 1]

theorem varint_eq (h : Varint bs v) (hunread : r.unread = bs ++ rest) :
    r.varint = .ok (v, r.move bs.length) := by
  have heq := varintFrom_groups h.groups 0 0 10 hunread h.length (by decide)
    (by have := h.lt; omega)
  rwa [Nat.zero_add, Nat.pow_zero, Nat.mul_one] at heq

theorem lengthDelimited_eq (hr : r.InBounds) (h : Varint bs l.length)
    (hunread : r.unread = bs ++ l ++ rest) :
    r.lengthDelimited = .ok (l, r.move (bs ++ l).length) := by
  have hne : bs ≠ [] := by
    rintro rfl
    cases h.groups
  have hlen := length_of_unread hunread (by simp [hne])
  have hbound := hr.length
  rw [List.append_assoc] at hunread
  have hnext := unread_move hunread
  rw [List.length_append] at hlen
  rw [lengthDelimited, varint_eq h hunread, ok_bind]
  dsimp only [move]
  rw [ensure_of (by omega), ok_bind, ensure_of (by omega), ok_bind, ensure_of (by omega), ok_bind]
  have hslice : (r.bytes.drop (r.offset + bs.length)).take l.length = l := by
    unfold unread move at hnext
    dsimp only at hnext
    rw [hnext, List.take_left]
  rw [hslice, List.length_append, Nat.add_assoc]
  rfl

theorem string_eq (hr : r.InBounds) (h : Varint bs l.length) (ht : fromUtf8 l = some t)
    (hunread : r.unread = bs ++ l ++ rest) : r.string = .ok (t, r.move (bs ++ l).length) := by
  rw [string, lengthDelimited_eq hr h hunread, ok_bind]
  dsimp only
  rw [ht]
  rfl

/-- A field that is not looked at is skipped. -/
theorem skip_eq (hr : r.InBounds) {p : Payload} (h : p.Encoded l) (hunread : r.unread = l ++ rest) :
    r.skip p.wireType = .ok ((), r.move l.length) := by
  cases h with
  | varint h =>
    rw [Payload.wireType, skip, varint_eq h hunread]
    rfl
  | lengthDelimited h =>
    rw [Payload.wireType, skip, lengthDelimited_eq hr h hunread]
    rfl
  | fixed64 h =>
    have hlen := length_of_unread hunread (by rintro rfl; simp at h)
    rw [Payload.wireType, skip, advance, ensure_of (by omega), h]
    rfl
  | fixed32 h =>
    have hlen := length_of_unread hunread (by rintro rfl; simp at h)
    rw [Payload.wireType, skip, advance, ensure_of (by omega), h]
    rfl

theorem ofRawValue_rawValue (w : WireType) : WireType.ofRawValue w.rawValue = some w := by
  cases w <;> rfl

theorem nextTag_eq (hnumber : number ≠ 0) (h : Varint bs (number * 8 + w.rawValue))
    (hunread : r.unread = bs ++ rest) :
    r.nextTag = .ok (some (number, w), r.move bs.length) := by
  have hne : bs ≠ [] := by
    rintro rfl
    cases h.groups
  have hlen := length_of_unread hunread hne
  have hpos := List.length_pos_of_ne_nil hne
  have hraw : w.rawValue < 8 := by cases w <;> decide
  have hlow : (number * 8 + w.rawValue) &&& 7 = w.rawValue := by
    rw [Nat.and_two_pow_sub_one_eq_mod _ 3]
    omega
  have hhigh : (number * 8 + w.rawValue) >>> 3 = number := by
    rw [Nat.shiftRight_eq_div_pow]
    omega
  rw [nextTag, if_pos (by omega), varint_eq h hunread, ok_bind]
  dsimp only
  rw [hlow, ofRawValue_rawValue, okOr, ok_bind, hhigh, ensure_of hnumber, ok_bind]
  rfl

end

end ProtobufReader

namespace ErrorInfo

variable {f : Field}

/-- What a field changes. -/
def with' (info : ErrorInfo) (f : Field) : ErrorInfo where
  reason := (f.text 1).getD info.reason
  domain := (f.text 2).getD info.domain

/-- **One field.** -/
theorem assign_eq (hr : r.InBounds) (info : ErrorInfo) (hvalid : f.Valid) (h : f.payload.Encoded l)
    (hunread : r.unread = l ++ rest) :
    assign info f.number f.payload.wireType r = .ok (info.with' f, r.move l.length) := by
  have hskip := ProtobufReader.skip_eq hr h hunread
  unfold assign
  split_ifs with hreason hdomain
  · obtain ⟨hnumber, hwire⟩ := hreason
    obtain ⟨bs, l, hp, hlen, rfl⟩ := h.of_wireType hwire
    obtain ⟨t, ht⟩ := hvalid 1 l (.inl rfl) (by simp [Field.bytes, hp, hnumber])
    rw [ProtobufReader.string_eq hr hlen ht hunread, ok_bind]
    simp [with', Field.text, ht, Field.bytes, hp, hnumber]
    rfl
  · obtain ⟨hnumber, hwire⟩ := hdomain
    obtain ⟨bs, l, hp, hlen, rfl⟩ := h.of_wireType hwire
    obtain ⟨t, ht⟩ := hvalid 2 l (.inr rfl) (by simp [Field.bytes, hp, hnumber])
    rw [ProtobufReader.string_eq hr hlen ht hunread, ok_bind]
    simp [with', Field.text, ht, Field.bytes, hp, hnumber]
    rfl
  · have hnone : ∀ number, number = 1 ∨ number = 2 → f.text number = none := by
      intro number hnumber
      unfold Field.text Field.bytes
      cases hp : f.payload with
      | lengthDelimited l =>
        have hne : f.number ≠ number := by
          rintro rfl
          simp only [hp, Payload.wireType, and_true] at hreason hdomain
          omega
        simp [hne]
      | varint | fixed64 | fixed32 => rfl
    rw [hskip, ok_bind]
    simp [with', hnone 1 (.inl rfl), hnone 2 (.inr rfl)]
    rfl

/-- **Any fields**: the loop returns what the fields come to, one after the other. -/
theorem fields_eq (h : Message fs l) : ∀ {r : ProtobufReader} {info : ErrorInfo} {fuel : ℕ},
    r.InBounds → r.unread = l → (∀ f ∈ fs, f.Valid) → l.length < fuel →
      fields fuel r info = some (.ok ⟨lastText 1 info.reason fs, lastText 2 info.domain fs⟩) := by
  induction h with
  | nil =>
    intro r info fuel hr hunread _ hfuel
    obtain ⟨fuel, rfl⟩ := Nat.exists_eq_add_of_le' hfuel
    have hend : ¬ r.offset < r.bytes.length := by
      simpa [ProtobufReader.unread] using hunread
    simp only [fields, ProtobufReader.nextTag, if_neg hend]
    rfl
  | @cons f fs tag body rest hnumber htag hbody _ ih =>
    intro r info fuel hr hunread hvalid hfuel
    obtain ⟨fuel, rfl⟩ := Nat.exists_eq_add_of_le' ((Nat.succ_le_of_lt (Nat.zero_lt_of_lt hfuel)))
    obtain ⟨hf, hfs⟩ := List.forall_mem_cons.mp hvalid
    have htagged := ProtobufReader.nextTag_eq hnumber htag hunread
    have hin := hr.move_of_unread hunread
    have hleft := ProtobufReader.unread_move hunread
    have hassign := assign_eq hin info hf hbody hleft
    have hne : tag ≠ [] := by
      rintro rfl
      cases htag.groups
    have hpos := List.length_pos_of_ne_nil hne
    rw [List.length_append, List.length_append] at hfuel
    simp only [fields, htagged, hassign]
    rw [ih (hin.move_of_unread hleft) (ProtobufReader.unread_move hleft) hfs (by omega),
      lastText_cons, lastText_cons]
    rfl

/-- **Error details decode.** On any bytes the reader ends and does not trap; and on every encoding
of a message whose reasons and domains are UTF-8 it returns the last reason and the last domain. -/
theorem protobuf_decodes (data : Data) {fuel : ℕ} (hfuel : data.1.length < fuel) :
    (∃ x, protobuf fuel data = some x ∧ x ≠ .error .trap) ∧
    ∀ fs, Message fs data.1 → (∀ f ∈ fs, f.Valid) →
      protobuf fuel data = some (.ok ⟨lastText 1 "" fs, lastText 2 "" fs⟩) := by
  have hr : (⟨data.1, 0⟩ : ProtobufReader).InBounds := ⟨Nat.zero_le _, data.2⟩
  exact ⟨fields_ends hr hfuel, fun fs hfs hvalid => fields_eq hfs hr rfl hvalid hfuel⟩

/-- An unknown field, a reason and a domain. -/
theorem protobuf_decodes_three :
    protobuf 11 ⟨[0x20, 0x80, 0x00, 0x0a, 0x01, 0x41, 0x12, 0x01, 0x42], by decide⟩ =
      some (.ok ⟨"A", "B"⟩) := by
  have hbyte : ∀ b : UInt8, b.toNat < 128 → Varint [b] b.toNat := by
    intro b hb
    exact ⟨.last hb, Nat.one_le_ofNat, by omega⟩
  have hzero : Varint [0x80, 0x00] 0 :=
    ⟨.more (by decide) (.last (by decide)), by decide, by decide⟩
  have hA : fromUtf8 [0x41] = some "A" := fromUtf8_utf8 "A"
  have hB : fromUtf8 [0x42] = some "B" := fromUtf8_utf8 "B"
  have h := (protobuf_decodes ⟨[0x20, 0x80, 0x00, 0x0a, 0x01, 0x41, 0x12, 0x01, 0x42], by decide⟩
    (show 9 < 11 by decide)).2
    [⟨4, .varint 0⟩, ⟨1, .lengthDelimited [0x41]⟩, ⟨2, .lengthDelimited [0x42]⟩] ?_ ?_
  · simpa [lastText, Field.text, Field.bytes, hA, hB] using h
  · refine .cons (f := ⟨4, .varint 0⟩) (by decide) (hbyte 0x20 (by decide)) (.varint hzero) ?_
    refine .cons (f := ⟨1, .lengthDelimited [0x41]⟩) (by decide) (hbyte 0x0a (by decide))
      (.lengthDelimited (hbyte 0x01 (by decide))) ?_
    exact .cons (f := ⟨2, .lengthDelimited [0x42]⟩) (by decide) (hbyte 0x12 (by decide))
      (.lengthDelimited (hbyte 0x01 (by decide))) .nil
  · intro f hf number l _ hl
    simp only [List.mem_cons, List.not_mem_nil, or_false] at hf
    rcases hf with rfl | rfl | rfl
    · simp [Field.bytes] at hl
    · simp only [Field.bytes, Option.ite_none_right_eq_some, Option.some.injEq] at hl
      exact ⟨"A", by rw [← hl.2, hA]⟩
    · simp only [Field.bytes, Option.ite_none_right_eq_some, Option.some.injEq] at hl
      exact ⟨"B", by rw [← hl.2, hB]⟩

end ErrorInfo

end Jarvis.Ios

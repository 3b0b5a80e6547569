import Jarvis.Steps
import Mathlib

/-!
# The voice gateway: the outbox

The queue between the provider and the client. Source:
`services/voice-gateway/internal/session/outbox.go`. Any number of producers push, one writer pops
and marks what has reached the client, and queued audio can be dropped at any time. The methods hold
the mutex, but a producer signals the writer after it has released it, and the writer waits without
it; these are steps of their own (`Line.step`). What was pushed, popped, marked and removed is kept.

The time at which an item was queued is only used for metrics and is left out.
-/

namespace Jarvis.Gateway

open Steps

variable {M : Type}

/-- Source: `outItem` -/
structure OutItem (M : Type) where
  msg : M
  itemID : String := ""
  audioBytes : ℕ := 0
  deriving DecidableEq, Repr

/-- Source: `outbox`. The channel `notify` has one place. -/
structure Outbox (M : Type) where
  items : List (OutItem M)
  capacity : ℕ
  notify : Bool
  delivered : String → ℕ

namespace Outbox

/-- Source: `newOutbox` -/
def new (capacity : ℕ) : Outbox M := ⟨[], capacity, false, fun _ => 0⟩

variable (o : Outbox M)

/-- Source: `push`, under the mutex; `none` is `errOutboxFull` -/
def push (item : OutItem M) : Option (Outbox M) :=
  if o.capacity ≤ o.items.length then none else some { o with items := o.items ++ [item] }

/-- Source: `push`, `select` -/
def signal : Outbox M := { o with notify := true }

/-- Source: `pop`, under the mutex -/
def take : Option (OutItem M × Outbox M) :=
  match o.items with
  | [] => none
  | item :: rest => some (item, { o with items := rest })

/-- Source: `markDelivered` -/
def markDelivered (item : OutItem M) : Outbox M :=
  if item.audioBytes = 0 then o
  else { o with
    delivered := Function.update o.delivered item.itemID
      (o.delivered item.itemID + item.audioBytes) }

/-- Source: `dropAudio`, the loop. The array of the queue is filtered in place: its first `kept`
elements were kept, and so many at its end are still to be looked at. -/
def compact (itemID : String) : ℕ → List (OutItem M) → ℕ → ℕ → List (OutItem M) × ℕ × ℕ
  | 0, array, kept, dropped => (array, kept, dropped)
  | left + 1, array, kept, dropped =>
    match array[array.length - (left + 1)]? with
    | none => (array, kept, dropped)
    | some item =>
      if 0 < item.audioBytes then
        compact itemID left array kept
          (if item.itemID = itemID then dropped + item.audioBytes else dropped)
      else compact itemID left (array.set kept item) (kept + 1) dropped

/-- Source: `dropAudio` -/
def dropAudio (itemID : String) : (ℕ × ℕ) × Outbox M :=
  let (array, kept, dropped) := compact itemID o.items.length o.items 0 0
  ((dropped, o.delivered itemID), { o with items := array.take kept })

end Outbox

/-- The audio bytes of an assistant item. -/
def bytesOf (itemID : String) (items : List (OutItem M)) : ℕ :=
  ((items.filter fun item => item.itemID = itemID).map OutItem.audioBytes).sum

/-- The control messages. -/
def controls (items : List (OutItem M)) : List (OutItem M) :=
  items.filter fun item => item.audioBytes = 0

def audio (items : List (OutItem M)) : List (OutItem M) :=
  items.filter fun item => item.audioBytes ≠ 0

/-! ### The filter in place -/

section

variable {itemID : String} {items items' : List (OutItem M)}

@[simp] theorem bytesOf_nil : bytesOf itemID ([] : List (OutItem M)) = 0 := rfl

/-- The bytes of one more item. -/
theorem bytesOf_cons (item : OutItem M) : bytesOf itemID (item :: items) =
    (if item.itemID = itemID then item.audioBytes else 0) + bytesOf itemID items := by
  unfold bytesOf
  rw [List.filter_cons]
  split_ifs with h h' h'
  · rw [List.map_cons, List.sum_cons]
  · exact absurd (of_decide_eq_true h) h'
  · exact absurd (decide_eq_true h') h
  · rw [Nat.zero_add]

theorem bytesOf_append : bytesOf itemID (items ++ items') = bytesOf itemID items +
    bytesOf itemID items' := by
  unfold bytesOf
  rw [List.filter_append, List.map_append, List.sum_append]

/-- The order does not matter. -/
theorem bytesOf_perm (h : items.Perm items') : bytesOf itemID items = bytesOf itemID items' := by
  unfold bytesOf
  exact ((h.filter _).map _).sum_eq

theorem controls_append : controls (items ++ items') = controls items ++ controls items' :=
  List.filter_append ..

/-- Only audio has bytes. -/
theorem bytesOf_audio : bytesOf itemID (audio items) = bytesOf itemID items := by
  induction items with
  | nil => rfl
  | cons item items ih =>
    unfold audio at ih ⊢
    rw [List.filter_cons]
    split_ifs with h
    · rw [bytesOf_cons, bytesOf_cons, ih]
    · have hzero : item.audioBytes = 0 := by simpa using h
      rw [bytesOf_cons, ih, hzero, ite_self, Nat.zero_add]

/-- The loop keeps the control messages, in order, and counts the bytes of the item. -/
theorem compact_spec (itemID : String) (left : ℕ) (array : List (OutItem M)) (kept dropped : ℕ)
    (hleft : left ≤ array.length) (hkept : kept ≤ array.length - left) :
    ∃ array' kept' dropped', Outbox.compact itemID left array kept dropped =
    (array', kept', dropped') ∧
      array'.take kept' = array.take kept ++ controls (array.drop (array.length - left)) ∧
      dropped' = dropped + bytesOf itemID (array.drop (array.length - left)) := by
  induction left generalizing array kept dropped with
  | zero => exact ⟨array, kept, dropped, rfl, by simp [controls], by simp⟩
  | succ left ih =>
    set i := array.length - (left + 1) with hi
    have hlt : i < array.length := by omega
    have hdrop : array.drop i = array[i] :: array.drop (array.length - left) := by
      rw [List.drop_eq_getElem_cons hlt, show i + 1 = array.length - left by omega]
    rw [Outbox.compact, ← hi, List.getElem?_eq_getElem hlt, hdrop]
    dsimp only
    split_ifs with haudio hitem
    · obtain ⟨array', kept', dropped', heq, htake, hbytes⟩ :=
        ih array kept (dropped + array[i].audioBytes) (by omega) (by omega)
      refine ⟨array', kept', dropped', heq, ?_, ?_⟩
      · rw [htake, controls, controls, List.filter_cons_of_neg (by simpa using Nat.ne_of_gt haudio)]
      · rw [hbytes, bytesOf_cons, if_pos hitem]
        omega
    · obtain ⟨array', kept', dropped', heq, htake, hbytes⟩ :=
        ih array kept dropped (by omega) (by omega)
      refine ⟨array', kept', dropped', heq, ?_, ?_⟩
      · rw [htake, controls, controls, List.filter_cons_of_neg (by simpa using Nat.ne_of_gt haudio)]
      · rw [hbytes, bytesOf_cons, if_neg hitem]
        omega
    · -- The element is written to a place that was already looked at.
      have hzero : array[i].audioBytes = 0 := by omega
      have hlength : (array.set kept array[i]).length = array.length := List.length_set
      obtain ⟨array', kept', dropped', heq, htake, hbytes⟩ :=
        ih (array.set kept array[i]) (kept + 1) dropped (by omega) (by omega)
      have hset : (array.set kept array[i]).drop (array.length - left) =
          array.drop (array.length - left) := List.drop_set_of_lt (by omega)
      rw [hlength, hset] at htake hbytes
      refine ⟨array', kept', dropped', heq, ?_, ?_⟩
      · have hfirst : (array.set kept array[i]).take (kept + 1) =
          array.take kept ++ [array[i]] := by
          rw [List.take_succ_eq_append_getElem (by omega), List.take_set_of_le (Nat.le_refl _),
            List.getElem_set_self]
        rw [htake, hfirst, controls, controls, List.filter_cons_of_pos (by simpa using hzero),
          List.append_assoc, List.singleton_append]
      · rw [hbytes, bytesOf_cons, hzero, ite_self, Nat.zero_add]

/-- Marking changes only what counts as delivered. -/
theorem markDelivered_spec (o : Outbox M) (item : OutItem M) :
    (o.markDelivered item).items = o.items ∧ (o.markDelivered item).capacity = o.capacity ∧
      ∀ itemID, (o.markDelivered item).delivered itemID =
        o.delivered itemID + if item.itemID = itemID then item.audioBytes else 0 := by
  unfold Outbox.markDelivered
  split_ifs with hzero
  · refine ⟨rfl, rfl, fun itemID => ?_⟩
    rw [hzero, ite_self, Nat.add_zero]
  · refine ⟨rfl, rfl, fun itemID => ?_⟩
    dsimp only
    by_cases heq : item.itemID = itemID
    · subst heq
      rw [Function.update_self, if_pos rfl]
    · rw [Function.update_of_ne (Ne.symm heq), if_neg heq, Nat.add_zero]

/-- What `dropAudio` returns, and what it leaves. -/
theorem dropAudio_eq (o : Outbox M) (itemID : String) : o.dropAudio itemID =
    ((bytesOf itemID o.items, o.delivered itemID), { o with items := controls o.items }) := by
  obtain ⟨array, kept, dropped, heq, htake, hbytes⟩ :=
    compact_spec itemID o.items.length o.items 0 0 (Nat.le_refl _) (Nat.zero_le _)
  rw [Nat.sub_self, List.drop_zero, List.take_zero, List.nil_append] at htake
  rw [Nat.sub_self, List.drop_zero, Nat.zero_add] at hbytes
  unfold Outbox.dropAudio
  rw [heq]
  dsimp only
  rw [htake, hbytes]

end

/-! ### Producers and the writer -/

/-- Where the writer is. -/
inductive Writer (M : Type) where
  /-- about to look at the queue -/
  | looking
  /-- waiting for a signal -/
  | waiting
  /-- writing an item to the client -/
  | writing (item : OutItem M)
  /-- gone, and the item that could not be written -/
  | left (item : Option (OutItem M))
  deriving DecidableEq, Repr

/-- What was popped and not marked. -/
def Writer.unmarked : Writer M → List (OutItem M)
  | .writing item => [item]
  | .left item => item.toList
  | _ => []

/-- The outbox, those who use it, and what has become of the items, in order. -/
structure Line (M : Type) where
  outbox : Outbox M
  /-- The producers that have queued an item and not signalled yet. -/
  signalling : ℕ
  writer : Writer M
  accepted : List (OutItem M)
  popped : List (OutItem M)
  marked : List (OutItem M)
  removed : List (OutItem M)

inductive Line.Label (M : Type) where
  | push (item : OutItem M)
  /-- A producer that has queued an item signals. -/
  | signal
  /-- The writer looks at the queue. -/
  | look
  /-- The writer gets the signal. -/
  | wake
  /-- The writer's context is done while it waits. -/
  | cancel
  /-- The item was written to the client, and is marked. -/
  | wrote
  /-- The item could not be written. -/
  | fail
  | dropAudio (itemID : String)
  deriving DecidableEq

namespace Line

def init (capacity : ℕ) : Line M := ⟨.new capacity, 0, .looking, [], [], [], []⟩

/-- One step. Source: `push`, `pop`, `writerLoop` -/
def step (s : Line M) : Label M → Option (Line M)
  | .push item =>
    match s.outbox.push item with
    | some outbox => some { s with
        outbox := outbox
        signalling := s.signalling + 1
        accepted := s.accepted ++ [item] }
    | none => some s
  | .signal =>
    if s.signalling = 0 then none
    else some { s with outbox := s.outbox.signal, signalling := s.signalling - 1 }
  | .look =>
    match s.writer with
    | .looking =>
      match s.outbox.take with
      | some (item, outbox) => some { s with
          outbox := outbox
          writer := .writing item
          popped := s.popped ++ [item] }
      | none => some { s with writer := .waiting }
    | _ => none
  | .wake =>
    match s.writer with
    | .waiting =>
      if s.outbox.notify then
        some { s with outbox := { s.outbox with notify := false }, writer := .looking }
      else none
    | _ => none
  | .cancel =>
    match s.writer with
    | .waiting => some { s with writer := .left none }
    | _ => none
  | .wrote =>
    match s.writer with
    | .writing item => some { s with
        outbox := if 0 < item.audioBytes then s.outbox.markDelivered item else s.outbox
        writer := .looking
        marked := s.marked ++ [item] }
    | _ => none
  | .fail =>
    match s.writer with
    | .writing item => some { s with writer := .left (some item) }
    | _ => none
  | .dropAudio itemID => some { s with
      outbox := (s.outbox.dropAudio itemID).2
      removed := s.removed ++ audio s.outbox.items }

/-- What holds of a line. -/
structure Kept (s : Line M) : Prop where
  all : s.accepted.Perm (s.popped ++ s.outbox.items ++ s.removed)
  ordered : (s.popped ++ s.outbox.items).Sublist s.accepted
  controls : controls (s.popped ++ s.outbox.items) = controls s.accepted
  popped : s.popped = s.marked ++ s.writer.unmarked
  delivered : ∀ itemID, s.outbox.delivered itemID = bytesOf itemID s.marked
  capacity : s.outbox.items.length ≤ s.outbox.capacity
  signal : s.writer = .waiting → s.outbox.items ≠ [] → s.outbox.notify = true ∨ 0 < s.signalling

variable {s s' : Line M}

theorem Kept.init (capacity : ℕ) : Kept (Line.init capacity : Line M) :=
  ⟨.refl _, .slnil, rfl, rfl, fun _ => rfl, Nat.zero_le _, (fun h => nomatch h)⟩

/-- A message is queued. -/
theorem Kept.push (h : Kept s) (item : OutItem M) (hs : s.step (.push item) = some s') :
    Kept s' := by
  simp only [step, Outbox.push] at hs
  split_ifs at hs with hfull
  · cases hs
    exact h
  · cases hs
    have happend : s.popped ++ (s.outbox.items ++ [item]) = s.popped ++ s.outbox.items ++ [item] :=
      (List.append_assoc _ _ _).symm
    refine ⟨?_, ?_, ?_, h.popped, h.delivered, ?_, fun _ _ => .inr (Nat.succ_pos _)⟩
    · refine (h.all.append_right [item]).trans ?_
      dsimp only
      rw [happend, List.append_assoc, List.append_assoc (s.popped ++ s.outbox.items)]
      exact List.Perm.append_left _ List.perm_append_comm
    · dsimp only
      rw [happend]
      exact h.ordered.append_right _
    · dsimp only
      rw [happend, controls_append, h.controls, ← controls_append]
    · dsimp only
      rw [List.length_append, List.length_singleton]
      omega

/-- The writer looks at the queue. -/
theorem Kept.look (h : Kept s) (hs : s.step .look = some s') : Kept s' := by
  simp only [step, Outbox.take] at hs
  split at hs
  next hlooking =>
    cases hitems : s.outbox.items with
    | nil =>
      rw [hitems] at hs
      cases hs
      refine ⟨h.all, h.ordered, h.controls, ?_, h.delivered, h.capacity, fun _ hne =>
        absurd hitems hne⟩
      rw [h.popped, hlooking]
      rfl
    | cons item rest =>
      rw [hitems] at hs
      cases hs
      have happend : s.popped ++ [item] ++ rest = s.popped ++ s.outbox.items := by
        rw [hitems, List.append_assoc, List.singleton_append]
      refine ⟨?_, ?_, ?_, ?_, h.delivered, ?_, (fun hw => nomatch hw)⟩
      · dsimp only
        rw [happend]
        exact h.all
      · dsimp only
        rw [happend]
        exact h.ordered
      · dsimp only
        rw [happend]
        exact h.controls
      · dsimp only
        rw [h.popped, hlooking]
        simp [Writer.unmarked]
      · have hle := h.capacity
        rw [hitems, List.length_cons] at hle
        exact Nat.le_of_succ_le hle
  next => cases hs

/-- The writer has written a message. -/
theorem Kept.wrote (h : Kept s) (hs : s.step .wrote = some s') : Kept s' := by
  simp only [step] at hs
  split at hs
  next item hwriting =>
    cases hs
    have hpopped : s.popped = s.marked ++ [item] := by
      have hp := h.popped
      rwa [hwriting] at hp
    have hmark : (if 0 < item.audioBytes then s.outbox.markDelivered item else s.outbox) =
        s.outbox.markDelivered item := by
      split_ifs with hpos
      · rfl
      · unfold Outbox.markDelivered
        rw [if_pos (by omega)]
    rw [hmark]
    obtain ⟨hitems, hcapacity, hcount⟩ := markDelivered_spec s.outbox item
    have hdelivered : ∀ itemID, (s.outbox.markDelivered item).delivered itemID =
        bytesOf itemID (s.marked ++ [item]) := by
      intro itemID
      rw [hcount, bytesOf_append, bytesOf_cons, bytesOf_nil, Nat.add_zero, h.delivered]
    refine ⟨?_, ?_, ?_, ?_, hdelivered, ?_, (fun hw => nomatch hw)⟩
    · dsimp only
      rw [hitems]
      exact h.all
    · dsimp only
      rw [hitems]
      exact h.ordered
    · dsimp only
      rw [hitems]
      exact h.controls
    · dsimp only
      rw [hpopped]
      exact (List.append_nil _).symm
    · dsimp only
      rw [hitems, hcapacity]
      exact h.capacity
  next => cases hs

/-- Every message is audio or not. -/
theorem controls_append_audio (items : List (OutItem M)) :
    items.Perm (Gateway.controls items ++ audio items) := by
  have hfilter :=
    (List.filter_append_perm (fun item : OutItem M => decide (item.audioBytes = 0)) items).symm
  simpa only [Gateway.controls, audio, ne_eq, decide_not] using hfilter

/-- The audio of an item is dropped. -/
theorem Kept.dropAudio (h : Kept s) (itemID : String) (hs : s.step (.dropAudio itemID) = some s') :
    Kept s' := by
  cases hs
  rw [dropAudio_eq]
  have hsub : (Gateway.controls s.outbox.items).Sublist s.outbox.items := List.filter_sublist
  refine ⟨?_, ?_, ?_, h.popped, h.delivered, ?_, fun hw hne => h.signal hw ?_⟩
  · refine h.all.trans ?_
    have hperm := controls_append_audio s.outbox.items
    have hall : (s.popped ++ s.outbox.items ++ s.removed).Perm
        (s.popped ++ (Gateway.controls s.outbox.items ++ audio s.outbox.items) ++ s.removed) :=
      (hperm.append_left _).append_right _
    refine hall.trans ?_
    simp only [List.append_assoc]
    exact ((List.perm_append_comm).append_left _).append_left _
  · exact (hsub.append_left _).trans h.ordered
  · dsimp only
    rw [← h.controls, controls_append, controls_append]
    unfold Gateway.controls
    rw [List.filter_filter]
    simp
  · exact Nat.le_trans hsub.length_le h.capacity
  · intro hnil
    refine hne ?_
    have hnone : Gateway.controls s.outbox.items = [] := by rw [hnil]; rfl
    exact hnone

/-- Every step keeps the invariant. -/
theorem Kept.step (h : Kept s) (hs : s.step l = some s') : Kept s' := by
  cases l with
  | push item => exact h.push item hs
  | signal =>
    simp only [Line.step] at hs
    split_ifs at hs
    cases hs
    exact ⟨h.all, h.ordered, h.controls, h.popped, h.delivered, h.capacity, fun _ _ => .inl rfl⟩
  | look => exact h.look hs
  | wake =>
    simp only [Line.step] at hs
    split at hs
    next hwaiting =>
      split_ifs at hs
      cases hs
      refine ⟨h.all, h.ordered, h.controls, ?_, h.delivered, h.capacity, (fun hw => nomatch hw)⟩
      rw [h.popped, hwaiting]
      rfl
    next => cases hs
  | cancel =>
    simp only [Line.step] at hs
    split at hs
    next hwaiting =>
      cases hs
      refine ⟨h.all, h.ordered, h.controls, ?_, h.delivered, h.capacity, (fun hw => nomatch hw)⟩
      rw [h.popped, hwaiting]
      rfl
    next => cases hs
  | wrote => exact h.wrote hs
  | fail =>
    simp only [Line.step] at hs
    split at hs
    next item hwriting =>
      cases hs
      refine ⟨h.all, h.ordered, h.controls, ?_, h.delivered, h.capacity, (fun hw => nomatch hw)⟩
      rw [h.popped, hwriting]
      rfl
    next => cases hs
  | dropAudio itemID => exact h.dropAudio itemID hs

/-- A signal is not lost: as long as the writer waits, it stays. -/
theorem notify_step (hs : s.step l = some s') (hwaiting : s'.writer = .waiting)
    (hnotify : s.writer = .waiting ∧ s.outbox.notify = true ∨ l = .signal) :
    s'.outbox.notify = true := by
  rcases hnotify with ⟨hw, hn⟩ | rfl
  · cases l with
    | push item =>
      simp only [Line.step, Outbox.push] at hs
      split_ifs at hs <;> (cases hs; exact hn)
    | dropAudio itemID =>
      cases hs
      rw [dropAudio_eq]
      exact hn
    | signal =>
      simp only [Line.step] at hs
      split_ifs at hs
      cases hs
      rfl
    | wake =>
      simp only [Line.step, hw] at hs
      split_ifs at hs
      cases hs
      cases hwaiting
    | cancel =>
      simp only [Line.step, hw] at hs
      cases hs
      cases hwaiting
    | _ =>
      simp only [Line.step, hw] at hs
      cases hs
  · simp only [Line.step] at hs
    split_ifs at hs
    cases hs
    rfl

end Line

/-- What the outbox accounts for. -/
structure Line.Accounted (s : Line M) : Prop where
  bytes : ∀ itemID, bytesOf itemID s.accepted = bytesOf itemID s.outbox.items +
    bytesOf itemID s.writer.unmarked + s.outbox.delivered itemID + bytesOf itemID s.removed
  /-- `dropAudio` returns the bytes of the item that it removes and those that were marked, and
  leaves the control messages. -/
  dropAudio : ∀ itemID, s.outbox.dropAudio itemID =
    ((bytesOf itemID (audio s.outbox.items), bytesOf itemID s.marked),
      { s.outbox with items := controls s.outbox.items })
  /-- The control messages are popped in order, and the others are still queued. -/
  controls : controls s.accepted = controls s.popped ++ controls s.outbox.items
  audio : (audio s.popped).Sublist (audio s.accepted)
  capacity : s.outbox.items.length ≤ s.outbox.capacity
  /-- If the writer waits while an item is queued, it gets a signal: it is there, or a producer is
  about to send it, and it stays as long as the writer waits. -/
  signal : s.writer = .waiting → s.outbox.items ≠ [] → s.outbox.notify = true ∨ 0 < s.signalling
  kept : ∀ l s', s.step l = some s' → s'.writer = .waiting →
    s.writer = .waiting ∧ s.outbox.notify = true ∨ l = .signal → s'.outbox.notify = true

/-- **Outbox accounting**, in every order of the steps. -/
theorem outbox_accounted {capacity : ℕ} {ls : List (Line.Label M)} {s : Line M}
    (h : Runs Line.step (fun _ _ => True) (.init capacity) ls s) : s.Accounted := by
  have hkept : s.Kept := Runs.inv (fun _ _ _ hs _ hstep => hs.step hstep) h (.init capacity)
  refine ⟨fun itemID => ?_, fun itemID => ?_, ?_, ?_, hkept.capacity, hkept.signal,
    fun l s' hs hw hn => Line.notify_step hs hw hn⟩
  · rw [bytesOf_perm hkept.all, bytesOf_append, bytesOf_append, hkept.popped, bytesOf_append,
      hkept.delivered]
    omega
  · rw [dropAudio_eq, hkept.delivered, bytesOf_audio]
  · rw [← hkept.controls, controls_append]
  · exact ((List.sublist_append_left _ _).trans hkept.ordered).filter _

/-- Audio of two items and a control message are queued; one chunk is delivered and the others
dropped. -/
def bargedIn : List (Line.Label String) :=
  [.look, .push ⟨"one", "a", 100⟩, .signal, .wake, .push ⟨"stop", "", 0⟩, .push ⟨"two", "a", 200⟩,
    .look, .push ⟨"three", "b", 50⟩, .wrote, .dropAudio "a", .look, .signal, .wrote, .look]

/-- After that run the writer waits, and what was delivered and dropped is accounted for. -/
theorem outbox_accounted_bargedIn : ∃ s : Line String,
    Runs Line.step (fun _ _ => True) (.init 16) bargedIn s ∧ s.Accounted ∧
    s.popped.map OutItem.msg = ["one", "stop"] ∧ s.removed.map OutItem.msg = ["two", "three"] ∧
    s.outbox.delivered "a" = 100 ∧ s.writer = .waiting := by
  have hrun : (run Line.step (fun _ _ => true) (.init 16) bargedIn).any (fun s => decide
      (s.popped.map OutItem.msg = ["one", "stop"] ∧ s.removed.map OutItem.msg = ["two", "three"] ∧
        s.outbox.delivered "a" = 100 ∧ s.writer = .waiting)) = true := by decide +kernel
  obtain ⟨s, hrun, hend⟩ := exists_of_run hrun
  have hrun := hrun.weaken fun _ _ _ => trivial
  exact ⟨s, hrun, outbox_accounted hrun, hend⟩

end Jarvis.Gateway

import Jarvis.Gateway.Outbox
import Jarvis.Trace

/-!
# The voice gateway: barge-in silences the response

The provider loop queues the audio of a response, the reader loop interrupts it when the client says
so, and so does the provider loop itself when the user speaks. Source:
`services/voice-gateway/internal/session/session.go`. The mark of an interrupted response is guarded
by the session's mutex and the queue by its own: a chunk is checked against the mark, and queued
later.
-/

namespace Jarvis.Gateway

open Steps Trace

/-- Source: `voicev1.ServerMessage`: audio of a response, or anything else -/
inductive ServerMessage where
  | outputAudio (responseID : String)
  | control
  deriving DecidableEq, Repr

/-- What the provider loop or the reader loop is doing. -/
inductive Doing where
  | idle
  /-- It has checked a chunk and is about to queue it. -/
  | queueing (item : OutItem ServerMessage)
  /-- In `interrupt`, before `dropAudio`. `ended`: the response was done meanwhile. -/
  | marked (response item : String) (ended : Bool)
  /-- In `interrupt`, after `dropAudio`. -/
  | dropped (response : String) (ended : Bool)
  deriving DecidableEq, Repr

inductive Sound where
  | put (item : OutItem ServerMessage)
  | took (item : OutItem ServerMessage)
  /-- `interrupt` has returned for a response that was not done meanwhile. -/
  | returned (response : String)
  | done (response : String)
  deriving DecidableEq, Repr

/-- Source: `session`, what concerns playback -/
structure Playback where
  currentResponse : String := ""
  currentItem : String := ""
  interrupted : List String := []
  outbox : Outbox ServerMessage
  provider : Doing := .idle
  reader : Doing := .idle
  trace : List Sound := []

inductive Playback.Label where
  | responseCreated (responseID : String)
  | audioDelta (responseID itemID : String) (bytes : ℕ)
  /-- The provider loop queues the chunk that it has checked. -/
  | queue
  | responseDone (responseID : String)
  /-- `interrupt` is called: by the reader loop, or else by the provider loop. -/
  | interrupt (byReader : Bool)
  /-- `interrupt` goes on with `dropAudio`. -/
  | drop (byReader : Bool)
  /-- `interrupt` returns. -/
  | leave (byReader : Bool)
  /-- Some goroutine queues a control message. -/
  | control
  /-- The writer takes an item. -/
  | take
  deriving DecidableEq, Repr

/-- A response that someone is interrupting is done. -/
def Doing.finish (responseID : String) : Doing → Doing
  | .marked response item ended => .marked response item (ended || response = responseID)
  | .dropped response ended => .dropped response (ended || response = responseID)
  | d => d

namespace Playback

variable (s : Playback)

def doing (byReader : Bool) : Doing := if byReader then s.reader else s.provider

def setDoing (byReader : Bool) (d : Doing) : Playback :=
  if byReader then { s with reader := d } else { s with provider := d }

/-- Source: `s.out.push` -/
def push (item : OutItem ServerMessage) : Playback :=
  match s.outbox.push item with
  | some outbox => { s with outbox := outbox, trace := .put item :: s.trace }
  | none => s

/-- Source: `handleEvent`, `realtime.AudioDelta`, under the mutex -/
def audioDelta (responseID itemID : String) (bytes : ℕ) : Playback :=
  if responseID ∈ s.interrupted then s
  else
    let s := { s with
      currentItem := itemID
      currentResponse := if s.currentResponse = "" then responseID else s.currentResponse }
    if bytes = 0 then s else
      { s with provider := .queueing ⟨.outputAudio responseID, itemID, bytes⟩ }

/-- Source: `handleEvent`, `realtime.ResponseDone`, under the mutex -/
def responseDone (responseID : String) : Playback :=
  { s with
    interrupted := s.interrupted.filter (· ≠ responseID)
    currentResponse := if s.currentResponse = responseID then "" else s.currentResponse
    provider := s.provider.finish responseID
    reader := s.reader.finish responseID
    trace := .done responseID :: s.trace }

/-- Source: `interrupt`, under the mutex -/
def interrupt (byReader : Bool) : Playback :=
  let s' := if s.currentResponse = "" then s
    else { s with interrupted := s.interrupted.insert s.currentResponse }
  s'.setDoing byReader (.marked s.currentResponse s.currentItem false)

/-- One step. -/
def step : Label → Option Playback
  | .responseCreated responseID =>
    if s.provider = .idle then some { s with currentResponse := responseID } else none
  | .audioDelta responseID itemID bytes =>
    if s.provider = .idle then some (s.audioDelta responseID itemID bytes) else none
  | .queue =>
    match s.provider with
    | .queueing item => some ({ s with provider := .idle }.push item)
    | _ => none
  | .responseDone responseID =>
    if s.provider = .idle then some (s.responseDone responseID) else none
  | .interrupt byReader => if s.doing byReader = .idle then some (s.interrupt byReader) else none
  | .drop byReader =>
    match s.doing byReader with
    | .marked response item ended =>
      some ({ s with outbox := (s.outbox.dropAudio item).2 }.setDoing byReader
        (.dropped response ended))
    | _ => none
  | .leave byReader =>
    match s.doing byReader with
    | .dropped response ended =>
      let s' := if response = "" ∨ ended then s else
        { s with trace := .returned response :: s.trace }
      some (s'.setDoing byReader .idle)
    | _ => none
  | .control => some (s.push ⟨.control, "", 0⟩)
  | .take => s.outbox.take.map fun (item, outbox) =>
    { s with outbox := outbox, trace := .took item :: s.trace }

def init (capacity : ℕ) : Playback := { outbox := .new capacity }

end Playback

/-- `interrupt` has returned for the response, which is not done since. -/
def silenced (responseID : String) : List Sound → Bool
  | [] => false
  | .returned r :: trace => r = responseID || silenced responseID trace
  | .done r :: trace => r ≠ responseID && silenced responseID trace
  | _ :: trace => silenced responseID trace

/-- Audio is queued and taken of responses that are not silenced. -/
def Sound.Allowed (earlier : List Sound) : Sound → Prop
  | .put item => ∀ r, item.msg = .outputAudio r → silenced r earlier = false
  | .took item => ∀ r, item.msg = .outputAudio r → silenced r earlier = false
  | _ => True

/-- When the queue is cleared for a response that is not done meanwhile, the provider loop holds no
chunk of it that it has already checked. -/
def Playback.clear (s : Playback) : Playback.Label → Bool
  | .drop byReader =>
    match s.doing byReader, s.provider with
    | .marked response _ ended, .queueing item =>
      response = "" || ended || item.msg ≠ .outputAudio response
    | _, _ => true
  | _ => true

/-! ### The invariant -/

/-- The provider loop holds a chunk of the response. -/
def Doing.holds (r : String) : Doing → Prop
  | .queueing item => item.msg = .outputAudio r
  | _ => False

/-- Nothing of the response is queued, or about to be. -/
structure Playback.Quiet (s : Playback) (r : String) : Prop where
  queue : ∀ item ∈ s.outbox.items, item.msg ≠ .outputAudio r
  held : ¬s.provider.holds r

/-- What holds of someone who is interrupting a response that is not done. -/
def Playback.Interrupting (s : Playback) : Doing → Prop
  | .marked response _ ended => response = "" ∨ ended = true ∨ response ∈ s.interrupted
  | .dropped response ended =>
    response = "" ∨ ended = true ∨ response ∈ s.interrupted ∧ s.Quiet response
  | _ => True

structure Playback.Kept (s : Playback) : Prop where
  chunks : ∀ item ∈ s.outbox.items, item.msg ≠ .control → 0 < item.audioBytes
  held : ∀ item, s.provider = .queueing item → 0 < item.audioBytes
  provider : s.Interrupting s.provider
  reader : s.Interrupting s.reader
  silent : ∀ r, silenced r s.trace = true → r ∈ s.interrupted ∧ s.Quiet r
  allowed : Each Sound.Allowed s.trace

namespace Playback

variable {s s' : Playback}

variable {d : Doing} {item : OutItem ServerMessage} {byReader ended : Bool}

/-- Responses stay marked, and quiet. -/
theorem Interrupting.mono (h : s.Interrupting d) (hmark : ∀ r ∈ s.interrupted, r ∈ s'.interrupted)
    (hquiet : ∀ r ∈ s.interrupted, s.Quiet r → s'.Quiet r) : s'.Interrupting d := by
  cases d with
  | marked response item ended => exact h.imp_right (Or.imp_right (hmark response))
  | dropped response ended =>
    exact h.imp_right (Or.imp_right fun ⟨hmem, hq⟩ => ⟨hmark _ hmem, hquiet _ hmem hq⟩)
  | _ => trivial

/-- A step that neither marks nor silences anything. -/
theorem Kept.frame (h : Kept s) (hmark : s'.interrupted = s.interrupted)
    (hreader : s'.reader = s.reader) (hprovider : s'.Interrupting s'.provider)
    (hchunks : ∀ item ∈ s'.outbox.items, item.msg ≠ .control → 0 < item.audioBytes)
    (hheld : ∀ item, s'.provider = .queueing item → 0 < item.audioBytes)
    (hquiet : ∀ r ∈ s.interrupted, s.Quiet r → s'.Quiet r)
    (hsilent : ∀ r, silenced r s'.trace = silenced r s.trace)
    (hallowed : Each Sound.Allowed s'.trace) : Kept s' := by
  refine ⟨hchunks, hheld, hprovider, ?_, fun r hr => ?_, hallowed⟩
  · rw [hreader]
    exact h.reader.mono (fun r hr => hmark ▸ hr) hquiet
  · rw [hsilent] at hr
    obtain ⟨hmem, hq⟩ := h.silent r hr
    exact ⟨hmark ▸ hmem, hquiet r hmem hq⟩

/-- A chunk is checked against the mark. -/
theorem Kept.audioDelta (h : Kept s) (responseID itemID : String) (bytes : ℕ) :
    Kept (s.audioDelta responseID itemID bytes) := by
  unfold Playback.audioDelta
  generalize (if s.currentResponse = "" then responseID else s.currentResponse) = current
  dsimp only
  split_ifs with hdropped hbytes
  · exact h
  · exact h.frame rfl rfl (h.provider.mono (fun _ hr => hr) fun _ _ hq =>
      ⟨hq.queue, hq.held⟩) h.chunks
      h.held (fun _ _ hq => ⟨hq.queue, hq.held⟩) (fun _ => rfl) h.allowed
  · refine h.frame rfl rfl trivial h.chunks (fun item hitem => ?_) (fun r hr hq => ⟨hq.queue, ?_⟩)
      (fun _ => rfl) h.allowed
    · cases hitem
      exact Nat.pos_of_ne_zero hbytes
    · -- The chunk is of another response, which is not marked.
      intro hholds
      have heq : ServerMessage.outputAudio responseID = .outputAudio r := hholds
      obtain rfl := ServerMessage.outputAudio.inj heq
      exact hdropped hr

/-- An item is queued, by the provider loop that held it or by anyone, of a response that is not
silenced. -/
theorem Kept.push (h : Kept s) (hd : d = .idle ∨ d = s.provider)
    (hitem : item.msg ≠ .control → 0 < item.audioBytes)
    (hquiet : ∀ r, s.Quiet r → item.msg ≠ .outputAudio r) :
    Kept ({ s with provider := d }.push item) := by
  have hholds : ∀ r, s.Quiet r → ¬d.holds r := by
    intro r hq
    rcases hd with rfl | rfl
    · exact id
    · exact hq.held
  have hbytes : ∀ item, d = .queueing item → 0 < item.audioBytes := by
    rintro item rfl
    rcases hd with hd | hd
    · cases hd
    · exact h.held item hd.symm
  have hinterrupting : ∀ s' : Playback, s'.interrupted = s.interrupted →
      (∀ r ∈ s.interrupted, s.Quiet r → s'.Quiet r) → s'.Interrupting d := by
    intro s' hmark hq
    rcases hd with rfl | rfl
    · trivial
    · exact h.provider.mono (fun r hr => hmark ▸ hr) hq
  unfold Playback.push Outbox.push
  split_ifs with hfull
  · have hq : ∀ r ∈ s.interrupted, s.Quiet r → Quiet { s with provider := d } r := fun r _ hq =>
      ⟨hq.queue, hholds r hq⟩
    exact h.frame rfl rfl (hinterrupting _ rfl hq) h.chunks hbytes hq (fun _ => rfl) h.allowed
  · have hq : ∀ r ∈ s.interrupted, s.Quiet r → Quiet { s with
        provider := d
        outbox := { s.outbox with items := s.outbox.items ++ [item] }
        trace := .put item :: s.trace } r := by
      intro r _ hq
      refine ⟨fun item' hmem => ?_, hholds r hq⟩
      rcases List.mem_append.mp hmem with hmem | hmem
      · exact hq.queue item' hmem
      · obtain rfl := List.mem_singleton.mp hmem
        exact hquiet r hq
    refine h.frame rfl rfl (hinterrupting _ rfl hq)
      (fun item' hmem hne => ?_) hbytes hq (fun _ => rfl)
      ⟨fun r hr => ?_, h.allowed⟩
    · rcases List.mem_append.mp hmem with hmem | hmem
      · exact h.chunks item' hmem hne
      · obtain rfl := List.mem_singleton.mp hmem
        exact hitem hne
    · by_contra hsilenced
      exact hquiet r (h.silent r (by simpa using hsilenced)).2 hr

/-- A chunk that was checked is queued. -/
theorem Kept.queue (h : Kept s) (hprovider : s.provider = .queueing item) :
    Kept ({ s with provider := .idle }.push item) := by
  refine h.push (.inl rfl) (fun _ => h.held item hprovider) fun r hq heq => hq.held ?_
  rw [hprovider]
  exact heq

/-- A message that is not audio is queued. -/
theorem Kept.control (h : Kept s) : Kept (s.push ⟨.control, "", 0⟩) :=
  h.push (d := s.provider) (.inr rfl) (fun hne => absurd rfl hne) (fun _ _ => nofun)

/-- A response is done: it is not marked any more, and whoever interrupts it knows. -/
theorem Interrupting.finish (h : s.Interrupting d) (responseID : String)
    (hprovider : s.provider = .idle) :
    (s.responseDone responseID).Interrupting (d.finish responseID) := by
  have hquiet : ∀ r, s.Quiet r → (s.responseDone responseID).Quiet r := by
    intro r hq
    refine ⟨hq.queue, ?_⟩
    unfold responseDone
    rw [hprovider]
    exact id
  have hmem : ∀ r ∈ s.interrupted, r ≠ responseID → r ∈ (s.responseDone responseID).interrupted :=
    fun r hr hne =>
    List.mem_filter.mpr ⟨hr, decide_eq_true hne⟩
  cases d with
  | marked response item ended =>
    by_cases heq : response = responseID
    · exact .inr (.inl (by simp [heq]))
    · rcases h with hempty | hover | hmark
      · exact .inl hempty
      · exact .inr (.inl (by simp [hover]))
      · exact .inr (.inr (hmem _ hmark heq))
  | dropped response ended =>
    by_cases heq : response = responseID
    · exact .inr (.inl (by simp [heq]))
    · rcases h with hempty | hover | ⟨hmark, hq⟩
      · exact .inl hempty
      · exact .inr (.inl (by simp [hover]))
      · exact .inr (.inr ⟨hmem _ hmark heq, hquiet _ hq⟩)
  | _ => trivial

/-- A response that is done may not be marked any more. -/
theorem Kept.responseDone (h : Kept s) (hprovider : s.provider = .idle) (responseID : String) :
    Kept (s.responseDone responseID) := by
  refine ⟨h.chunks, fun item hitem => ?_, h.provider.finish responseID hprovider,
    h.reader.finish responseID hprovider, fun r hr => ?_, trivial, h.allowed⟩
  · unfold Playback.responseDone at hitem
    rw [hprovider] at hitem
    cases hitem
  · obtain ⟨hne, hr⟩ : responseID ≠ r ∧ silenced r s.trace = true := by
      simpa only [Playback.responseDone, silenced, Bool.and_eq_true, decide_eq_true_eq] using hr
    obtain ⟨hmem, hq⟩ := h.silent r hr
    refine ⟨List.mem_filter.mpr ⟨hmem, decide_eq_true (Ne.symm hne)⟩, hq.queue, ?_⟩
    unfold Playback.responseDone
    rw [hprovider]
    exact id

/-- Someone goes on in `interrupt`; the queue may lose items, and responses may be marked. -/
theorem Kept.goOn {s₁ : Playback} (h : Kept s) (hprovider : s₁.provider = s.provider)
    (hreader : s₁.reader = s.reader) (hmark : ∀ r ∈ s.interrupted, r ∈ s₁.interrupted)
    (hitems : ∀ item ∈ s₁.outbox.items, item ∈ s.outbox.items) (hd : ∀ item, d ≠ .queueing item)
    (hdoing : (s₁.setDoing byReader d).Interrupting d) (hsilent : ∀ r, silenced r s₁.trace = true →
      silenced r s.trace = true ∨ r ∈ s.interrupted ∧ s.Quiet r)
    (hallowed : Each Sound.Allowed s₁.trace) : Kept (s₁.setDoing byReader d) := by
  have hquiet : ∀ r, s.Quiet r → (s₁.setDoing byReader d).Quiet r := by
    intro r hq
    cases byReader with
    | true => exact ⟨fun item hmem => hq.queue item (hitems item hmem), hprovider ▸ hq.held⟩
    | false =>
      refine ⟨fun item hmem => hq.queue item (hitems item hmem), fun hholds => ?_⟩
      cases d with
      | queueing item => exact hd item rfl
      | _ => exact hholds
  have hall : ∀ r, silenced r s₁.trace = true →
      r ∈ (s₁.setDoing byReader d).interrupted ∧ (s₁.setDoing byReader d).Quiet r := by
    intro r hr
    obtain ⟨hmem, hq⟩ : r ∈ s.interrupted ∧ s.Quiet r := (hsilent r hr).elim (h.silent r) id
    refine ⟨?_, hquiet r hq⟩
    cases byReader with
    | true | false => exact hmark r hmem
  cases byReader with
  | true =>
    refine ⟨fun item hmem => h.chunks item (hitems item hmem), fun item hitem => ?_, ?_,
      hdoing, hall, hallowed⟩
    · exact h.held item (hprovider ▸ hitem)
    · have hp : (s₁.setDoing true d).provider = s.provider := hprovider
      rw [hp]
      exact h.provider.mono hmark fun r _ hq => hquiet r hq
  | false =>
    refine ⟨fun item hmem => h.chunks item (hitems item hmem), fun item hitem =>
      absurd hitem (hd item), hdoing, ?_, hall, hallowed⟩
    have hp : (s₁.setDoing false d).reader = s.reader := hreader
    rw [hp]
    exact h.reader.mono hmark fun r _ hq => hquiet r hq

/-- A loop begins to interrupt. -/
theorem Kept.interrupt (h : Kept s) (byReader : Bool) : Kept (s.interrupt byReader) := by
  unfold Playback.interrupt
  dsimp only
  split_ifs with hnone
  · exact h.goOn rfl rfl (fun _ hr => hr) (fun _ hmem => hmem) (fun _ => nofun) (.inl hnone)
      (fun _ hr => .inl hr) h.allowed
  · refine h.goOn rfl rfl (fun _ hr => List.mem_insert_of_mem hr)
      (fun _ hmem => hmem) (fun _ => nofun)
      (.inr (.inr ?_)) (fun _ hr => .inl hr) h.allowed
    cases byReader with
    | true | false => exact List.mem_insert_self

/-- What a loop knows of the response it interrupts. -/
theorem interrupting_doing (h : Kept s) (byReader : Bool) : s.Interrupting (s.doing byReader) := by
  cases byReader with
  | true => exact h.reader
  | false => exact h.provider

/-- The queue is cleared while nobody holds a chunk of the response. -/
theorem Kept.drop (h : Kept s) {response item : String}
    (hdoing : s.doing byReader = .marked response item ended)
    (hclear : s.clear (.drop byReader) = true) :
    Kept ({ s with outbox := (s.outbox.dropAudio item).2 }.setDoing byReader
      (.dropped response ended)) := by
  have hitems : ((s.outbox.dropAudio item).2).items = controls s.outbox.items := by
    rw [dropAudio_eq]
  have hmarked := interrupting_doing h byReader
  rw [hdoing] at hmarked
  -- What is left has no bytes, so that it is no chunk.
  have hleft : ∀ r, ∀ x ∈ controls s.outbox.items, x.msg ≠ .outputAudio r := by
    intro r x hx heq
    obtain ⟨hmem, hzero⟩ := List.mem_filter.mp hx
    have hpos := h.chunks x hmem (by rw [heq]; nofun)
    have hzero : x.audioBytes = 0 := of_decide_eq_true hzero
    omega
  refine h.goOn rfl rfl (fun _ hr => hr) (fun x hx => ?_) (fun _ => nofun) ?_
    (fun _ hr => .inl hr) h.allowed
  · rw [hitems] at hx
    exact (List.mem_filter.mp hx).1
  · rcases hmarked with hempty | hover | hmem
    · exact .inl hempty
    · exact .inr (.inl hover)
    · by_cases hdone : response = "" ∨ ended = true
      · exact hdone.imp_right .inl
      · refine .inr (.inr ⟨?_, ?_, ?_⟩)
        · cases byReader with
          | true | false => exact hmem
        · cases byReader with
          | true | false => exact hitems ▸ hleft response
        · intro hholds
          cases byReader with
          | true =>
            have hholds : s.provider.holds response := hholds
            cases hprovider : s.provider with
            | queueing x =>
              rw [hprovider] at hholds
              rw [not_or] at hdone
              simp only [clear, hdoing, hprovider, Bool.or_eq_true, decide_eq_true_eq] at hclear
              rcases hclear with (hempty | hover) | hne
              · exact hdone.1 hempty
              · exact hdone.2 hover
              · exact hne hholds
            | _ =>
              rw [hprovider] at hholds
              exact hholds
          | false => exact hholds

/-- `interrupt` returns. -/
theorem Kept.leave (h : Kept s) {response : String}
    (hdoing : s.doing byReader = .dropped response ended) :
    Kept ((if response = "" ∨ ended = true then s
      else { s with trace := .returned response :: s.trace }).setDoing byReader .idle) := by
  have hdropped := interrupting_doing h byReader
  rw [hdoing] at hdropped
  split_ifs with hover
  · exact h.goOn rfl rfl (fun _ hr => hr) (fun _ hmem => hmem) (fun _ => nofun) trivial
      (fun _ hr => .inl hr) h.allowed
  · refine h.goOn rfl rfl (fun _ hr => hr) (fun _ hmem => hmem)
      (fun _ => nofun) trivial (fun r hr => ?_)
      ⟨trivial, h.allowed⟩
    rw [silenced, Bool.or_eq_true, decide_eq_true_iff] at hr
    rcases hr with rfl | hr
    · rw [not_or] at hover
      exact .inr (hdropped.elim (absurd · hover.1) fun h => h.elim (absurd · hover.2) id)
    · exact .inl hr

/-- The writer takes an item. -/
theorem Kept.take (h : Kept s) (hitems : s.outbox.items = item :: rest) :
    Kept { s with outbox := { s.outbox with items := rest }, trace := .took item :: s.trace } := by
  have hsub : ∀ x ∈ rest, x ∈ s.outbox.items := fun x hx => hitems ▸ List.mem_cons_of_mem _ hx
  have hquiet : ∀ r ∈ s.interrupted, s.Quiet r → Quiet { s with
      outbox := { s.outbox with items := rest }
      trace := .took item :: s.trace } r := fun r _ hq =>
    ⟨fun x hx => hq.queue x (hsub x hx), hq.held⟩
  refine h.frame rfl rfl (h.provider.mono (fun _ hr => hr) hquiet)
    (fun x hx => h.chunks x (hsub x hx)) h.held
    hquiet (fun _ => rfl) ⟨fun r hr => ?_, h.allowed⟩
  by_contra hsilenced
  have hq := (h.silent r (by simpa using hsilenced)).2
  exact hq.queue item (hitems ▸ List.mem_cons_self) hr

/-- Every step that meets the condition keeps the invariant. -/
theorem Kept.step (h : Kept s) {l : Label} (hclear : s.clear l = true) (hs : s.step l = some s') :
    Kept s' := by
  cases l with
  | responseCreated responseID =>
    simp only [Playback.step] at hs
    split_ifs at hs
    cases hs
    exact h.frame rfl rfl (h.provider.mono (fun _ hr => hr) fun _ _ hq =>
      ⟨hq.queue, hq.held⟩) h.chunks
      h.held (fun _ _ hq => ⟨hq.queue, hq.held⟩) (fun _ => rfl) h.allowed
  | audioDelta responseID itemID bytes =>
    simp only [Playback.step] at hs
    split_ifs at hs
    cases hs
    exact h.audioDelta responseID itemID bytes
  | queue =>
    simp only [Playback.step] at hs
    split at hs
    next item hprovider =>
      cases hs
      exact h.queue hprovider
    next => cases hs
  | responseDone responseID =>
    simp only [Playback.step] at hs
    split_ifs at hs with hidle
    cases hs
    exact h.responseDone hidle responseID
  | interrupt byReader =>
    simp only [Playback.step] at hs
    split_ifs at hs
    cases hs
    exact h.interrupt byReader
  | drop byReader =>
    simp only [Playback.step] at hs
    split at hs
    next response item ended hdoing =>
      cases hs
      exact h.drop hdoing hclear
    next => cases hs
  | leave byReader =>
    simp only [Playback.step] at hs
    split at hs
    next response ended hdoing =>
      cases hs
      exact h.leave hdoing
    next => cases hs
  | control =>
    cases hs
    exact h.control
  | take =>
    simp only [Playback.step, Outbox.take] at hs
    cases hitems : s.outbox.items with
    | nil =>
      rw [hitems] at hs
      cases hs
    | cons item rest =>
      rw [hitems] at hs
      cases hs
      exact h.take hitems

theorem Kept.init (capacity : ℕ) : Kept (Playback.init capacity) :=
  ⟨(fun _ h => nomatch h), (fun _ h => nomatch h), trivial, trivial,
    (fun _ h => nomatch h), trivial⟩

end Playback

/-- **Barge-in silences the response**, if the provider loop holds no chunk of it that it has already
checked when the queue is cleared: once `interrupt` has returned, no chunk of the response that was
current is queued or taken until the response is done. -/
theorem silenced_after_interrupt {capacity : ℕ} {ls : List Playback.Label} {s : Playback}
    (h : Runs Playback.step (fun s l => s.clear l = true) (.init capacity) ls s) :
    Each Sound.Allowed s.trace :=
  (Runs.inv (P := Playback.Kept) (fun _ _ _ hs hl hstep => hs.step hl hstep) h
    (.init capacity)).allowed

/-- Two chunks are queued and one is taken when the client interrupts; the next one comes
afterwards. -/
def interruptedInTime : List Playback.Label :=
  [.responseCreated "r", .audioDelta "r" "i" 10, .queue, .audioDelta "r" "i" 20, .queue, .take,
    .interrupt true, .drop true, .leave true, .audioDelta "r" "i" 30, .control, .take]

/-- In that run the first chunk is taken, and none after `interrupt` has returned. -/
theorem silenced_after_interrupt_in_time : ∃ s : Playback,
    Runs Playback.step (fun s l => s.clear l = true) (.init 16) interruptedInTime s ∧
    Each Sound.Allowed s.trace ∧ s.trace = [.took ⟨.control, "", 0⟩, .put ⟨.control, "", 0⟩,
      .returned "r", .took ⟨.outputAudio "r", "i", 10⟩, .put ⟨.outputAudio "r", "i", 20⟩,
      .put ⟨.outputAudio "r", "i", 10⟩] := by
  obtain ⟨s, hrun, htrace⟩ : ∃ s : Playback,
      Runs Playback.step (fun s l => s.clear l = true) (.init 16) interruptedInTime s ∧
      s.trace = [.took ⟨.control, "", 0⟩, .put ⟨.control, "", 0⟩, .returned "r",
        .took ⟨.outputAudio "r", "i", 10⟩, .put ⟨.outputAudio "r", "i", 20⟩,
        .put ⟨.outputAudio "r", "i", 10⟩] := exists_of_run (by decide +kernel)
  exact ⟨s, hrun, silenced_after_interrupt hrun, htrace⟩

/-- The client interrupts between the check of a chunk and its queueing. -/
def interruptedBetween : List Playback.Label :=
  [.responseCreated "r", .audioDelta "r" "i" 10, .interrupt true, .drop true, .leave true, .queue,
    .take]

/-- The chunk is queued, and taken, after `interrupt` has returned. -/
theorem queued_after_interrupt : ∃ s : Playback,
    Runs Playback.step (fun _ _ => true = true) (.init 16) interruptedBetween s ∧
      s.trace = [.took ⟨.outputAudio "r", "i", 10⟩,
        .put ⟨.outputAudio "r", "i", 10⟩, .returned "r"] ∧
      silenced "r" [.returned "r"] = true :=
  exists_of_run (by decide +kernel)

end Jarvis.Gateway

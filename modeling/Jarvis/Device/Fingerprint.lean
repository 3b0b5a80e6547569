import Jarvis.Steps
import Jarvis.Device.Approval

/-!
# The Mac daemon: what was signed and what runs

The fingerprint of a command is a hash of its fields, each with its length in front, so that it
fixes every one of them but the timeout, of which only the milliseconds are hashed
(`encoded_eq_iff`). An approval is redeemed for the commands with the fingerprint of the one it was
issued for, whatever else is issued and redeemed in between (`Holds.call`).

The approver signs a message in which paths are texts and the timeout is a `prost_types::Duration`;
it shows the command if its paths are texts and its timeout fits (`shows_iff`). `signed_runs_iff`
puts the two together.
-/

namespace Jarvis.Device

open Encoding Steps

/-! ### The fingerprint -/

namespace CommandSpec

/-- What the types of the source allow: lengths are at most `isize::MAX`, and the seconds of a
`Duration` are a `u64`. -/
structure Fits (spec : CommandSpec) : Prop where
  program : spec.program.bytes.length < 2 ^ 63
  args : spec.args.length < 2 ^ 63
  arg : ∀ arg ∈ spec.args, (utf8 arg).length < 2 ^ 63
  workingDir : spec.workingDir.bytes.length < 2 ^ 63
  timeout : spec.timeout < 2 ^ 64 * 1000000000

/-- The two commands are the same but for the part of the timeout below a millisecond. -/
def SameToTheMillisecond (s s' : CommandSpec) : Prop :=
  { s with timeout := s'.timeout } = s' ∧ s.timeout / 1000000 = s'.timeout / 1000000

end CommandSpec

theorem lt_of_fits (h : n < 2 ^ 63) : n < 256 ^ 8 := lt_of_lt_of_le h (by norm_num)

theorem delimited_field : Delimited {l : Bytes | l.length < 2 ^ 63} field :=
  (delimited_bigEndian 8).prefixed.mono fun _ hl => lt_of_fits hl

/-- A list of arguments, with their number in front. -/
theorem delimited_args : Delimited {args : List String | args.length < 2 ^ 63 ∧
      ∀ arg ∈ args, (utf8 arg).length < 2 ^ 63}
    fun args => bigEndian 8 args.length ++ args.flatMap fun arg => field (utf8 arg) := by
  have harg : Delimited {arg : String | (utf8 arg).length < 2 ^ 63} fun arg => field (utf8 arg) :=
    delimited_field.comap utf8_injective.injOn fun _ h => h
  exact ((delimited_bigEndian 8).list harg).mono fun _ h => ⟨lt_of_fits h.1, h.2⟩

theorem flag_injective : Function.Injective flag := by
  intro a b
  revert a b
  decide

/-- **The fields that the fingerprint fixes.** -/
theorem encoded_eq_iff {s s' : CommandSpec} (hs : s.Fits) (hs' : s'.Fits) :
    s.encoded = s'.encoded ↔ s.SameToTheMillisecond s' := by
  constructor
  · intro h
    have hms : ∀ {t : ℕ}, t < 2 ^ 64 * 1000000000 → t / 1000000 < 256 ^ 16 := by
      intro t ht
      have : t / 1000000 ≤ t := Nat.div_le_self _ _
      omega
    simp only [CommandSpec.encoded, List.append_assoc] at h
    obtain ⟨hprogram, h⟩ := delimited_field hs.program hs'.program h
    obtain ⟨hargs, h⟩ := delimited_args ⟨hs.args, hs.arg⟩ ⟨hs'.args, hs'.arg⟩
      (by simpa only [List.append_assoc] using h)
    obtain ⟨hdir, h⟩ := delimited_field hs.workingDir hs'.workingDir h
    obtain ⟨htimeout, h⟩ := delimited_bigEndian 16 (hms hs.timeout) (hms hs'.timeout) h
    simp only [List.cons.injEq, and_true, flag_injective.eq_iff] at h
    obtain ⟨hwritable, hnetwork, hservices⟩ := h
    refine ⟨?_, htimeout⟩
    obtain ⟨⟨_⟩, _, ⟨_⟩, _, ⟨_, _, _⟩⟩ := s
    obtain ⟨⟨_⟩, _, ⟨_⟩, _, ⟨_, _, _⟩⟩ := s'
    simp_all
  · rintro ⟨heq, htimeout⟩
    rw [← heq]
    simp only [CommandSpec.encoded, htimeout]

/-! ### What the approver signs -/

/-- The message has the fields of the command. -/
structure ApprovalPayload.Shows (payload : ApprovalPayload) (spec : CommandSpec) : Prop where
  program : utf8 payload.program = spec.program.bytes
  args : payload.args = spec.args
  workingDirectory : utf8 payload.workingDirectory = spec.workingDir.bytes
  timeout : payload.timeout = some spec.timeout
  sandbox : payload.sandbox = some spec.grants

/-- The paths of the command are texts, and the seconds of its timeout are an `i64`. -/
structure CommandSpec.Displayable (spec : CommandSpec) : Prop where
  program : (fromUtf8 spec.program.bytes).isSome
  workingDir : (fromUtf8 spec.workingDir.bytes).isSome
  timeout : spec.timeout / 1000000000 < 2 ^ 63

section

variable {lib : Library}

theorem utf8_display_iff (hdisplay : ∀ p t, fromUtf8 p.bytes = some t → lib.display p = t)
    (p : Path) : utf8 (lib.display p) = p.bytes ↔ (fromUtf8 p.bytes).isSome := by
  constructor
  · intro h
    rw [← h, fromUtf8_utf8]
    rfl
  · intro h
    obtain ⟨t, ht⟩ := Option.isSome_iff_exists.mp h
    rw [hdisplay p t ht, utf8_of_fromUtf8 ht]

/-- **Which commands the message shows.** -/
theorem shows_iff (hdisplay : ∀ p t, fromUtf8 p.bytes = some t → lib.display p = t) :
    (payloadFor lib ttl deviceName spec at').Shows spec ↔ spec.Displayable := by
  have htimeout : protoDuration spec.timeout = some spec.timeout ↔
    spec.timeout / 1000000000 < 2 ^ 63 := by
    unfold protoDuration
    split_ifs with h
    · exact ⟨fun _ => h, fun _ => rfl⟩
    · exact ⟨nofun, fun h' => absurd h' h⟩
  constructor
  · intro h
    exact ⟨(utf8_display_iff hdisplay _).mp h.program,
      (utf8_display_iff hdisplay _).mp h.workingDirectory, htimeout.mp h.timeout⟩
  · intro h
    exact ⟨(utf8_display_iff hdisplay _).mpr h.program, rfl,
      (utf8_display_iff hdisplay _).mpr h.workingDir, htimeout.mpr h.timeout, rfl⟩

end

/-! ### An approval, from when it is issued -/

section

variable (lib : Library)

/-- A call of `PendingApprovals`. -/
inductive PendingCall where
  | issue (deviceName : String) (spec : CommandSpec) (at' : Moment)
  | redeem (approvers : Approvers lib) (approval : Approval) (spec : CommandSpec) (now : ℤ)

/-- The call does not issue this approval again. -/
def PendingCall.spares (id : String) : PendingCall lib → Prop
  | .issue _ _ at' => at'.uuid ≠ id
  | .redeem _ _ _ _ => True

/-- What is stored after a call. -/
def PendingCall.after (ttl capacity : ℕ) (entries : Entries) : PendingCall lib → Entries
  | .issue deviceName spec at' => (Device.issue lib ttl capacity deviceName spec at' entries).2
  | .redeem approvers approval spec now => (Device.redeem lib approvers approval spec now entries).2

/-- What was signed for `s` is what runs as `s'`: whenever an approval is issued for `s`, the
message that is signed has the fields of `s`, and if it is redeemed for `s'`, after any other calls,
then `s'` is `s`. -/
def SignedRuns (decode : Bytes → Option ApprovalPayload) (s s' : CommandSpec) : Prop :=
  ∀ ttl capacity deviceName at' entries₀ issued,
    (issue lib ttl capacity deviceName s at' entries₀).1 = .ok issued →
    (∃ payload, decode issued.payload = some payload ∧ payload.Shows s) ∧
    ∀ calls entries,
      Runs (fun entries call => some (PendingCall.after lib ttl capacity entries call))
        (fun _ call => call.spares lib issued.approvalId)
        (issue lib ttl capacity deviceName s at' entries₀).2 calls entries →
      ∀ approvers approval now approver, approval.approvalId = issued.approvalId →
        (redeem lib approvers approval s' now entries).1 = .ok approver → s' = s

end

section

variable {lib : Library} {ttl capacity : ℕ} {deviceName : String}

/-- What is stored under this name, if anything, is this. -/
def Holds (id : String) (pending : Pending) (entries : Entries) : Prop :=
  ∀ e ∈ entries, e.1 = id → e.2 = pending

variable {id : String} {pending : Pending} {entries : Entries}

/-- **A step**: a call that does not issue the approval again leaves it, or takes it away. -/
theorem Holds.call (h : Holds id pending entries) {call : PendingCall lib}
    (hspares : call.spares lib id) :
    Holds id pending (call.after lib ttl capacity entries) := by
  cases call with
  | issue deviceName spec at' =>
    intro e he hid
    rw [PendingCall.after, issue] at he
    dsimp only at he
    split_ifs at he
    · exact h e (List.mem_of_mem_filter he) hid
    · rcases mem_insert he with rfl | ⟨hmem, -⟩
      · exact absurd hid hspares
      · exact h e (List.mem_of_mem_filter hmem) hid
  | redeem approvers approval spec now =>
    intro e he hid
    exact h e (mem_redeem he).1 hid

/-- What an approval is issued with. -/
theorem issue_eq_ok (h : (issue lib ttl capacity deviceName spec at' entries).1 = .ok issued) :
    issued.approvalId = at'.uuid ∧ issued.payload = lib.encode
    (payloadFor lib ttl deviceName spec at') ∧
      Holds at'.uuid (pendingFor lib ttl deviceName spec at')
        (issue lib ttl capacity deviceName spec at' entries).2 := by
  rw [issue] at h ⊢
  dsimp only at h ⊢
  split_ifs at h ⊢
  rw [← Except.ok.inj h]
  refine ⟨rfl, rfl, fun e he hid => ?_⟩
  rcases mem_insert he with rfl | ⟨-, hne⟩
  · rfl
  · exact absurd hid hne

/-- An approval that has just been issued is redeemed for a command with the same fingerprint. -/
theorem redeem_issued (hsame : spec.fingerprint lib = spec'.fingerprint lib)
    (hverify : lib.verify key (signedMessage (lib.encode (payloadFor lib 1 "" spec ⟨0, 0, ""⟩)))
      signature = true) :
    (redeem lib [("", key)] ⟨"", "", signature⟩ spec' 0 (issue lib 1 1 "" spec ⟨0, 0, ""⟩ []).2).1 =
      .ok "" := by
  have hentries : (issue lib 1 1 "" spec ⟨0, 0, ""⟩ []).2 =
    [("", pendingFor lib 1 "" spec ⟨0, 0, ""⟩)] := rfl
  have hsigned : verify lib [("", key)] "" (lib.encode (payloadFor lib 1 "" spec ⟨0, 0, ""⟩))
    signature = true :=
    hverify
  rw [hentries]
  simp [redeem, pendingFor, hsame, hsigned]

/-- **When what was signed is what runs**: the two commands do not differ below a millisecond only,
and the one that was signed can be displayed. -/
theorem signed_runs_iff {decode : Bytes → Option ApprovalPayload} {s s' : CommandSpec} (hs : s.Fits)
    (hs' : s'.Fits) (hsha : lib.sha256 s.encoded = lib.sha256 s'.encoded → s.encoded = s'.encoded)
    (hdecode : ∀ ttl deviceName at', decode (lib.encode (payloadFor lib ttl deviceName s at')) =
      some (payloadFor lib ttl deviceName s at'))
    (hdisplay : ∀ p t, fromUtf8 p.bytes = some t → lib.display p = t)
    (hsign : ∃ key, ∀ message, ∃ signature, lib.verify key message signature = true) :
    SignedRuns lib decode s s' ↔ (s.SameToTheMillisecond s' → s.timeout = s'.timeout) ∧
    s.Displayable := by
  constructor
  · intro h
    obtain ⟨⟨payload, hpayload, hshows⟩, hredeem⟩ := h 1 1 "" ⟨0, 0, ""⟩ [] _ rfl
    obtain ⟨key, hkey⟩ := hsign
    refine ⟨fun hsame => ?_, ?_⟩
    · obtain ⟨signature, hverify⟩ :=
        hkey (signedMessage (lib.encode (payloadFor lib 1 "" s ⟨0, 0, ""⟩)))
      have hfingerprint : s.fingerprint lib = s'.fingerprint lib :=
        congrArg lib.sha256 ((encoded_eq_iff hs hs').mpr hsame)
      rw [hredeem [] _ (.nil _) _ _ _ _ rfl (redeem_issued hfingerprint hverify)]
    · obtain rfl := Option.some.inj (hpayload.symm.trans (hdecode 1 "" ⟨0, 0, ""⟩))
      exact (shows_iff hdisplay).mp hshows
  · rintro ⟨htimeout, hdisplayable⟩ ttl capacity deviceName at' entries₀ issued hissue
    obtain ⟨hid, hpayload, hholds⟩ := issue_eq_ok hissue
    refine ⟨⟨_, by rw [hpayload, hdecode], (shows_iff hdisplay).mpr hdisplayable⟩, ?_⟩
    intro calls entries hruns approvers approval now approver happroval hok
    rw [hid] at hruns happroval
    have hheld : Holds at'.uuid (pendingFor lib ttl deviceName s at') entries :=
      hruns.inv (fun _ _ _ hP hspares hstep => Option.some.inj hstep ▸ hP.call hspares) hholds
    obtain ⟨-, pending, hmem, -, hfingerprint, -⟩ := redeem_eq_ok hok
    obtain rfl := hheld _ hmem happroval
    have hsame := (encoded_eq_iff hs hs').mp (hsha hfingerprint)
    rw [← hsame.1, ← htimeout hsame]

/-! ### Single use -/

/-- Any calls. -/
abbrev Calls (lib : Library) (ttl capacity : ℕ) (ok : PendingCall lib → Prop) :=
  Runs (fun entries call => some (PendingCall.after lib ttl capacity entries call)) fun _ => ok

theorem Holds.runs {calls : List (PendingCall lib)} (h : Holds id pending entries)
    (hruns : Calls lib ttl capacity (·.spares lib id) entries calls entries') :
    Holds id pending entries' :=
  hruns.inv (fun _ _ _ hP hspares hstep => Option.some.inj hstep ▸ hP.call hspares) h

/-- **An approval is used once.** One that was issued is redeemed only before it expires and with a
signature of what was issued; and once someone tried to redeem it, with or without success, nobody
can. -/
theorem approval_single_use :
    (∀ s at' old issued calls entries,
      (issue lib ttl capacity deviceName s at' old).1 = .ok issued →
      Calls lib ttl capacity (·.spares lib issued.approvalId)
      (issue lib ttl capacity deviceName s at' old).2 calls entries →
      ∀ approvers approval s' now approver, approval.approvalId = issued.approvalId →
        (redeem lib approvers approval s' now entries).1 = .ok approver →
        now < at'.now + ttl ∧
        verify lib approvers approver issued.payload approval.signature = true) ∧
    ∀ approvers approval s now entries calls entries',
    Calls lib ttl capacity (·.spares lib approval.approvalId)
        (redeem lib approvers approval s now entries).2 calls entries' →
      ∀ approvers' approval' s' now', approval'.approvalId = approval.approvalId →
        (redeem lib approvers' approval' s' now' entries').1 = .error .expired := by
  constructor
  · intro s at' old issued calls entries hissue hruns approvers approval s' now approver hid hok
    obtain ⟨huuid, hpayload, hholds⟩ := issue_eq_ok hissue
    rw [huuid] at hruns hid
    obtain ⟨rfl, pending, hmem, hnow, -, hverify⟩ := redeem_eq_ok hok
    obtain rfl := hholds.runs hruns _ hmem hid
    exact ⟨hnow, hpayload ▸ hverify⟩
  · intro approvers approval s now entries calls entries' hruns approvers' approval' s' now' hid
    have hnone : entries'.lookup approval'.approvalId = none := by
      refine List.lookup_eq_none_iff.mpr fun e he => ?_
      by_contra heq
      -- The name was left free, so what is stored under it now would have to be anything.
      have hany (pending : Pending) : e.2 = pending :=
        Holds.runs (fun _ he' hid' => absurd hid' (mem_redeem he').2) hruns e he (by simp_all)
      simpa using congrArg Pending.expiresAt (hany { e.2 with expiresAt := e.2.expiresAt + 1 })
    rw [redeem, hnone]

end

/-- What tells the messages about one command apart. -/
def identifying (p : String × String × ℤ × ℤ) : Bytes :=
  let part (l : Bytes) := uvarint l.length ++ l
  part (utf8 p.1) ++ (part (utf8 p.2.1) ++ (part (utf8 p.2.2.1.repr) ++ part (utf8 p.2.2.2.repr)))

theorem identifying_injective : Function.Injective identifying := by
  have hpart : Delimited {l : Bytes | l.length ∈ Set.univ} fun l => uvarint l.length ++ l :=
    delimited_uvarint.prefixed
  have htext : Delimited Set.univ fun t => uvarint (utf8 t).length ++ utf8 t :=
    hpart.comap utf8_injective.injOn fun _ _ => trivial
  have hnumber : Delimited Set.univ fun n : ℤ => uvarint (utf8 n.repr).length ++ utf8 n.repr :=
    htext.comap intRepr_injective.injOn fun _ _ => trivial
  intro p q h
  exact (htext.prod (htext.prod (hnumber.prod hnumber))).injOn (by simp) (by simp) h

/-- A library that signs anything, and whose hash is the last byte. -/
def lastByte : Library where
  Key := Unit
  sha256 bytes := ⟨bytes.getLastD 0 :: List.replicate 31 0, by simp⟩
  verify _ _ _ := true
  display p := (fromUtf8 p.bytes).getD "\ufffd"
  encode p := identifying (p.approvalId, p.deviceName, p.issueTime, p.expireTime)

/-- Runs `/bin/echo` for a second and some nanoseconds. -/
def echoFor (nanos : ℕ) (systemServices : Bool) : CommandSpec where
  program := .ofString "/bin/echo"
  args := ["a b", ""]
  workingDir := .ofString "/tmp"
  timeout := 1000000000 + nanos
  grants := ⟨false, false, systemServices⟩

/-- Reads the messages about `echoFor 0 false`. -/
noncomputable def readEcho (bytes : Bytes) : Option ApprovalPayload :=
  (Function.partialInv identifying bytes).map fun p =>
    ⟨p.1, p.2.1, "/bin/echo", ["a b", ""], "/tmp", some 1000000000, some ⟨false, false, false⟩,
      p.2.2.1, p.2.2.2⟩

/-- Two commands that differ in what they are granted. -/
theorem signed_runs_echo :
    SignedRuns lastByte readEcho (echoFor 0 false) (echoFor 0 true) ↔
      ((echoFor 0 false).SameToTheMillisecond (echoFor 0 true) →
        (echoFor 0 false).timeout = (echoFor 0 true).timeout) ∧ (echoFor 0 false).Displayable := by
  have hfits : ∀ b, (echoFor 0 b).Fits := fun b => by
    constructor <;> cases b <;> decide +kernel
  refine signed_runs_iff (hfits _) (hfits _) (fun h => absurd h (by decide +kernel)) ?_ ?_
    ⟨(), fun _ => ⟨[], rfl⟩⟩
  · intro ttl deviceName at'
    have hprogram : lastByte.display (echoFor 0 false).program = "/bin/echo" := by decide +kernel
    have hdir : lastByte.display (echoFor 0 false).workingDir = "/tmp" := by decide +kernel
    have hread :
      readEcho (lastByte.encode (payloadFor lastByte ttl deviceName (echoFor 0 false) at')) = _ :=
      congrArg (Option.map _) (Function.partialInv_left identifying_injective _)
    rw [hread, payloadFor, hprogram, hdir]
    rfl
  · intro p t h
    show (fromUtf8 p.bytes).getD _ = t
    rw [h]
    rfl

/-- An approval of `echoFor 0 false` is pending. -/
def onePending : Entries := (issue lastByte 60 8 "mac" (echoFor 0 false) ⟨0, 0, "a"⟩ []).2

/-- The phone redeems it, another approval is issued, and the tablet comes too late. -/
theorem approval_single_use_echo :
    (redeem lastByte [("phone", ())] ⟨"a", "phone", []⟩ (echoFor 0 false) 1 onePending).1 =
      .ok "phone" ∧
      (redeem lastByte [("tablet", ())] ⟨"a", "tablet", []⟩ (echoFor 0 false) 3
        (issue lastByte 60 8 "mac" (echoFor 0 true) ⟨2, 2, "b"⟩
          (redeem lastByte [("phone", ())] ⟨"a", "phone", []⟩
            (echoFor 0 false) 1 onePending).2).2).1 =
        .error .expired := by
  obtain ⟨-, hused⟩ : _ ∧ _ := @approval_single_use lastByte 60 8 "mac"
  have hcalls : Calls lastByte 60 8 (·.spares lastByte "a")
      (redeem lastByte [("phone", ())] ⟨"a", "phone", []⟩ (echoFor 0 false) 1 onePending).2
      [.issue "mac" (echoFor 0 true) ⟨2, 2, "b"⟩] _ :=
        .cons (by simp [PendingCall.spares]) rfl (.nil _)
  exact ⟨by decide +kernel, hused _ ⟨"a", "phone", []⟩ _ _ _ _ _ hcalls _ _ _ _ rfl⟩

/-- An approval for one command is redeemed for another one, which may run for longer. -/
theorem redeemed_for_another :
    echoFor 400000 false ≠ echoFor 900000 false ∧
      (issue lastByte 60 8 "mac" (echoFor 400000 false) ⟨0, 0, "a"⟩ []).1.isOk = true ∧
      (redeem lastByte [("phone", ())] ⟨"a", "phone", []⟩ (echoFor 900000 false) 1
        (issue lastByte 60 8 "mac" (echoFor 400000 false) ⟨0, 0, "a"⟩ []).2).1 = .ok "phone" := by
  decide +kernel

end Jarvis.Device

import Jarvis.Orchestrator.Trace

/-!
# The client keys of devices

`RegisterDevice` reads the user's devices to choose an id, has the client key sealed for that id,
and stores the device with a statement that keeps the id of a device of the same name.
`Device.Usable` says that the key in a row is sealed for that row and belongs to its certificate.
-/

namespace Jarvis.Orchestrator

open Interleave Table

variable {P : Params}

/-- What the Vault gives back for the sealed key of a row. Source: `clients.go` `Client`
(`Sealer.Open`) -/
def Device.openKey (d : Device) : Option String :=
  if d.clientKeySealed.tenantID = d.tenantID ∧ d.clientKeySealed.subject = d.id then
    some d.clientKeySealed.keyPEM
  else none

/-- The certificate a device is reached with, if there is one. Source: `clients.go` `Client`
(`tls.X509KeyPair`) -/
def Device.certificate (P : Params) (d : Device) : Option (String × String) :=
  (d.openKey.filter (P.keyPair d.clientCertPEM)).map fun key => (d.clientCertPEM, key)

/-- The key of a row is sealed for the row and belongs to its certificate. -/
structure Device.Usable (P : Params) (d : Device) : Prop where
  tenant : d.clientKeySealed.tenantID = d.tenantID
  subject : d.clientKeySealed.subject = d.id
  pair : P.keyPair d.clientCertPEM d.clientKeySealed.keyPEM = true

variable {d : Device}

/-- A usable key is one `Client` can open. -/
theorem Device.Usable.certificate (h : d.Usable P) :
    d.certificate P = some (d.clientCertPEM, d.clientKeySealed.keyPEM) := by
  have hopen : d.openKey = some d.clientKeySealed.keyPEM := if_pos ⟨h.tenant, h.subject⟩
  rw [Device.certificate, hopen, Option.filter_some, if_pos h.pair, Option.map_some]

/-- Two devices of one user with one name. -/
def Device.sameName (d x : Device) : Bool :=
  x.tenantID = d.tenantID ∧ x.userID = d.userID ∧ x.name = d.name

/-- A device is stored over no other one than that whose id it has. -/
def registersSafely (c : Cfg) (i : Instr) (o : Oracle) : Bool :=
  match i with
  | .db (.upsertDevice d) =>
    o.fails || c.shared.db.devices.all fun x => !d.sameName x || x.id = d.id
  | _ => true

/-- The condition on runs. -/
def KeepsIDs : Cfg → Lbl → Prop := guarded registersSafely fun _ _ => True

/-- A device that is stored over the one with its id, or as a new one. -/
theorem upsertDevice_usable {db : DB} (hd : d.Usable P)
    (hsame : ∀ x ∈ db.devices, d.sameName x = true → x.id = d.id)
    (h : ∀ x ∈ db.devices, x.Usable P) : ∀ x ∈ (db.upsertDevice d).2.devices, x.Usable P := by
  unfold DB.upsertDevice
  dsimp only
  split
  · refine forall_mem_set h fun x hx hname => ?_
    have htenant : x.tenantID = d.tenantID := (of_decide_eq_true hname).1
    exact ⟨hd.tenant.trans htenant.symm, hd.subject.trans (hsame x hx hname).symm, hd.pair⟩
  · split_ifs
    · exact h
    · intro x hx
      rcases mem_insert.mp hx with hx | rfl
      · exact h x hx
      · exact hd

/-- **Client keys stay usable.** In every run in which a device is stored over no other one than
that whose id was chosen: the key in every row of `devices` is sealed for the tenant and the id of
that row and belongs to its certificate, and `Client` gets both. -/
theorem device_keys_usable {c : Cfg} (h : Reaches P KeepsIDs c) (hd : d ∈ c.shared.db.devices) :
    d.Usable P ∧ d.certificate P = some (d.clientCertPEM, d.clientKeySealed.keyPEM) := by
  have hall : ∀ x ∈ c.shared.db.devices, x.Usable P := by
    refine Reach.inv (P := fun s _ => ∀ x ∈ s.db.devices, x.Usable P) h
      (fun x hx => nomatch hx) ?_ ?_
    · intro c tid o th i k r s hr hrows hok hf
      have hdoes := Reaches.does hr hf
      have hexec := guarded.exec hok hf
      rcases answer_db_eq hf.answer with hsame | ⟨q, locked, rfl, hdb⟩
      · rwa [hsame]
      by_cases hw : Tab.devices ∈ q.writes
      · cases q with
        | upsertDevice d =>
          obtain ⟨htenant, hsubject, hpair⟩ := hdoes.upsertDevice_inv
          cases ho : o.fails with
          | true =>
            rw [answer_fails hf.answer ho]
            exact hrows
          | false =>
            rw [hdb]
            refine upsertDevice_usable ⟨htenant, hsubject, hpair⟩ (fun x hx hname => ?_) hrows
            simp only [registersSafely, ho, Bool.false_or, List.all_eq_true] at hexec
            simpa [hname] using hexec x hx
        | deleteDevice tenant user id =>
          rw [hdb]
          exact fun x hx => hrows x (mem_delete.mp hx).1
        | _ => simp [Query.writes] at hw
      · have hsame : c.shared.db.Same (q.exec locked c.shared.now c.shared.db).2 .devices :=
          Query.exec_same _ hw
        rw [hdb, hsame]
        exact hrows
    · intro c v s _ hrows _ hv
      rw [World.step_db hv]
      exact hrows
  exact ⟨hall d hd, (hall d hd).certificate⟩

/-- Registrations of one name, which get these ids and end in this order. -/
def registrations (name : String) (ids : List UUID) : List Lbl :=
  [.boot] ++ ids.map (fun _ => .request 0
    (.registerDevice 1 "ann" name "" "" ⟨"", "pem", "pem"⟩)) ++
  ids.zipIdx.flatMap (fun x => [.exec (3 + x.2) (.uuid x.1)] ++ commits (3 + x.2) 1 ++
    [.exec (3 + x.2) (.outcome (.ok ()))]) ++
  ids.zipIdx.flatMap fun x => commits (3 + x.2) 1

/-- The key of the one registered device opens. -/
theorem device_keys_usable_registered : ∃ c d, Reaches sample KeepsIDs c ∧ d ∈ c.shared.db.devices ∧
    d.certificate sample = some ("pem", "pem") := by
  have hrun : ((machine sample).run (checked registersSafely) start (registrations "mac" [7])).any
      (fun c => c.shared.db.devices.any fun d =>
        d.clientCertPEM = "pem" ∧ d.clientKeySealed.keyPEM = "pem") = true := by
    decide +kernel
  obtain ⟨c, hc, hany⟩ := reaches_of_run hrun
  obtain ⟨d, hd, hpem⟩ := List.any_eq_true.mp hany
  obtain ⟨hcert, hkey⟩ := of_decide_eq_true hpem
  have hopen := (device_keys_usable hc hd).2
  rw [hcert, hkey] at hopen
  exact ⟨c, d, hc, hd, hopen⟩

/-- **A key that nobody can open**: two registrations of one new name read the devices before either
stores its own; the second one's key, sealed for its own id, is stored in the first one's row. -/
theorem device_key_unusable : ∃ c d, Reachable sample c ∧ d ∈ c.shared.db.devices ∧
    d.clientKeySealed.subject ≠ d.id ∧ d.certificate sample = none := by
  have hrun : ((machine sample).run anything start (registrations "mac" [7, 8])).any
      (fun c => c.shared.db.devices.any fun d =>
        d.clientKeySealed.subject ≠ d.id ∧ d.certificate sample = none) = true := by
    decide +kernel
  obtain ⟨c, hc, hany⟩ := reachable_of_run hrun
  obtain ⟨d, hd, hbad⟩ := List.any_eq_true.mp hany
  exact ⟨c, d, hc, hd, of_decide_eq_true hbad⟩

end Jarvis.Orchestrator

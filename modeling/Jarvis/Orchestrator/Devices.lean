import Jarvis.Fallible
import Jarvis.Orchestrator.DeviceKeys
import Jarvis.Steps

/-!
# Connections to devices

An instance keeps one connection for each device (`clients.go` `Devices`). `Client` is called with a
row that was loaded earlier: it looks for the connection, builds one outside the lock if there is
none, and stores it unless another call was faster. `RegisterDevice` and `RemoveDevice` change the
row and then `Forget` the connection of their own instance.

The statements that change rows are numbered in the order in which they take effect; a row, and a
connection that is built from it, belongs to the statement that wrote it.
-/

namespace Jarvis.Orchestrator.Devices

open Steps Table

/-- A connection, with what it is made of. -/
structure Conn where
  address : String
  serverName : String
  caPEM : String
  clientCertPEM : String
  keyPEM : String
  /-- The number of the statement that wrote the row. -/
  wrote : ℕ
  deriving DecidableEq, Repr

/-- Where a call of `Client` is. -/
inductive Calling where
  /-- The caller has loaded the row. -/
  | loaded
  | started
  /-- There was no connection. -/
  | missed
  | built (conn : Conn)
  | returned (conn : Conn)
  | failed (error : String)
  deriving DecidableEq, Repr

/-- A call of `Client`. -/
structure ClientCall where
  inst : ℕ
  row : Device
  /-- The number of the statement that wrote the row. -/
  wrote : ℕ
  /-- The replacements that had returned when the call started. -/
  since : List ℕ := []
  status : Calling := .loaded
  deriving DecidableEq, Repr

/-- Where a `RegisterDevice` or `RemoveDevice` is. -/
inductive Replacing where
  /-- The row is changed. -/
  | stored
  /-- `Forget` has dropped the connection, and is about to close it. -/
  | forgotten
  /-- `Forget` has returned. -/
  | returned
  deriving DecidableEq, Repr

/-- A `RegisterDevice` or a `RemoveDevice`. -/
structure Replacement where
  inst : ℕ
  id : UUID
  /-- The number of its statement; 0 if it changed nothing. -/
  wrote : ℕ
  status : Replacing := .stored
  deriving DecidableEq, Repr

/-- A connection in the map of an instance. -/
structure Cached where
  inst : ℕ
  id : UUID
  conn : Conn
  deriving DecidableEq, Repr

/-- The table of devices, the maps of all instances, and the calls. -/
structure State where
  db : DB := {}
  /-- The rows as the statements have left them, the last one first; `none` for a row that was
  deleted. -/
  writes : List (UUID × Option Device) := []
  conns : List Cached := []
  calls : List ClientCall := []
  replacements : List Replacement := []

/-- What the libraries say. -/
structure Wire where
  /-- `DeviceGuard.CheckAddress` -/
  checkAddress : String → Except String Unit
  /-- Whether `AppendCertsFromPEM` finds a certificate. -/
  hasCertificate : String → Bool
  /-- The error of `tls.X509KeyPair` -/
  pairError : String → String → String

/-- The number of the last statement that changed the row. -/
def lastWrite (id : UUID) : List (UUID × Option Device) → ℕ
  | [] => 0
  | w :: ws => if w.1 = id then ws.length else lastWrite id ws

/-- The connection of a device in the map of an instance. -/
def State.conn (s : State) (inst : ℕ) (id : UUID) : Option Conn :=
  (s.conns.find? fun x => x.inst = inst ∧ x.id = id).map Cached.conn

/-- Source: `clients.go` `Client` (from the check of the address to `grpc.NewClient`). `answered`
and `refusal`: whether the Vault opened the key, and its error; `dialled`: the error of
`NewClient`. -/
def connect (P : Params) (W : Wire) (d : Device) (wrote : ℕ) (answered : Bool) (refusal : String)
    (dialled : Except String Unit) : Except String Conn := do
  W.checkAddress d.address
  let keyPEM ← okOr s!"open device key: {refusal}" (if answered then d.openKey else none)
  ensure (P.keyPair d.clientCertPEM keyPEM = true)
    ("device client certificate: " ++ W.pairError d.clientCertPEM keyPEM)
  ensure (W.hasCertificate d.caPEM = true) "device CA contains no certificate"
  dialled
  pure ⟨d.address, d.serverName, d.caPEM, d.clientCertPEM, keyPEM, wrote⟩

/-- What can happen. -/
inductive Label where
  /-- A row is loaded, for a later call of `Client`. -/
  | load (inst : ℕ) (id : UUID)
  | start (k : ℕ)
  /-- The first critical section of `Client`. -/
  | lookup (k : ℕ)
  | build (k : ℕ) (answered : Bool) (refusal : String) (dialled : Except String Unit)
  /-- The second critical section of `Client`. -/
  | insert (k : ℕ)
  /-- The statement of `RegisterDevice` -/
  | upsert (inst : ℕ) (d : Device)
  /-- The statement of `RemoveDevice` -/
  | delete (inst : ℕ) (tenant : UUID) (user : String) (id : UUID)
  /-- The critical section of `Forget` -/
  | forget (j : ℕ)
  | finish (j : ℕ)
  /-- `Close`: the instance stops. -/
  | close (inst : ℕ)

/-- A call goes on. -/
def State.goOn (s : State) (k : ℕ) (call : ClientCall) : State :=
  { s with calls := s.calls.set k call }

/-- The replacements whose `Forget` has returned. -/
def returned (replacements : List Replacement) : List ℕ :=
  (List.range replacements.length).filter fun j => (replacements[j]?).any fun u =>
    u.status = .returned

/-- Source: `clients.go` `Client` (the second critical section) -/
def State.insert (s : State) (k : ℕ) (call : ClientCall) (conn : Conn) : State :=
  match s.conn call.inst call.row.id with
  | some existing => s.goOn k { call with status := .returned existing }
  | none =>
    { s with conns := ⟨call.inst, call.row.id, conn⟩ :: s.conns }.goOn k
      { call with status := .returned conn }

/-- Source: `server.go` `RegisterDevice` (`UpsertDevice`). A statement that fails ends the call. -/
def State.upsert (s : State) (inst : ℕ) (d : Device) : State :=
  match s.db.upsertDevice d with
  | (.error _, _) => s
  | (.ok row, db) =>
    { s with
      db := db
      writes := (row.id, some row) :: s.writes
      replacements := s.replacements ++ [⟨inst, row.id, s.writes.length, .stored⟩] }

/-- Source: `server.go` `RemoveDevice` (`DeleteDevice`). The connection is forgotten also if there
was no such device. -/
def State.delete (s : State) (inst : ℕ) (tenant : UUID) (user : String) (id : UUID) : State :=
  if s.db.devices.any fun d => d.id = id ∧ d.tenantID = tenant ∧ d.userID = user then
    { s with
      db := (s.db.deleteDevice tenant user id).2
      writes := (id, none) :: s.writes
      replacements := s.replacements ++ [⟨inst, id, s.writes.length, .stored⟩] }
  else { s with replacements := s.replacements ++ [⟨inst, id, 0, .stored⟩] }

/-- Source: `clients.go` `Forget` -/
def State.forget (s : State) (j : ℕ) (u : Replacement) : State :=
  { s with
    conns := s.conns.filter fun x => ¬(x.inst = u.inst ∧ x.id = u.id)
    replacements := s.replacements.set j { u with status := .forgotten } }

/-- One step. -/
def State.step (P : Params) (W : Wire) (s : State) : Label → Option State
  | .load inst id =>
    (s.db.deviceByID id).map fun d =>
      { s with calls := s.calls ++ [{ inst := inst, row := d, wrote := lastWrite id s.writes }] }
  | .start k =>
    (s.calls[k]?).bind fun call =>
      match call.status with
      | .loaded =>
        some (s.goOn k { call with status := .started, since := returned s.replacements })
      | _ => none
  | .lookup k =>
    (s.calls[k]?).bind fun call =>
      match call.status, s.conn call.inst call.row.id with
      | .started, some conn => some (s.goOn k { call with status := .returned conn })
      | .started, none => some (s.goOn k { call with status := .missed })
      | _, _ => none
  | .build k answered refusal dialled =>
    (s.calls[k]?).bind fun call =>
      match call.status, connect P W call.row call.wrote answered refusal dialled with
      | .missed, .ok conn => some (s.goOn k { call with status := .built conn })
      | .missed, .error error => some (s.goOn k { call with status := .failed error })
      | _, _ => none
  | .insert k =>
    (s.calls[k]?).bind fun call =>
      match call.status with
      | .built conn => some (s.insert k call conn)
      | _ => none
  | .upsert inst d => some (s.upsert inst d)
  | .delete inst tenant user id => some (s.delete inst tenant user id)
  | .forget j =>
    (s.replacements[j]?).bind fun u =>
      match u.status with
      | .stored => some (s.forget j u)
      | _ => none
  | .finish j =>
    (s.replacements[j]?).bind fun u =>
      match u.status with
      | .forgotten =>
        some { s with replacements := s.replacements.set j { u with status := .returned } }
      | _ => none
  | .close inst => some { s with conns := s.conns.filter fun x => x.inst ≠ inst }

variable {P : Params} {W : Wire} {s s' : State} {writes : List (UUID × Option Device)}

/-! ### Rows and the statements that wrote them -/

/-- The row is as this statement has left it. -/
def Written (writes : List (UUID × Option Device)) (n : ℕ) (d : Device) : Prop :=
  writes.reverse[n]? = some (d.id, some d)

variable {d : Device} {id tenant : UUID} {db : DB} {user : String} {call : ClientCall}
  {inst k j : ℕ} {u : Replacement}

theorem Written.later {later : List (UUID × Option Device)} (h : Written writes n d) :
    Written (later ++ writes) n d := by
  unfold Written
  rw [List.reverse_append, List.getElem?_append_left (List.getElem?_eq_some_iff.mp h).1]
  exact h

theorem lastWrite_of_find (h : writes.find? (fun w => w.1 = id) = some w) :
    writes.reverse[lastWrite id writes]? = some w := by
  induction writes with
  | nil => cases h
  | cons w' writes ih =>
    rw [lastWrite, List.reverse_cons]
    split_ifs with hid
    · rw [List.find?_cons_of_pos (by simpa using hid)] at h
      rw [List.getElem?_append_right (by simp)]
      simpa using h
    · rw [List.find?_cons_of_neg (by simpa using hid)] at h
      rw [List.getElem?_append_left (List.getElem?_eq_some_iff.mp (ih h)).1]
      exact ih h

/-- The table holds what the statements have written. -/
structure Stored (db : DB) (writes : List (UUID × Option Device)) : Prop where
  ids : Keyed Device.id db.devices
  names : Keyed (fun d : Device => (d.tenantID, d.userID, d.name)) db.devices
  rows : ∀ d ∈ db.devices, writes.find? (fun w => w.1 = d.id) = some (d.id, some d)

/-- What is loaded was written by the last statement that changed the row. -/
theorem Stored.loaded (h : Stored db writes) (hd : db.deviceByID id = some d) :
    d.id = id ∧ Written writes (lastWrite id writes) d := by
  have hid : d.id = id := row_key hd
  subst hid
  exact ⟨rfl, lastWrite_of_find (h.rows d (row_mem hd))⟩

theorem Stored.upsert (h : Stored db writes) {row : Device}
    (hd : db.upsertDevice d = (.ok row, db')) : Stored db' ((row.id, some row) :: writes) := by
  unfold DB.upsertDevice at hd
  dsimp only at hd
  split at hd
  · rename_i x hx
    cases hd
    have hxmem := List.mem_of_find?_eq_some hx
    have hxname : x.tenantID = d.tenantID ∧ x.userID = d.userID ∧ x.name = d.name := by
      simpa using List.find?_some hx
    refine ⟨h.ids.set fun _ => rfl, h.names.set fun _ => rfl, fun y hy => ?_⟩
    obtain ⟨y₀, hy₀, rfl⟩ := mem_set.mp hy
    split_ifs with hname
    · -- The row of that name is the one that was found.
      have hyname := of_decide_eq_true hname
      have heq : y₀ = x := h.names.eq hy₀ hxmem
        (by rw [hyname.1, hyname.2.1, hyname.2.2, hxname.1, hxname.2.1, hxname.2.2])
      subst heq
      exact List.find?_cons_of_pos (by simp)
    · rw [List.find?_cons_of_neg]
      · exact h.rows y₀ hy₀
      · intro hid
        rw [h.ids.eq hy₀ hxmem (of_decide_eq_true hid).symm] at hname
        exact hname (decide_eq_true hxname)
  · rename_i hnone
    split_ifs at hd with hbad
    · cases hd
    cases hd
    simp only [Bool.or_eq_true, not_or, Bool.not_eq_true, Option.isSome_eq_false_iff,
      Option.isNone_iff_eq_none] at hbad
    refine ⟨h.ids.insert hbad.1.1, h.names.insert ?_, fun y hy => ?_⟩
    · refine row_eq_none.mpr fun y hy heq => ?_
      have hne := List.find?_eq_none.mp hnone y hy
      simp only [Prod.mk.injEq] at heq
      exact hne (decide_eq_true heq)
    · rcases mem_insert.mp hy with hy | rfl
      · rw [List.find?_cons_of_neg]
        · exact h.rows y hy
        · intro hid
          exact row_eq_none.mp hbad.1.1 y hy (of_decide_eq_true hid).symm
      · exact List.find?_cons_of_pos (by simp)

theorem Stored.delete (h : Stored db writes)
    (hany : (db.devices.any fun d => d.id = id ∧ d.tenantID = tenant ∧ d.userID = user) = true) :
    Stored (db.deleteDevice tenant user id).2 ((id, none) :: writes) := by
  obtain ⟨x, hx, hxp⟩ := List.any_eq_true.mp hany
  refine ⟨h.ids.delete, h.names.delete, fun y hy => ?_⟩
  obtain ⟨hy, hkept⟩ := mem_delete.mp hy
  rw [List.find?_cons_of_neg]
  · exact h.rows y hy
  · intro hid
    have heq : y = x :=
      h.ids.eq hy hx ((of_decide_eq_true hid).symm.trans (of_decide_eq_true hxp).1.symm)
    rw [heq, hxp] at hkept
    cases hkept

/-! ### What connections are made of -/

/-- The connection is made of the row. -/
structure Conn.MadeOf (conn : Conn) (d : Device) : Prop where
  address : conn.address = d.address
  serverName : conn.serverName = d.serverName
  caPEM : conn.caPEM = d.caPEM
  clientCertPEM : conn.clientCertPEM = d.clientCertPEM
  key : d.openKey = some conn.keyPEM

theorem connect_ok (h : connect P W d wrote answered refusal dialled = .ok conn) :
    conn.MadeOf d ∧ conn.wrote = wrote := by
  unfold connect at h
  simp only [bind_eq_ok, okOr_eq_ok] at h
  obtain ⟨-, -, keyPEM, hkey, -, -, -, -, -, -, h⟩ := h
  cases h
  split_ifs at hkey
  exact ⟨⟨rfl, rfl, rfl, rfl, hkey⟩, rfl⟩

/-- The connection is made of a row of the device, as the statement it names has left it. -/
def Conn.Of (writes : List (UUID × Option Device)) (id : UUID) (conn : Conn) : Prop :=
  ∃ d, Written writes conn.wrote d ∧ d.id = id ∧ conn.MadeOf d

/-! ### The condition -/

/-- What a step has to wait for: a connection is stored only while no replacement of its row is
forgotten, and a replacement is forgotten only when no other instance has a connection of the old
row. -/
def inTime (s : State) : Label → Bool
  | .insert k =>
    (s.calls[k]?).all fun call => (s.conn call.inst call.row.id).isSome ||
      s.replacements.all fun u => u.id ≠ call.row.id || u.status = .stored || u.wrote ≤ call.wrote
  | .forget j =>
    (s.replacements[j]?).all fun u => s.conns.all fun x =>
      x.id ≠ u.id || x.inst = u.inst || u.wrote ≤ x.conn.wrote
  | _ => true

/-! ### What every step keeps -/

/-- What holds of a call. -/
structure ClientCall.Kept (s : State) (call : ClientCall) : Prop where
  written : Written s.writes call.wrote call.row
  since : ∀ j ∈ call.since, ∃ u, s.replacements[j]? = some u ∧ u.status = .returned
  built : ∀ conn, call.status = .built conn → conn.MadeOf call.row ∧ conn.wrote = call.wrote
  served : ∀ conn, call.status = .returned conn → conn.Of s.writes call.row.id ∧
    ∀ j ∈ call.since, ∀ u, s.replacements[j]? = some u → u.id = call.row.id → u.wrote ≤ call.wrote →
      u.wrote ≤ conn.wrote

/-- What holds of the whole. -/
structure State.Kept (s : State) : Prop where
  stored : Stored s.db s.writes
  calls : ∀ call ∈ s.calls, call.Kept s
  cached : ∀ x ∈ s.conns, x.conn.Of s.writes x.id
  fresh : ∀ x ∈ s.conns, ∀ u ∈ s.replacements, u.id = x.id → u.status ≠ .stored →
    u.wrote ≤ x.conn.wrote

/-- What the state has of the past only grows. -/
structure Grows (s s' : State) : Prop where
  writes : ∃ later, s'.writes = later ++ s.writes
  replacements : ∀ (j : ℕ) (u : Replacement), s.replacements[j]? = some u → ∃ u' : Replacement,
    s'.replacements[j]? = some u' ∧ u'.id = u.id ∧ u'.wrote = u.wrote ∧
      (u.status = .returned → u'.status = .returned)

theorem Grows.of_eq (hwrites : s'.writes = s.writes)
    (hreplacements : s'.replacements = s.replacements) : Grows s s' :=
  ⟨⟨[], hwrites⟩, fun _ u hu => ⟨u, hreplacements ▸ hu, rfl, rfl, id⟩⟩

theorem Conn.Of.grows {conn : Conn} (h : conn.Of s.writes id) (hg : Grows s s') :
    conn.Of s'.writes id := by
  obtain ⟨d, hwritten, hid, hmade⟩ := h
  obtain ⟨later, hlater⟩ := hg.writes
  rw [hlater]
  exact ⟨d, hwritten.later, hid, hmade⟩

theorem ClientCall.Kept.grows (h : call.Kept s) (hg : Grows s s') : call.Kept s' where
  written := by
    obtain ⟨later, hlater⟩ := hg.writes
    rw [hlater]
    exact h.written.later
  since j hj := by
    obtain ⟨u, hu, hstatus⟩ := h.since j hj
    obtain ⟨u', hu', -, -, hkeeps⟩ := hg.replacements j u hu
    exact ⟨u', hu', hkeeps hstatus⟩
  built := h.built
  served conn hconn := by
    obtain ⟨hof, hall⟩ := h.served conn hconn
    refine ⟨hof.grows hg, fun j hj u' hu' hid hnew => ?_⟩
    -- The replacement was there when the call started.
    obtain ⟨u, hu, -⟩ := h.since j hj
    obtain ⟨u'', hu'', hid', hwrote, -⟩ := hg.replacements j u hu
    cases hu'.symm.trans hu''
    rw [hwrote] at hnew ⊢
    exact hall j hj u hu (hid'.symm.trans hid) hnew

/-- The connection in the map is one of the device, and not older than what is forgotten. -/
theorem State.Kept.conn (h : s.Kept) {conn : Conn} (hconn : s.conn inst id = some conn) :
    conn.Of s.writes id ∧ ∀ u ∈ s.replacements, u.id = id → u.status ≠ .stored →
    u.wrote ≤ conn.wrote := by
  obtain ⟨x, hx, rfl⟩ := Option.map_eq_some_iff.mp hconn
  have hmem := List.mem_of_find?_eq_some hx
  have hkey : x.inst = inst ∧ x.id = id := by simpa using List.find?_some hx
  rw [← hkey.2]
  exact ⟨h.cached x hmem, h.fresh x hmem⟩

/-- A call goes on, and nothing else changes. -/
theorem State.Kept.goOn (h : s.Kept) (hcall : call.Kept s) : (s.goOn k call).Kept where
  stored := h.stored
  calls call' hmem := by
    rcases List.mem_or_eq_of_mem_set hmem with hmem | rfl
    · exact (h.calls call' hmem).grows (.of_eq rfl rfl)
    · exact hcall.grows (.of_eq rfl rfl)
  cached := h.cached
  fresh := h.fresh

/-- A call gets the connection in the map. -/
theorem State.Kept.found (h : s.Kept) {conn : Conn} (hcall : call.Kept s)
    (hconn : s.conn call.inst call.row.id = some conn) :
    (s.goOn k { call with status := .returned conn }).Kept := by
  obtain ⟨hof, hfresh⟩ := h.conn hconn
  refine h.goOn ⟨hcall.written, hcall.since, nofun, fun conn' heq => ?_⟩
  cases heq
  refine ⟨hof, fun j hj u hu hid _ => ?_⟩
  obtain ⟨u', hu', hstatus⟩ := hcall.since j hj
  cases hu.symm.trans hu'
  exact hfresh u (List.mem_of_getElem? hu) hid (by rw [hstatus]; nofun)

theorem State.Kept.insert (h : s.Kept) {conn : Conn} (hk : s.calls[k]? = some call)
    (hbuilt : call.status = .built conn) (hok : inTime s (.insert k) = true) :
    (s.insert k call conn).Kept := by
  have hcall := h.calls call (List.mem_of_getElem? hk)
  obtain ⟨hmade, hwrote⟩ := hcall.built conn hbuilt
  unfold State.insert
  split
  next existing hexisting => exact h.found hcall hexisting
  next hnone =>
    have hof : conn.Of s.writes call.row.id := ⟨call.row, hwrote ▸ hcall.written, rfl, hmade⟩
    have hstored : State.Kept { s with conns := ⟨call.inst, call.row.id, conn⟩ :: s.conns } := by
      refine ⟨h.stored, fun call' hmem => (h.calls call' hmem).grows (.of_eq rfl rfl), fun x hx =>
        ?_, fun x hx u hu hid hstatus => ?_⟩
      · rcases List.mem_cons.mp hx with rfl | hx
        · exact hof
        · exact h.cached x hx
      · rcases List.mem_cons.mp hx with rfl | hx
        · -- Nothing newer is forgotten.
          simp only [inTime, hk, hnone, Option.all_some, Option.isSome_none, Bool.false_or,
            List.all_eq_true, Bool.or_eq_true, decide_eq_true_eq] at hok
          rw [hwrote]
          rcases hok u hu with (hne | hst) | hle
          · exact absurd hid hne
          · exact absurd hst hstatus
          · exact hle
        · exact h.fresh x hx u hu hid hstatus
    refine hstored.goOn ⟨hcall.written, hcall.since, nofun, fun conn' heq => ?_⟩
    cases heq
    exact ⟨hof, fun j _ u _ _ hnew => hwrote ▸ hnew⟩

/-- A statement of a registration or a removal has taken effect. -/
theorem State.Kept.wrote (h : s.Kept) (later : List (UUID × Option Device))
    (hstored : Stored db (later ++ s.writes)) (hu : u.status = .stored) :
    State.Kept { s with
      db := db
      writes := later ++ s.writes
      replacements := s.replacements ++ [u] } := by
  have hg : Grows s { s with
      db := db
      writes := later ++ s.writes
      replacements := s.replacements ++ [u] } := by
    refine ⟨⟨later, rfl⟩, fun j u' hu' => ⟨u', ?_, rfl, rfl, id⟩⟩
    rw [List.getElem?_append_left (List.getElem?_eq_some_iff.mp hu').1]
    exact hu'
  refine ⟨hstored, fun call hmem => (h.calls call hmem).grows hg, fun x hx =>
    (h.cached x hx).grows hg, fun x hx u' hu' hid hstatus => ?_⟩
  rcases List.mem_append.mp hu' with hu' | hu'
  · exact h.fresh x hx u' hu' hid hstatus
  · cases List.mem_singleton.mp hu'
    exact absurd hu hstatus

theorem State.Kept.upsert (h : s.Kept) : (s.upsert inst d).Kept := by
  unfold State.upsert
  split
  next => exact h
  next row db hd => exact h.wrote [(row.id, some row)] (h.stored.upsert hd) rfl

theorem State.Kept.delete (h : s.Kept) :
    (s.delete inst tenant user id).Kept := by
  unfold State.delete
  split_ifs with hany
  · exact h.wrote [(id, none)] (h.stored.delete hany) rfl
  · exact h.wrote [] h.stored rfl

/-- A replacement goes on. -/
theorem grows_set (hj : s.replacements[j]? = some u) (hid : u'.id = u.id)
    (hwrote : u'.wrote = u.wrote) (hstatus : u.status ≠ .returned) :
    Grows s { s with conns := conns, replacements := s.replacements.set j u' } := by
  refine ⟨⟨[], rfl⟩, fun i v hv => ?_⟩
  by_cases hij : i = j
  · subst hij
    cases hj.symm.trans hv
    refine ⟨u', ?_, hid, hwrote, fun h => absurd h hstatus⟩
    exact List.getElem?_set_self (List.getElem?_eq_some_iff.mp hj).1
  · exact ⟨v, by rw [List.getElem?_set_ne (Ne.symm hij)]; exact hv, rfl, rfl, id⟩

theorem State.Kept.forget (h : s.Kept) (hj : s.replacements[j]? = some u)
    (hstatus : u.status = .stored) (hok : inTime s (.forget j) = true) : (s.forget j u).Kept := by
  have hg : Grows s (s.forget j u) := grows_set hj rfl rfl (by rw [hstatus]; nofun)
  refine ⟨h.stored, fun call hmem => (h.calls call hmem).grows hg,
    fun x hx => (h.cached x (List.mem_filter.mp hx).1).grows hg, fun x hx u' hu' hid hst => ?_⟩
  obtain ⟨hx, hother⟩ := List.mem_filter.mp hx
  rcases List.mem_or_eq_of_mem_set hu' with hu' | rfl
  · exact h.fresh x hx u' hu' hid hst
  · -- What is left of the device is in another instance.
    simp only [inTime, hj, Option.all_some, List.all_eq_true, Bool.or_eq_true,
      decide_eq_true_eq] at hok
    rcases hok x hx with (hne | hinst) | hle
    · exact absurd hid.symm hne
    · exact absurd ⟨hinst, hid.symm⟩ (of_decide_eq_true hother)
    · exact hle

theorem State.Kept.finish (h : s.Kept) (hj : s.replacements[j]? = some u)
    (hstatus : u.status = .forgotten) :
    State.Kept { s with replacements := s.replacements.set j { u with status := .returned } } := by
  have hg : Grows s
      { s with replacements := s.replacements.set j { u with status := .returned } } :=
    grows_set hj rfl rfl (by rw [hstatus]; nofun)
  refine ⟨h.stored, fun call hmem => (h.calls call hmem).grows hg, fun x hx =>
    (h.cached x hx).grows hg, fun x hx u' hu' hid hst => ?_⟩
  rcases List.mem_or_eq_of_mem_set hu' with hu' | rfl
  · exact h.fresh x hx u' hu' hid hst
  · exact h.fresh x hx u (List.mem_of_getElem? hj) hid (by rw [hstatus]; nofun)

theorem mem_returned (h : j ∈ returned replacements) :
    ∃ u, replacements[j]? = some u ∧ u.status = .returned := by
  obtain ⟨u, hu, hstatus⟩ := (Option.any_eq_true ..).mp (List.mem_filter.mp h).2
  exact ⟨u, hu, of_decide_eq_true hstatus⟩

/-- Every step keeps it. -/
theorem State.Kept.step (h : s.Kept) {l : Label} (hok : inTime s l = true)
    (hstep : s.step P W l = some s') : s'.Kept := by
  cases l with
  | load inst id =>
    obtain ⟨d, hd, rfl⟩ := Option.map_eq_some_iff.mp hstep
    obtain ⟨-, hwritten⟩ := h.stored.loaded hd
    refine ⟨h.stored, fun call hmem => ?_, h.cached, h.fresh⟩
    rcases List.mem_append.mp hmem with hmem | hmem
    · exact (h.calls call hmem).grows (.of_eq rfl rfl)
    · cases List.mem_singleton.mp hmem
      exact ⟨hwritten, nofun, nofun, nofun⟩
  | start k =>
    obtain ⟨call, hk, hstep⟩ := Option.bind_eq_some_iff.mp hstep
    have hcall := h.calls call (List.mem_of_getElem? hk)
    split at hstep <;> cases hstep
    exact h.goOn ⟨hcall.written, fun j hj => mem_returned hj, nofun, nofun⟩
  | lookup k =>
    obtain ⟨call, hk, hstep⟩ := Option.bind_eq_some_iff.mp hstep
    have hcall := h.calls call (List.mem_of_getElem? hk)
    split at hstep <;> cases hstep
    next conn hstatus hconn => exact h.found hcall hconn
    next => exact h.goOn ⟨hcall.written, hcall.since, nofun, nofun⟩
  | build k answered refusal dialled =>
    obtain ⟨call, hk, hstep⟩ := Option.bind_eq_some_iff.mp hstep
    have hcall := h.calls call (List.mem_of_getElem? hk)
    split at hstep <;> cases hstep
    next conn hstatus hconn =>
      refine h.goOn ⟨hcall.written, hcall.since, fun conn' heq => ?_, nofun⟩
      cases heq
      exact connect_ok hconn
    next => exact h.goOn ⟨hcall.written, hcall.since, nofun, nofun⟩
  | insert k =>
    obtain ⟨call, hk, hstep⟩ := Option.bind_eq_some_iff.mp hstep
    split at hstep <;> cases hstep
    next conn hstatus => exact h.insert hk hstatus hok
  | upsert inst d =>
    cases hstep
    exact h.upsert
  | delete inst tenant user id =>
    cases hstep
    exact h.delete
  | forget j =>
    obtain ⟨u, hj, hstep⟩ := Option.bind_eq_some_iff.mp hstep
    split at hstep <;> cases hstep
    next hstatus => exact h.forget hj hstatus hok
  | finish j =>
    obtain ⟨u, hj, hstep⟩ := Option.bind_eq_some_iff.mp hstep
    split at hstep <;> cases hstep
    next hstatus => exact h.finish hj hstatus
  | close inst =>
    cases hstep
    exact ⟨h.stored, fun call hmem => (h.calls call hmem).grows (.of_eq rfl rfl),
      fun x hx => h.cached x (List.mem_filter.mp hx).1, fun x hx =>
        h.fresh x (List.mem_filter.mp hx).1⟩

theorem State.Kept.init : State.Kept {} where
  stored := ⟨List.nodup_nil, List.nodup_nil, nofun⟩
  calls := nofun
  cached := nofun
  fresh := nofun

/-- **A replaced device is not used again.** In every run in which connections are stored, and
replacements forgotten, in time: if the `Forget` of a registration or removal had returned when a
call of `Client` for the device started, and the call has the row as that statement or a later one
has left it, then the connection it returns is made of a row of the device as that statement or a
later one has left it. -/
theorem device_not_reused {ls : List Label}
    (h : Steps.Runs (State.step P W) (fun s l => inTime s l = true) {} ls s) {conn : Conn}
    (hcall : s.calls[k]? = some call) (hconn : call.status = .returned conn)
    (hu : s.replacements[j]? = some u) (hsince : j ∈ call.since) (hid : u.id = call.row.id)
    (hnew : u.wrote ≤ call.wrote) :
    u.wrote ≤ conn.wrote ∧ ∃ d, Written s.writes conn.wrote d ∧ d.id = u.id ∧ conn.MadeOf d := by
  have hkept : s.Kept := Steps.Runs.inv (fun _ _ _ hs hok hstep => hs.step hok hstep) h .init
  obtain ⟨hof, hall⟩ := (hkept.calls call (List.mem_of_getElem? hcall)).served conn hconn
  rw [hid]
  exact ⟨hall j hsince u hu hid hnew, hof⟩

/-- Libraries that have nothing against anything. -/
def content : Wire := ⟨fun _ => .ok (), fun _ => true, fun _ _ => ""⟩

/-- A computer at an address. -/
def mac (address : String) : Device :=
  ⟨7, 1, "ann", "mac", address, "mac", "ca", "pem", ⟨1, 7, "pem"⟩⟩

/-- A registration in instance 0, from its statement on. -/
def registration (j : ℕ) (d : Device) : List Label := [.upsert 0 d, .forget j, .finish j]

/-- A call of `Client`, up to where its connection is built. -/
def building (k : ℕ) : List Label := [.load 0 7, .start k, .lookup k, .build k true "" (.ok ())]

/-- A computer is used, registered anew and used again. -/
def registeredTwice : List Label :=
  registration 0 (mac "old") ++ building 0 ++ [.insert 0] ++
    registration 1 (mac "new") ++ building 1 ++
    [.insert 1]

/-- In that run the second call returns a connection to the new address. -/
theorem device_not_reused_registeredTwice : ∃ s call u conn d,
    Steps.Runs (State.step sample content) (fun s l => inTime s l = true) {} registeredTwice s ∧
      s.calls[1]? = some call ∧ call.status = .returned conn ∧ conn.address = "new" ∧
      s.replacements[1]? = some u ∧ 1 ∈ call.since ∧ u.wrote ≤ conn.wrote ∧
      Written s.writes conn.wrote d ∧ d.id = u.id ∧ conn.MadeOf d := by
  have hrun : (run (State.step sample content) inTime {} registeredTwice).any (fun s => decide
        ((s.calls[1]?).any (fun call => call.wrote = 1 ∧ call.row.id = 7 ∧ call.since = [0, 1] ∧
          call.status = .returned ⟨"new", "mac", "ca", "pem", "pem", 1⟩) = true ∧
        (s.replacements[1]?).any (fun u => u.id = 7 ∧ u.wrote = 1) = true)) = true := by
    decide +kernel
  obtain ⟨s, hs, hcall, hu⟩ := exists_of_run hrun
  obtain ⟨call, hk, hcall⟩ := (Option.any_eq_true ..).mp hcall
  obtain ⟨u, hj, hu⟩ := (Option.any_eq_true ..).mp hu
  obtain ⟨hwrote, hid, hsince, hstatus⟩ := of_decide_eq_true hcall
  obtain ⟨huid, huwrote⟩ := of_decide_eq_true hu
  have hmem : 1 ∈ call.since := by rw [hsince]; decide
  obtain ⟨hle, d, hmade⟩ := device_not_reused hs hk hstatus hj hmem (huid.trans hid.symm)
    (by rw [huwrote, hwrote])
  exact ⟨s, call, u, _, d, hs, hk, hstatus, rfl, hj, hmem, hle, hmade⟩

/-- **A replaced device is used again**: a call builds a connection to the old address while the
device is registered anew; after `Forget` has returned the connection is stored, and a call that
starts then with the new row gets it. -/
theorem device_reused : ∃ ls s, Steps.Runs (State.step sample content) (fun _ _ => True) {} ls s ∧
    ∃ call u conn, s.calls[1]? = some call ∧ s.replacements[1]? = some u ∧ 1 ∈ call.since ∧
    u.id = call.row.id ∧ u.wrote = call.wrote ∧ call.row.address = "new" ∧
    call.status = .returned conn ∧ conn.address = "old" := by
  have hrun : (run (State.step sample content) (fun _ _ => true) {}
      (registration 0 (mac "old") ++ building 0 ++
        registration 1 (mac "new") ++ [.insert 0, .load 0 7, .start 1, .lookup 1])).any
      (fun s => decide
        ((s.calls[1]?).any (fun call => (s.replacements[1]?).any fun u => 1 ∈ call.since ∧
          u.id = call.row.id ∧ u.wrote = call.wrote ∧ call.row.address = "new" ∧
          call.status = .returned ⟨"old", "mac", "ca", "pem", "pem", 0⟩) = true)) = true := by
    decide +kernel
  obtain ⟨s, hs, hcall⟩ := exists_of_run hrun
  obtain ⟨call, hk, hcall⟩ := (Option.any_eq_true ..).mp hcall
  obtain ⟨u, hj, hu⟩ := (Option.any_eq_true ..).mp hcall
  obtain ⟨hsince, hid, hwrote, haddress, hstatus⟩ := of_decide_eq_true hu
  exact ⟨_, s, hs.weaken fun _ _ _ => trivial, call, u, _, hk, hj, hsince, hid, hwrote,
    haddress, hstatus, rfl⟩

end Jarvis.Orchestrator.Devices

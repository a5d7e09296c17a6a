/-
FlexEtl.Db.LifeProcTheorems — the connection and the description.

Client, description and `updateTblDesc` are reset in five places of the loop.
`Disciplined` says what they always agree on, with the client's past in the
record: without a client there is no description, and a description that
nothing has outdated was read through the client at hand. Every step keeps it,
`Disciplined.quiet` being the case of a step that leaves all three alone.
-/
import FlexEtl.Db.LifeProc
import FlexEtl.Db.SendTableTheorems

namespace FlexEtl

variable {γ : Type}

/-! ## The past -/

/-- A description read before this event is not to be relied on after it. -/
def SenderEvent.Outdates : SenderEvent → Prop
  | .connected _ => True
  | .requeued _ => True
  | _ => False

/-- A description was read through the client since it was connected, since any
client was, and since a file last went back into the queue. -/
def DescribedSince (client : Nat) (log : List SenderEvent) : Prop :=
  ∃ recent old, log = recent ++ .described client :: old ∧ .connected client ∈ old ∧
    ∀ e ∈ recent, ¬ e.Outdates

/-- An event that the discipline allows without more. -/
def SenderEvent.Quiet (e : SenderEvent) : Prop := ¬ e.Outdates ∧ ∀ call, e ≠ .called call none

theorem DescribedSince.append {client : Nat} {log new : List SenderEvent}
    (h : DescribedSince client log) (hnew : ∀ e ∈ new, e.Quiet) :
    DescribedSince client (new ++ log) := by
  obtain ⟨recent, old, rfl, hconnected, hrecent⟩ := h
  refine ⟨new ++ recent, old, by rw [List.append_assoc], hconnected, fun e he => ?_⟩
  rcases List.mem_append.mp he with he | he
  · exact (hnew e he).1
  · exact hrecent e he

/-- No function was called through a null client. -/
def CallsFine (log : List SenderEvent) : Prop := ∀ call, .called call none ∉ log

theorem CallsFine.append {log l : List SenderEvent} (h : CallsFine log)
    (hnew : ∀ e ∈ l, ∀ call, e ≠ .called call none) : CallsFine (l ++ log) := by
  intro call hcall
  rcases List.mem_append.mp hcall with hmem | hmem
  · exact hnew _ hmem call rfl
  · exact h call hmem

theorem quiet_nil : ∀ e ∈ ([] : List SenderEvent), e.Quiet := fun e he => by cases he

theorem quiet_singleton {e : SenderEvent} (h : e.Quiet) : ∀ e' ∈ [e], e'.Quiet := by
  intro e' he'
  rw [List.mem_singleton] at he'
  exact he' ▸ h

theorem quiet_called (call : Call) (client : Nat) :
    SenderEvent.Quiet (.called call (some client)) :=
  ⟨id, fun _ h => by cases h⟩

/-! ## The invariant -/

/-- What a place in the loop relies on. -/
def Pc.Needs (s : System γ) : Pc → Prop
  | .ping => s.db.m_pClickDB.isSome
  | .test => s.updateTblDesc = s.db.m_tblType.isEmpty
  | .dequeue => s.db.m_tblType.isEmpty = false ∧ s.updateTblDesc = false
  | .load _ | .send _ _ => s.db.m_pClickDB.isSome
  | _ => True

/-- What client, description and `updateTblDesc` agree on. -/
structure Disciplined (s : System γ) : Prop where
  noClient : s.db.m_pClickDB = none → s.db.m_tblType.isEmpty
  connected : ∀ client, s.db.m_pClickDB = some client → .connected client ∈ s.db.log
  described : ∀ client, s.db.m_pClickDB = some client → s.db.m_tblType.isEmpty = false →
    s.updateTblDesc = false → DescribedSince client s.db.log
  calls : CallsFine s.db.log
  needs : s.pc.Needs s

namespace Disciplined

/-- A step that leaves client and description alone, and does not clear `updateTblDesc`. -/
theorem quiet {s s' : System γ} (h : Disciplined s) {l : List SenderEvent}
    (hclient : s'.db.m_pClickDB = s.db.m_pClickDB) (htype : s'.db.m_tblType = s.db.m_tblType)
    (hupdate : s'.updateTblDesc = false → s.updateTblDesc = false)
    (hlog : s'.db.log = l ++ s.db.log) (hnew : ∀ e ∈ l, e.Quiet) (hneeds : s'.pc.Needs s') :
    Disciplined s' where
  noClient hnone := by
    rw [htype]
    exact h.noClient (hclient ▸ hnone)
  connected client hsome := by
    rw [hlog]
    exact List.mem_append_right l (h.connected client (hclient ▸ hsome))
  described client hsome htypes hfalse := by
    rw [hlog]
    exact (h.described client (hclient ▸ hsome) (htype ▸ htypes) (hupdate hfalse)).append hnew
  calls := by
    rw [hlog]
    exact h.calls.append fun e he => (hnew e he).2
  needs := hneeds

/-- Without a client and without a description there is little to agree on. -/
theorem dropped {s : System γ} (hclient : s.db.m_pClickDB = none) (htype : s.db.m_tblType.isEmpty)
    (hcalls : CallsFine s.db.log) (hneeds : s.pc.Needs s) : Disciplined s where
  noClient _ := htype
  connected client hsome := by rw [hclient] at hsome; cases hsome
  described client hsome := by rw [hclient] at hsome; cases hsome
  calls := hcalls
  needs := hneeds

/-- The server has answered with a description. -/
theorem renewed {s s' : System γ} (h : Disciplined s) {client : Nat}
    (hclient : s.db.m_pClickDB = some client) (hclient' : s'.db.m_pClickDB = some client)
    (hlog : s'.db.log = .described client :: .called .Execute (some client) :: s.db.log)
    (hneeds : s'.pc.Needs s') : Disciplined s' where
  noClient hnone := by rw [hclient'] at hnone; cases hnone
  connected client' hsome := by
    rw [hlog]
    exact List.mem_cons_of_mem _ (List.mem_cons_of_mem _
      (h.connected client' (hclient.trans (hclient'.symm.trans hsome))))
  described client' hsome _ _ := by
    obtain rfl : client = client' := Option.some.inj (hclient'.symm.trans hsome)
    rw [hlog]
    exact ⟨[], _, rfl, List.mem_cons_of_mem _ (h.connected client hclient), fun e he => by cases he⟩
  calls := by
    rw [hlog]
    refine h.calls.append (l := [.described client, .called .Execute (some client)]) ?_
    intro e he call
    rcases List.mem_pair.mp he with rfl | rfl
    · nofun
    · nofun
  needs := hneeds

end Disciplined

namespace System

open Click2DB (Asks Sends)

variable {columns : Columns γ} {cfg : Click2DB.Config}

/-! ## The steps of the other threads -/

theorem step_copy {s s' : System γ} {inFile : Path} {fails : Bool}
    (hs : s.step columns cfg (.copy inFile fails) = some s') :
    s.pc ≠ .down ∧ s' = s.copy cfg inFile fails := by
  simp only [step] at hs
  split at hs
  case h_1 => cases hs
  case h_2 hpc => exact ⟨hpc, (Option.some.inj hs).symm⟩

theorem step_enqueue {s s' : System γ} {toFile : Path}
    (hs : s.step columns cfg (.enqueue toFile) = some s') :
    toFile ∈ s.arriving ∧ s' = s.enqueue toFile := by
  simp only [step] at hs
  split at hs
  case isTrue hmem => exact ⟨hmem, (Option.some.inj hs).symm⟩
  case isFalse => cases hs

theorem step_init {s s' : System γ} {listing : List String}
    (hs : s.step columns cfg (.init listing) = some s') :
    s.pc = .down ∧ s' = s.init cfg listing := by
  simp only [step] at hs
  split at hs
  case h_1 hpc => exact ⟨hpc, (Option.some.inj hs).symm⟩
  case h_2 => cases hs

theorem step_start {s s' : System γ} (hs : s.step columns cfg .start = some s') :
    s.pc = .ready ∧ s' = s.start := by
  simp only [step] at hs
  split at hs
  case h_1 hpc => exact ⟨hpc, (Option.some.inj hs).symm⟩
  case h_2 => cases hs

theorem step_destroy {s s' : System γ} (hs : s.step columns cfg .destroy = some s') :
    (s.pc = .ready ∨ s.pc = .exited) ∧ s.arriving = [] ∧
      s' = { s with pc := .down, db := { log := s.db.log, inserts := s.db.inserts } } := by
  simp only [step] at hs
  split at hs
  case h_1 hpc harriving => exact ⟨.inl hpc, harriving, (Option.some.inj hs).symm⟩
  case h_2 hpc harriving => exact ⟨.inr hpc, harriving, (Option.some.inj hs).symm⟩
  case h_3 => cases hs

/-! ## The steps before a file is dequeued -/

theorem disciplined_loop {s : System γ} (h : Disciplined s) :
    Disciplined { s with pc := if s.db.m_run then .connect else .exited } := by
  refine h.quiet rfl rfl id rfl quiet_nil ?_
  dsimp only
  split
  · trivial
  · trivial

theorem disciplined_connect {s : System γ} (h : Disciplined s) (answer : Except String Unit) :
    Disciplined (s.connect answer) := by
  unfold connect
  split
  case isTrue hsome => exact h.quiet rfl rfl id rfl quiet_nil hsome
  case isFalse hnone =>
    have hclient : s.db.m_pClickDB = none := by simpa using hnone
    cases answer with
    | error what =>
        have hrun : s.tryConnect (.error what) =
            (false, { s with db := { s.db with m_tblType := ∅, m_pClickDB := none } }) := by
          simp only [tryConnect, hclient]
        rw [hrun]
        exact .dropped rfl rfl h.calls trivial
    | ok u =>
        have hrun : s.tryConnect (.ok u) = (true, { s with
            db := { s.db with m_pClickDB := some s.clients }.record (.connected s.clients)
            clients := s.clients + 1 }) := by
          simp only [tryConnect, hclient]
        rw [hrun]
        refine ⟨fun hnone' => (by cases hnone'), ?_, ?_, ?_, rfl⟩
        · intro client hsome
          cases hsome
          exact List.mem_cons_self
        · intro client _ htypes
          -- the description was empty without a client, and still is
          have hempty := h.noClient hclient
          change s.db.m_tblType.isEmpty = false at htypes
          rw [htypes] at hempty
          cases hempty
        · exact h.calls.append (l := [.connected s.clients])
            (fun e he call => by rw [List.mem_singleton.mp he]; nofun)

theorem disciplined_ping {s : System γ} (h : Disciplined s) (hpc : s.pc = .ping)
    (answer : Except String Unit) : Disciplined (s.ping answer) := by
  have hneeds := h.needs
  rw [hpc] at hneeds
  obtain ⟨client, hclient⟩ := Option.isSome_iff_exists.mp hneeds
  unfold ping
  split
  case isFalse => exact h.quiet rfl rfl id rfl quiet_nil trivial
  case isTrue =>
    have hquiet : ∀ e ∈ [SenderEvent.called .Ping s.db.m_pClickDB], e.Quiet := by
      rw [hclient]
      exact quiet_singleton (quiet_called .Ping client)
    cases answer with
    | ok u => exact h.quiet rfl rfl id rfl hquiet trivial
    | error what => exact .dropped rfl rfl (h.calls.append fun e he => (hquiet e he).2) trivial

theorem disciplined_describe {s : System γ} (h : Disciplined s)
    (answer : Except String Click2DB.Description) : Disciplined (s.describe answer) := by
  unfold describe
  split
  case isFalse hskip =>
    refine h.quiet rfl rfl id rfl quiet_nil ?_
    simp only [Bool.or_eq_true, not_or, Bool.not_eq_true] at hskip
    exact hskip.1.trans hskip.2.symm
  case isTrue =>
    rcases Click2DB.descibeTable_cases answer s.db with
      ⟨hclient, what, hrun⟩ | ⟨client, hclient, ⟨what, hrun⟩ | ⟨tblType, changed, hrun⟩⟩
    · rw [EStateM.run, hrun]
      exact .dropped rfl rfl h.calls rfl
    · rw [EStateM.run, hrun]
      exact .dropped rfl rfl (h.calls.append fun e he =>
        (quiet_singleton (quiet_called .Execute client) e he).2) rfl
    · rw [EStateM.run, hrun]
      exact h.renewed hclient hclient rfl rfl

theorem disciplined_test {s : System γ} (h : Disciplined s) (hpc : s.pc = .test) :
    Disciplined s.test := by
  have hneeds := h.needs
  rw [hpc] at hneeds
  unfold test
  split
  case isTrue => exact h.quiet rfl rfl (fun hfalse => by cases hfalse) rfl quiet_nil trivial
  case isFalse hempty =>
    have htypes : s.db.m_tblType.isEmpty = false := by simpa using hempty
    exact h.quiet rfl rfl id rfl quiet_nil ⟨htypes, hneeds.trans htypes⟩

/-! ## The steps with a file -/

theorem disciplined_dequeue {s : System γ} (h : Disciplined s) (hpc : s.pc = .dequeue)
    (answer : Option Nat) : Disciplined (s.dequeue answer) := by
  have hneeds := h.needs
  rw [hpc] at hneeds
  have hsome : s.db.m_pClickDB.isSome := by
    cases hclient : s.db.m_pClickDB with
    | some client => rfl
    | none =>
        have hempty := h.noClient hclient
        rw [hneeds.1] at hempty
        cases hempty
  unfold dequeue
  split
  · exact h.quiet rfl rfl id rfl quiet_nil trivial
  · split
    · exact h.quiet rfl rfl id rfl quiet_nil trivial
    · exact h.quiet rfl rfl id rfl quiet_nil hsome

theorem disciplined_load {s s' : System γ} (h : Disciplined s) {file : Nat × Path}
    (hpc : s.pc = .load file) {read : Option Bytes → Option Bytes}
    (hs : s.load read file = some s') : Disciplined s' := by
  have hneeds := h.needs
  rw [hpc] at hneeds
  unfold load at hs
  split at hs
  · cases hs
    exact h.quiet rfl rfl id rfl quiet_nil hneeds
  · cases hs
    exact h.quiet rfl rfl id rfl
      (quiet_singleton (e := .loadFailed file.2) ⟨id, fun _ hc => by cases hc⟩) trivial
  · cases hs

theorem disciplined_moveFile {s : System γ} (h : Disciplined s) (env : MoveEnv) (toPath : String)
    (file : Path) : Disciplined { s.moveFile env toPath file with pc := .loop } := by
  unfold moveFile
  split
  · exact h.quiet rfl rfl id rfl
      (quiet_singleton (e := .moved s.run toPath file) ⟨id, fun _ hc => by cases hc⟩) trivial
  · exact h.quiet rfl rfl id rfl quiet_nil trivial

/-- Asking for the description keeps the discipline everywhere. -/
theorem disciplined_asks {s : System γ} (h : Disciplined s) {db : Click2DB γ} (hasks : Asks s.db db)
    (pc : Pc) (hpc : pc.Needs { s with db, pc }) : Disciplined { s with db, pc } := by
  cases hasks with
  | silent errors => exact h.quiet rfl rfl id rfl quiet_nil hpc
  | refused errors client hclient =>
      exact h.quiet rfl rfl id rfl (quiet_singleton (quiet_called .Execute client)) hpc
  | answered errors client tblType hclient => exact h.renewed hclient hclient rfl hpc

theorem asks_client {db db' : Click2DB γ} (h : Asks db db') : db'.m_pClickDB = db.m_pClickDB := by
  cases h with
  | silent _ => rfl
  | refused _ _ _ => rfl
  | answered _ _ _ _ => rfl

theorem disciplined_send {s s' : System γ} (h : Disciplined s) {file : Nat × Path}
    {table : ClickTable} (hpc : s.pc = .send file table) {env : Click2DB.SendEnv}
    (hs : s.send columns cfg env file table = some s') : Disciplined s' := by
  have hneeds := h.needs
  rw [hpc] at hneeds
  obtain ⟨client, hclient⟩ := Option.isSome_iff_exists.mp hneeds
  have hsends := Click2DB.sends_sendTable columns cfg.m_tableName env file.2 table s.db
  have hfailed : SenderEvent.Quiet (.sendFailed s.run file.2) := ⟨id, nofun⟩
  unfold send at hs
  generalize (Click2DB.sendTable columns cfg.m_tableName env file.2 table).run s.db = result
    at hs hsends
  cases hsends with
  | unmade fault hasks =>
      cases fault with
      | thrown what =>
          cases hs
          exact (disciplined_asks h hasks (.caught file) trivial).quiet rfl rfl id rfl
            (quiet_singleton hfailed) trivial
      | undefined what => cases hs
      | outOfFuel => cases hs
  | refused what m_tableName block hasks =>
      cases hs
      have hcall := quiet_called .Insert client
      rw [← hclient, ← asks_client hasks] at hcall
      refine (disciplined_asks h hasks (.caught file) trivial).quiet rfl rfl id rfl
        (l := [.sendFailed s.run file.2, .called .Insert _]) ?_ trivial
      intro e he
      rcases List.mem_pair.mp he with rfl | rfl
      · exact hfailed
      · exact hcall
  | sent table m_tableName block hasks =>
      cases hs
      have hcall := quiet_called .Insert client
      rw [← hclient, ← asks_client hasks] at hcall
      refine (disciplined_asks h hasks (.sent file) trivial).quiet rfl rfl id rfl
        (l := [.inserted file.2, .called .Insert _]) ?_ trivial
      intro e he
      rcases List.mem_pair.mp he with rfl | rfl
      · exact ⟨id, nofun⟩
      · exact hcall

/-- The file that goes back outdates the description, and the flag says so. -/
theorem disciplined_retry {s : System γ} (h : Disciplined s) (env : MoveEnv) (file : Nat × Path) :
    Disciplined { s.retry cfg env file with pc := .loop } := by
  unfold retry
  dsimp only
  split
  · refine ⟨h.noClient, fun client hsome => ?_, fun client _ _ hfalse => (by cases hfalse), ?_,
      trivial⟩
    · exact List.mem_cons_of_mem _ (h.connected client hsome)
    · exact h.calls.append (l := [.requeued file.2])
        (fun e he call => by rw [List.mem_singleton.mp he]; nofun)
  · exact disciplined_moveFile h env cfg.m_sendFailed file.2

theorem disciplined_lifeProc {s s' : System γ} (h : Disciplined s) {a : Answers}
    (hs : s.lifeProc columns cfg a = some s') : Disciplined s' := by
  unfold lifeProc at hs
  cases hpc : s.pc with
  | loop => rw [hpc] at hs; cases hs; exact disciplined_loop h
  | connect => rw [hpc] at hs; cases hs; exact disciplined_connect h a.connect
  | ping => rw [hpc] at hs; cases hs; exact disciplined_ping h hpc a.ping
  | describe => rw [hpc] at hs; cases hs; exact disciplined_describe h a.description
  | test => rw [hpc] at hs; cases hs; exact disciplined_test h hpc
  | dequeue => rw [hpc] at hs; cases hs; exact disciplined_dequeue h hpc a.dequeue
  | load file => rw [hpc] at hs; exact disciplined_load h hpc hs
  | bad file =>
      rw [hpc] at hs
      cases hs
      exact disciplined_moveFile h a.move cfg.m_loadFailed file.2
  | send file table => rw [hpc] at hs; exact disciplined_send h hpc hs
  | sent file => rw [hpc] at hs; cases hs; exact disciplined_moveFile h a.move "" file.2
  | caught file => rw [hpc] at hs; cases hs; exact disciplined_retry h a.move file
  | down => rw [hpc] at hs; cases hs
  | ready => rw [hpc] at hs; cases hs
  | exited => rw [hpc] at hs; cases hs

/-! ## Whole runs -/

/-- What a place relies on is kept by the threads that leave client, description and
flag alone. -/
theorem needs_of_same {s s' : System γ} (hneeds : s.pc.Needs s) (hpc : s'.pc = s.pc)
    (hclient : s'.db.m_pClickDB = s.db.m_pClickDB) (htype : s'.db.m_tblType = s.db.m_tblType)
    (hupdate : s'.updateTblDesc = s.updateTblDesc) : s'.pc.Needs s' := by
  rw [hpc]
  cases h : s.pc <;> rw [h] at hneeds <;>
    simp only [Pc.Needs, hclient, htype, hupdate] at hneeds ⊢ <;> exact hneeds

theorem disciplined_copy {s : System γ} (h : Disciplined s) (inFile : Path) (fails : Bool) :
    Disciplined (s.copy cfg inFile fails) := by
  unfold copy
  dsimp only
  split
  · exact h.quiet rfl rfl id rfl quiet_nil (needs_of_same h.needs rfl rfl rfl rfl)
  · exact h.quiet rfl rfl id rfl quiet_nil (needs_of_same h.needs rfl rfl rfl rfl)

theorem disciplined_step {s s' : System γ} (h : Disciplined s) {a : Action}
    (hs : s.step columns cfg a = some s') : Disciplined s' := by
  cases a with
  | lifeProc a => exact disciplined_lifeProc h hs
  | copy inFile fails =>
      obtain ⟨-, rfl⟩ := step_copy hs
      exact disciplined_copy h inFile fails
  | enqueue toFile =>
      obtain ⟨-, rfl⟩ := step_enqueue hs
      exact h.quiet rfl rfl id rfl (quiet_singleton (e := .accepted toFile) ⟨id, nofun⟩)
        (needs_of_same h.needs rfl rfl rfl rfl)
  | outside fs =>
      cases hs
      exact h.quiet rfl rfl id rfl quiet_nil (needs_of_same h.needs rfl rfl rfl rfl)
  | init listing =>
      obtain ⟨-, rfl⟩ := step_init hs
      exact .dropped rfl rfl h.calls trivial
  | start =>
      obtain ⟨-, rfl⟩ := step_start hs
      exact h.quiet rfl rfl (fun hfalse => by cases hfalse) rfl quiet_nil trivial
  | stop =>
      cases hs
      exact h.quiet rfl rfl id rfl quiet_nil (needs_of_same h.needs rfl rfl rfl rfl)
  | destroy =>
      obtain ⟨-, -, rfl⟩ := step_destroy hs
      exact .dropped rfl rfl h.calls trivial

theorem disciplined_initial {fs : Fs} {names : List String} :
    Disciplined (initial cfg fs names : System γ) := by
  refine .dropped rfl rfl (fun call hcall => ?_) trivial
  obtain ⟨name, -, hname⟩ := List.mem_map.mp hcall
  cases hname

theorem disciplined_of_reachable {s : System γ} {Allowed : System γ → Action → Prop}
    (h : (machine columns cfg).Reachable Allowed s) : Disciplined s := by
  refine h.invariant ?_ fun s a s' hd _ hs => ?_
  · rintro s ⟨fs, names, rfl, -⟩
    exact disciplined_initial
  · have hs' : s.step columns cfg a = some s' := hs
    exact disciplined_step hd hs'

/-- **The discipline of the sender.** In every state that the node reaches, whatever
the world answers: without a client there is no description; where an entry is
taken from the queue there is a client and a description, and one was read
through this client since it was connected and since the last file that went back
into the queue; and no function was ever called through a null client. -/
theorem sender_discipline {s : System γ} (h : (machine columns cfg).Reachable (fun _ _ => True) s) :
    (s.db.m_pClickDB = none → s.db.m_tblType = ∅) ∧
    (s.pc = .dequeue → ∃ client, s.db.m_pClickDB = some client ∧ s.db.m_tblType ≠ ∅ ∧
      DescribedSince client s.db.log) ∧
    ∀ call, .called call none ∉ s.db.log := by
  have hd := disciplined_of_reachable h
  refine ⟨fun hnone => ?_, fun hpc => ?_, hd.calls⟩
  · exact Std.ExtTreeMap.isEmpty_iff.mp (hd.noClient hnone)
  · have hneeds := hd.needs
    rw [hpc] at hneeds
    obtain ⟨htypes, hupdate⟩ := hneeds
    have htypes' : s.db.m_tblType ≠ ∅ := by
      intro hempty
      rw [hempty] at htypes
      cases htypes
    cases hclient : s.db.m_pClickDB with
    | none => exact absurd (Std.ExtTreeMap.isEmpty_iff.mp (hd.noClient hclient)) htypes'
    | some client => exact ⟨client, rfl, htypes', hd.described client hclient htypes hupdate⟩

/-- Columns that hold nothing, for a run that sends nothing. -/
def noColumns : Columns Unit where
  CreateColumnByType _ := .ok none
  column2ClickColumn _ column := .ok column
  Size _ := 0

def plainConfig : Click2DB.Config where
  m_tableName := [116]
  m_toSend := "tosend"
  m_sendFailed := "failed"
  m_loadFailed := "bad"

/-- A process starts with an empty directory, connects, and reads the description of a
table with the column `a`: the worker stands before the queue. -/
def waiting : System Unit where
  pc := .dequeue
  db := {
    m_run := true
    m_tblType := Click2DB.tblTypeOf [([97], [98])]
    m_pClickDB := some 0
    log := [.described 0, .called .Execute (some 0), .connected 0] }
  updateTblDesc := false
  fs _ := none
  clients := 1
  run := 1

theorem reachable_waiting :
    (machine noColumns plainConfig).Reachable (fun _ _ => True) waiting := by
  have hinit : (machine noColumns plainConfig).Init (initial plainConfig (fun _ => none) []) :=
    ⟨_, _, rfl, fun name => by simp⟩
  refine ((((((Machine.Reachable.init hinit).next (a := .init []) trivial rfl).next
    (a := .start) trivial rfl).next (a := .lifeProc {}) trivial rfl).next
    (a := .lifeProc {}) trivial rfl).next (a := .lifeProc {}) trivial rfl).next
    (a := .lifeProc { description := .ok [([97], [98])] }) trivial rfl |>.next
    (a := .lifeProc {}) trivial rfl

/-- The discipline before the queue, in a run that gets there. -/
theorem sender_discipline_waiting :
    ∃ client, waiting.db.m_pClickDB = some client ∧ waiting.db.m_tblType ≠ ∅ ∧
      DescribedSince client waiting.db.log :=
  (sender_discipline reachable_waiting).2.1 rfl

end System

end FlexEtl

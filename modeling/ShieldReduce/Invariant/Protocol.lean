import ShieldReduce.System.Protocol

/-!
# Locks and keys of connections

A session is inside between its `lock()` of its client's lock and its
`unlock()`, and `clientLockIndex_` names the one session inside for each
client ID. A session that has exchanged its key and not yet read it back
from `clientSessionKeyIndex_` is inside, so the entry it reads is the one
it wrote: nothing is assumed about what the other sides send.
-/

namespace ShieldReduce.Protocol

open ByteLib UMapLib StepLib

/-! ## Places of a session -/

namespace ThreadAt

/-- It holds `clientLockSetLock_`. -/
def holdsSet : ThreadAt → Bool
  | .findLock _ => true
  | .lockClient _ => true
  | .unlockSet _ => true
  | _ => false

/-- It holds the lock of this client. -/
def holdsClient : ThreadAt → Option UInt32
  | .unlockSet c => some c
  | .keyExchange c => some c
  | .sendReply c => some c
  | .recvLogin c => some c
  | .checkFileStatus c _ => some c
  | .sendNonExist c => some c
  | .recvClosed c => some c
  | .newClientVar c _ => some c
  | .initClient c _ => some c
  | .sendResponse c _ => some c
  | .join c _ => some c
  | .processOff c => some c
  | .destroyClient c => some c
  | .unlockClient c => some c
  | _ => none

/-- Its key is in `clientSessionKeyIndex_` and will be read. -/
def keyed : ThreadAt → Option UInt32
  | .sendReply c => some c
  | .recvLogin c => some c
  | .checkFileStatus c _ => some c
  | .newClientVar c _ => some c
  | .initClient c _ => some c
  | _ => none

/-- It has an `EnclaveClient`. -/
def serves : ThreadAt → Option UInt32
  | .sendResponse c _ => some c
  | .join c _ => some c
  | .processOff c => some c
  | .destroyClient c => some c
  | _ => none

theorem holdsClient_of_keyed {t : ThreadAt} {c : UInt32} (h : t.keyed = some c) :
    t.holdsClient = some c := by
  cases t <;> first | exact h | cases h

theorem holdsClient_of_serves {t : ThreadAt} {c : UInt32} (h : t.serves = some c) :
    t.holdsClient = some c := by
  cases t <;> first | exact h | cases h

end ThreadAt

variable {ι : Type}

namespace State

section

variable [DecidableEq ι]

variable (st : State ι) (i : ι) (s : Connection)

@[simp] theorem connections_set_self : (st.set i s).connections i = s := Function.update_self ..

@[simp] theorem connections_set_of_ne {j : ι} (h : j ≠ i) :
    (st.set i s).connections j = st.connections j := Function.update_of_ne h ..

variable {st i s}

theorem goOn_cases {k : Option Connection} {P : State ι → Prop} (hdown : P { st with down := true })
    (hset : ∀ s, k = some s → P (st.set i s)) : P (st.goOn i k) := by
  cases k with
  | none => exact hdown
  | some s => exact hset s rfl

/-- What a `ReceiveData` of the server does. -/
theorem receive_cases {size : Nat} {onMessage : Message → Connection → Option Connection}
    {onClosed : Connection → Option Connection} {st' : State ι} {P : State ι → Prop}
    (h : st.receive i size onMessage onClosed = some st')
    (hmessage : ∀ m, (st.connections i).toServer.next = some m → m.data.length ≤ size →
      P (st.goOn i (onMessage m
        { st.connections i with toServer := (st.connections i).toServer.advance })))
    (hclosed : (st.connections i).toServer.next = none → (st.connections i).closed = true →
      P (st.goOn i (onClosed (st.connections i)))) : P st' := by
  rw [receive] at h
  split at h
  · rename_i m hm
    split at h
    · rename_i hfits
      rw [← Option.some.inj h]
      exact hmessage m hm hfits
    · cases h
  · rename_i hnone
    split at h
    · rename_i hgone
      rw [← Option.some.inj h]
      exact hclosed hnone hgone
    · cases h

/-- What a `SendData` of the server does. -/
theorem send_cases {taken : Bool} {m : Message} {onSent : Connection → Connection}
    {P : State ι → Prop} (hdown : (st.connections i).closed = true → P { st with down := true })
    (hsent : P (st.set i (onSent { st.connections i with
      toClient := (st.connections i).toClient.send m }))) : P (st.send i taken m onSent) := by
  rw [send]
  split
  · rename_i hgone
    exact hdown hgone.1
  · exact hsent

/-! What becomes of the connection itself. -/

variable {P : Connection → Prop}

theorem goOn_self {k : Option Connection} (hstay : P (st.connections i))
    (hgo : ∀ s, k = some s → P s) : P ((st.goOn i k).connections i) := by
  refine goOn_cases (P := fun st' => P (st'.connections i)) hstay fun s hs => ?_
  rw [connections_set_self]
  exact hgo s hs

theorem receive_self {size : Nat} {onMessage : Message → Connection → Option Connection}
    {onClosed : Connection → Option Connection} {st' : State ι}
    (h : st.receive i size onMessage onClosed = some st') (hstay : P (st.connections i))
    (hmessage : ∀ m s, (st.connections i).toServer.next = some m → onMessage m
      { st.connections i with toServer := (st.connections i).toServer.advance } = some s → P s)
    (hclosed : (st.connections i).toServer.next = none → (st.connections i).closed = true →
      ∀ s, onClosed (st.connections i) = some s → P s) : P (st'.connections i) :=
  receive_cases (P := fun st' => P (st'.connections i)) h
    (fun m hm _ => goOn_self hstay fun s => hmessage m s hm)
    fun hnone hgone => goOn_self hstay (hclosed hnone hgone)

theorem send_self {taken : Bool} {m : Message} {onSent : Connection → Connection}
    (hstay : P (st.connections i)) (hsent : P (onSent { st.connections i with
      toClient := (st.connections i).toClient.send m })) :
    P ((st.send i taken m onSent).connections i) := by
  refine send_cases (P := fun st' => P (st'.connections i)) (fun _ => hstay) ?_
  rw [connections_set_self]
  exact hsent

end

end State

/-! ## Frames -/

/-- The server's side of a connection stays as it is. -/
structure ServerSame (s s' : Connection) : Prop where
  threadAt : s'.threadAt = s.threadAt
  recvBuf : s'.recvBuf = s.recvBuf
  derived : s'.derived = s.derived
  sgxClient : s'.sgxClient = s.sgxClient
  workerAt : s'.workerAt = s.workerAt
  processed : s'.processed = s.processed
  read : s'.toServer.read = s.toServer.read
  sent : s'.toClient.sent = s.toClient.sent

theorem Connection.clientReceive_cases {s s' : Connection}
    {onMessage : Message → Connection → Connection} (h : s.clientReceive onMessage = some s') :
    ∃ m, s.toClient.next = some m ∧ s' = onMessage m { s with toClient := s.toClient.advance } := by
  obtain ⟨m, hm, rfl⟩ := Option.map_eq_some_iff.mp h
  exact ⟨m, hm, rfl⟩

theorem ServerSame.exitClient (s : Connection) (success : Bool) :
    ServerSame s (s.exitClient success) := ⟨rfl, rfl, rfl, rfl, rfl, rfl, rfl, rfl⟩

theorem Connection.clientStep_same {env : Env} {kx : KeyExchange} {c : Client kx} {s s' : Connection}
    (h : s.clientStep env c = some s') : ServerSame s s' := by
  rw [Connection.clientStep] at h
  split at h
  case h_3 | h_5 =>
    obtain ⟨m, -, rfl⟩ := clientReceive_cases h
    split
    · split <;> exact ⟨rfl, rfl, rfl, rfl, rfl, rfl, rfl, rfl⟩
    · exact ⟨rfl, rfl, rfl, rfl, rfl, rfl, rfl, rfl⟩
  case h_9 =>
    obtain ⟨m, -, rfl⟩ := clientReceive_cases h
    dsimp only
    split <;> exact ⟨rfl, rfl, rfl, rfl, rfl, rfl, rfl, rfl⟩
  case h_11 | h_12 | h_13 => cases h
  all_goals
    obtain rfl := Option.some.inj h
    exact ⟨rfl, rfl, rfl, rfl, rfl, rfl, rfl, rfl⟩

/-- A client appends to what it has sent, and reads what was sent to it. -/
theorem Connection.clientStep_channels {env : Env} {kx : KeyExchange} {c : Client kx}
    {s s' : Connection} (h : s.clientStep env c = some s') :
    s.toServer.sent <+: s'.toServer.sent ∧
      (s'.toClient.read = s.toClient.read ∨ s.toClient.next ≠ none ∧
        s'.toClient.read = s.toClient.read + 1) := by
  rw [Connection.clientStep] at h
  split at h
  case h_3 | h_5 =>
    obtain ⟨m, hm, rfl⟩ := clientReceive_cases h
    have hnext : s.toClient.next ≠ none := by rw [hm]; nofun
    split
    · split <;> exact ⟨List.prefix_rfl, Or.inr ⟨hnext, rfl⟩⟩
    · exact ⟨List.prefix_rfl, Or.inr ⟨hnext, rfl⟩⟩
  case h_9 =>
    obtain ⟨m, hm, rfl⟩ := clientReceive_cases h
    have hnext : s.toClient.next ≠ none := by rw [hm]; nofun
    dsimp only
    split <;> exact ⟨List.prefix_rfl, Or.inr ⟨hnext, rfl⟩⟩
  case h_11 | h_12 | h_13 => cases h
  all_goals
    obtain rfl := Option.some.inj h
    first
      | exact ⟨List.prefix_append _ _, Or.inl rfl⟩
      | exact ⟨List.prefix_rfl, Or.inl rfl⟩

theorem ne_none_of_eq {α : Type} {o : Option α} {a : α} (h : o = some a) : o ≠ none := by
  rw [h]
  exact Option.some_ne_none a

theorem Channel.lt_of_next {c : Channel} {m : Message} (h : c.next = some m) :
    c.read < c.sent.length := (List.getElem?_eq_some_iff.mp h).1

theorem Channel.read_lt {c : Channel} (h : c.next ≠ none) : c.read < c.sent.length := by
  obtain ⟨m, hm⟩ := Option.ne_none_iff_exists'.mp h
  exact lt_of_next hm

/-- The client has not closed its side. -/
def ClientAt.live : ClientAt → Bool
  | .exited _ => false
  | .killed => false
  | _ => true

theorem Connection.live_of_clientStep {env : Env} {kx : KeyExchange} {c : Client kx}
    {s s' : Connection} (h : s.clientStep env c = some s') : s.clientAt.live = true := by
  rw [Connection.clientStep] at h
  cases hat : s.clientAt <;> simp only [hat] at h <;> first
    | rfl
    | cases h

/-- A client does not kill itself. -/
theorem Connection.ne_killed_of_clientStep {env : Env} {kx : KeyExchange} {c : Client kx}
    {s s' : Connection} (h : s.clientStep env c = some s') : s'.clientAt ≠ .killed := by
  cases hat : s.clientAt <;> simp only [Connection.clientStep, hat] at h
  case recvReply | recvResponse =>
    obtain ⟨m, -, rfl⟩ := clientReceive_cases h
    split
    · split <;> nofun
    · nofun
  case recvData =>
    obtain ⟨m, -, rfl⟩ := clientReceive_cases h
    split
    · rw [hat]
      nofun
    · nofun
    · nofun
  case sendRa =>
    rw [← Option.some.inj h]
    simp only [Connection.clientSend]
    split <;> nofun
  case sendData rest => cases rest <;> rw [← Option.some.inj h] <;> nofun
  case sendKeyInit | sendLogin | sendReady | finish =>
    rw [← Option.some.inj h]
    nofun
  case exited | killed | foreign => cases h

/-- What each action does. -/
theorem step_cases [DecidableEq ι] {env : Env} {kx : KeyExchange} {setup : Setup ι kx}
    {st st' : State ι} {a : Act ι} (h : step env setup st a = some st') :
    st.down = false ∧ match a with
      | .thread i taken => threadStep env setup st i taken = some st'
      | .worker i taken => workerStep env setup st i taken = some st'
      | .client i => ∃ c s, setup.client i = some c ∧
          (st.connections i).clientStep env c = some s ∧ st' = st.set i s
      | .kill i => (setup.client i).isSome = true ∧ (st.connections i).closed = false ∧
          st' = st.set i { st.connections i with clientAt := .killed, closed := true }
      | .foreignSend i m => setup.client i = none ∧ st' = st.set i
          { st.connections i with toServer := (st.connections i).toServer.send m }
      | .foreignClose i => setup.client i = none ∧
          st' = st.set i { st.connections i with closed := true } := by
  unfold step at h
  split at h
  · cases h
  · rename_i hup
    refine ⟨Bool.eq_false_iff.mpr hup, ?_⟩
    cases a with
    | thread i taken => exact h
    | worker i taken => exact h
    | client i =>
        obtain ⟨c, hc, h⟩ := Option.bind_eq_some_iff.mp h
        obtain ⟨s, hs, rfl⟩ := Option.map_eq_some_iff.mp h
        exact ⟨c, s, hc, hs, rfl⟩
    | kill i =>
        obtain ⟨⟨hclient, hopen⟩, h⟩ := Option.ite_none_right_eq_some.mp h
        exact ⟨hclient, hopen, (Option.some.inj h).symm⟩
    | foreignSend i m =>
        obtain ⟨⟨hclient, -⟩, h⟩ := Option.ite_none_right_eq_some.mp h
        exact ⟨Option.isNone_iff_eq_none.mp hclient, (Option.some.inj h).symm⟩
    | foreignClose i =>
        obtain ⟨⟨hclient, -⟩, h⟩ := Option.ite_none_right_eq_some.mp h
        exact ⟨Option.isNone_iff_eq_none.mp hclient, (Option.some.inj h).symm⟩

/-! A step is a step of one connection. -/

/-- The connection that an action is of. -/
def Act.connection : Act ι → ι
  | .thread i _ => i
  | .worker i _ => i
  | .client i => i
  | .kill i => i
  | .foreignSend i _ => i
  | .foreignClose i => i

section Others

variable [DecidableEq ι] {env : Env} {kx : KeyExchange} {setup : Setup ι kx} {st st' : State ι}
  {i j : ι} {taken : Bool}

theorem goOn_others (hj : j ≠ i) (k : Option Connection) :
    (st.goOn i k).connections j = st.connections j :=
  State.goOn_cases (P := fun st' => st'.connections j = st.connections j) rfl fun _ _ =>
    State.connections_set_of_ne _ _ _ hj

theorem receive_others (hj : j ≠ i) {size : Nat} {onMessage : Message → Connection → Option Connection}
    {onClosed : Connection → Option Connection} (h : st.receive i size onMessage onClosed = some st') :
    st'.connections j = st.connections j :=
  State.receive_cases (P := fun st' => st'.connections j = st.connections j) h
    (fun _ _ _ => goOn_others hj _) fun _ _ => goOn_others hj _

theorem send_others (hj : j ≠ i) (m : Message) (onSent : Connection → Connection) :
    (st.send i taken m onSent).connections j = st.connections j :=
  State.send_cases (P := fun st' => st'.connections j = st.connections j) (fun _ => rfl)
    (State.connections_set_of_ne _ _ _ hj)

theorem threadStep_others (hj : j ≠ i) (h : threadStep env setup st i taken = some st') :
    st'.connections j = st.connections j := by
  have hset : ∀ s, (st.set i s).connections j = st.connections j := fun s =>
    State.connections_set_of_ne _ _ _ hj
  rw [threadStep] at h
  cases hat : (st.connections i).threadAt <;> simp only [hat] at h
  case recvRa | recvGone | recvKeyInit | recvLogin | recvClosed => exact receive_others hj h
  case sendReply | sendNonExist | sendResponse =>
    rw [← Option.some.inj h]
    exact send_others hj _ _
  case initClient =>
    rw [← Option.some.inj h]
    exact goOn_others hj _
  case lockSet | findLock | lockClient | keyExchange | checkFileStatus | join =>
    split at h <;> cases h <;> first
      | exact hset _
      | rfl
  case newClientVar =>
    rw [← Option.some.inj h]
    split <;> exact hset _
  case unlockSet | processOff | destroyClient | unlockClient =>
    rw [← Option.some.inj h]
    exact hset _
  case returned => cases h

theorem workerStep_others (hj : j ≠ i) (h : workerStep env setup st i taken = some st') :
    st'.connections j = st.connections j := by
  rw [workerStep] at h
  split at h
  case h_1 | h_7 => cases h
  case h_2 | h_3 | h_6 => exact receive_others hj h
  case h_4 =>
    rw [← Option.some.inj h]
    exact send_others hj _ _
  case h_5 =>
    rw [← Option.some.inj h]
    exact State.connections_set_of_ne _ _ _ hj

/-- No other connection notices. -/
theorem step_others {a : Act ι} (h : step env setup st a = some st') (hj : j ≠ a.connection) :
    st'.connections j = st.connections j := by
  have hcases := (step_cases h).2
  cases a with
  | thread i taken => exact threadStep_others hj hcases
  | worker i taken => exact workerStep_others hj hcases
  | client i =>
      obtain ⟨c, s, -, -, rfl⟩ := hcases
      exact State.connections_set_of_ne _ _ _ hj
  | kill i =>
      obtain ⟨-, -, rfl⟩ := hcases
      exact State.connections_set_of_ne _ _ _ hj
  | foreignSend i m =>
      obtain ⟨-, rfl⟩ := hcases
      exact State.connections_set_of_ne _ _ _ hj
  | foreignClose i =>
      obtain ⟨-, rfl⟩ := hcases
      exact State.connections_set_of_ne _ _ _ hj

/-! A session does not touch its client. -/

theorem receive_clientAt {size : Nat} {onMessage : Message → Connection → Option Connection}
    {onClosed : Connection → Option Connection} (h : st.receive i size onMessage onClosed = some st')
    (hmessage : ∀ m s s', onMessage m s = some s' → s'.clientAt = s.clientAt)
    (hclosed : ∀ s s', onClosed s = some s' → s'.clientAt = s.clientAt) :
    (st'.connections i).clientAt = (st.connections i).clientAt := by
  refine State.receive_self (P := fun s => s.clientAt = (st.connections i).clientAt) h rfl
    (fun m s _ hs => ?_) fun _ _ s hs => hclosed _ s hs
  have hkept := hmessage m _ s hs
  exact hkept

theorem threadStep_clientAt (h : threadStep env setup st i taken = some st') :
    (st'.connections i).clientAt = (st.connections i).clientAt := by
  have hset : ∀ s : Connection, s.clientAt = (st.connections i).clientAt →
      ((st.set i s).connections i).clientAt = (st.connections i).clientAt := fun s hs => by
    rw [State.connections_set_self, hs]
  have hsend : ∀ (m : Message) (onSent : Connection → Connection),
      (∀ s, (onSent s).clientAt = s.clientAt) →
      ((st.send i taken m onSent).connections i).clientAt = (st.connections i).clientAt :=
    fun m onSent hs =>
      State.send_self (P := fun s => s.clientAt = (st.connections i).clientAt) rfl (hs _)
  rw [threadStep] at h
  cases hat : (st.connections i).threadAt <;> simp only [hat] at h
  case recvRa =>
    refine receive_clientAt h (fun m s s' hs => ?_) fun _ _ hs => nomatch hs
    split at hs <;> cases hs <;> rfl
  case recvGone =>
    exact receive_clientAt h (fun m s s' hs => by cases hs; rfl) fun s s' hs => by cases hs; rfl
  case recvKeyInit =>
    refine receive_clientAt h (fun m s s' hs => ?_) fun _ _ hs => nomatch hs
    split at hs <;> cases hs
    rfl
  case recvLogin =>
    refine receive_clientAt h (fun m s s' hs => ?_) fun _ _ hs => nomatch hs
    obtain ⟨opt, -, rfl⟩ := Option.map_eq_some_iff.mp hs
    rfl
  case recvClosed =>
    exact receive_clientAt h (fun _ _ _ hs => nomatch hs) fun s s' hs => by cases hs; rfl
  case sendReply | sendNonExist | sendResponse =>
    rw [← Option.some.inj h]
    exact hsend _ _ fun _ => rfl
  case initClient =>
    rw [← Option.some.inj h]
    refine State.goOn_self (P := fun s => s.clientAt = (st.connections i).clientAt) rfl
      fun s hs => ?_
    obtain ⟨k, -, rfl⟩ := Option.map_eq_some_iff.mp hs
    rfl
  case lockSet | findLock | lockClient | keyExchange | checkFileStatus | join =>
    split at h <;> cases h <;> first
      | exact hset _ rfl
      | rfl
  case newClientVar =>
    rw [← Option.some.inj h]
    split <;> exact hset _ rfl
  case unlockSet | processOff | destroyClient | unlockClient =>
    rw [← Option.some.inj h]
    exact hset _ rfl
  case returned => cases h

/-- The session's other thread touches neither it nor `recvBuf`. -/
theorem workerStep_same (h : workerStep env setup st i taken = some st') :
    (st'.connections i).threadAt = (st.connections i).threadAt ∧
      (st'.connections i).clientAt = (st.connections i).clientAt ∧
      (st'.connections i).recvBuf = (st.connections i).recvBuf := by
  have hreceive : ∀ {size : Nat} {onMessage : Message → Connection → Option Connection}
      {onClosed : Connection → Option Connection}, st.receive i size onMessage onClosed = some st' →
      (∀ m s s', onMessage m s = some s' → s'.threadAt = s.threadAt ∧ s'.clientAt = s.clientAt ∧
        s'.recvBuf = s.recvBuf) →
      (∀ s s', onClosed s = some s' → s'.threadAt = s.threadAt ∧ s'.clientAt = s.clientAt ∧
        s'.recvBuf = s.recvBuf) →
      (st'.connections i).threadAt = (st.connections i).threadAt ∧
        (st'.connections i).clientAt = (st.connections i).clientAt ∧
        (st'.connections i).recvBuf = (st.connections i).recvBuf := by
    intro size onMessage onClosed hstep hmessage hclosed
    refine State.receive_self (P := fun s => s.threadAt = (st.connections i).threadAt ∧
      s.clientAt = (st.connections i).clientAt ∧ s.recvBuf = (st.connections i).recvBuf) hstep
      ⟨rfl, rfl, rfl⟩ (fun m s _ hs => ?_) fun _ _ s hs => hclosed _ s hs
    have hkept := hmessage m _ s hs
    exact hkept
  rw [workerStep] at h
  split at h
  case h_1 | h_7 => cases h
  case h_2 =>
    refine hreceive h (fun m s s' hs => ?_) fun s s' hs => by cases hs; exact ⟨rfl, rfl, rfl⟩
    split at hs <;> cases hs <;> exact ⟨rfl, rfl, rfl⟩
  case h_3 =>
    refine hreceive h (fun m s s' hs => ?_) fun _ _ hs => nomatch hs
    split at hs
    · obtain ⟨e, -, hs⟩ := Option.bind_eq_some_iff.mp hs
      obtain ⟨restored, -, rfl⟩ := Option.map_eq_some_iff.mp hs
      exact ⟨rfl, rfl, rfl⟩
    · cases hs
  case h_4 =>
    rw [← Option.some.inj h]
    exact State.send_self (P := fun s => s.threadAt = (st.connections i).threadAt ∧
      s.clientAt = (st.connections i).clientAt ∧ s.recvBuf = (st.connections i).recvBuf)
      ⟨rfl, rfl, rfl⟩ ⟨rfl, rfl, rfl⟩
  case h_5 =>
    rw [← Option.some.inj h, State.connections_set_self]
    exact ⟨rfl, rfl, rfl⟩
  case h_6 =>
    refine hreceive h (fun m s s' hs => ?_) fun s s' hs => ?_ <;> cases hs <;> exact ⟨rfl, rfl, rfl⟩

/-! `recvBuf` keeps its size. -/

def Connection.Sized (s : Connection) : Prop := s.recvBuf.data.length = SESSION_KEY_BUFFER_SIZE

theorem Connection.Sized.writeAt {s : Connection} (h : s.Sized) {xs : Bytes}
    (hxs : xs.length ≤ SESSION_KEY_BUFFER_SIZE) :
    (writeAt s.recvBuf.data 0 xs).length = SESSION_KEY_BUFFER_SIZE := by
  rw [length_writeAt xs (Nat.zero_le _), h, Nat.zero_add]
  exact Nat.max_eq_left hxs

theorem threadStep_sized (h : threadStep env setup st i taken = some st')
    (hsized : (st.connections i).Sized) : (st'.connections i).Sized := by
  have hset : ∀ s : Connection, s.recvBuf = (st.connections i).recvBuf →
      ((st.set i s).connections i).Sized := fun s hs => by
    rw [State.connections_set_self, Connection.Sized, hs]
    exact hsized
  have hsend : ∀ (m : Message) (onSent : Connection → Connection),
      (∀ s, (onSent s).recvBuf = s.recvBuf) →
      ((st.send i taken m onSent).connections i).Sized := fun m onSent hs =>
    State.send_self (P := Connection.Sized) hsized (by rw [Connection.Sized, hs]; exact hsized)
  have hreceive : ∀ {onMessage : Message → Connection → Option Connection}
      {onClosed : Connection → Option Connection},
      st.receive i SESSION_KEY_BUFFER_SIZE onMessage onClosed = some st' →
      (∀ m s s', onMessage m s = some s' → s'.recvBuf = (s.store m).recvBuf) →
      (∀ s s', onClosed s = some s' → s'.recvBuf = s.recvBuf) → (st'.connections i).Sized := by
    intro onMessage onClosed hstep hmessage hclosed
    refine State.receive_cases (P := fun st' => (st'.connections i).Sized) hstep
      (fun m _ hfits => State.goOn_self hsized fun s hs => ?_) fun _ _ =>
        State.goOn_self hsized fun s hs => ?_
    · rw [Connection.Sized, hmessage m _ s hs]
      exact hsized.writeAt hfits
    · rw [Connection.Sized, hclosed _ s hs]
      exact hsized
  rw [threadStep] at h
  cases hat : (st.connections i).threadAt <;> simp only [hat] at h
  case recvRa =>
    refine hreceive h (fun m s s' hs => ?_) fun _ _ hs => nomatch hs
    split at hs <;> cases hs <;> rfl
  case recvGone =>
    exact hreceive h (fun m s s' hs => by cases hs; rfl) fun s s' hs => by cases hs; rfl
  case recvKeyInit =>
    refine hreceive h (fun m s s' hs => ?_) fun _ _ hs => nomatch hs
    split at hs <;> cases hs
    rfl
  case recvLogin =>
    refine hreceive h (fun m s s' hs => ?_) fun _ _ hs => nomatch hs
    obtain ⟨opt, -, rfl⟩ := Option.map_eq_some_iff.mp hs
    rfl
  case recvClosed =>
    exact hreceive h (fun _ _ _ hs => nomatch hs) fun s s' hs => by cases hs; rfl
  case sendReply | sendNonExist | sendResponse =>
    rw [← Option.some.inj h]
    exact hsend _ _ fun _ => rfl
  case keyExchange =>
    split at h <;> cases h
    · rw [State.connections_set_self]
      exact hsized.writeAt (kx.publicKey (setup.privateKey i)).2.le
    · exact hsized
  case initClient =>
    rw [← Option.some.inj h]
    refine State.goOn_self hsized fun s hs => ?_
    obtain ⟨k, -, rfl⟩ := Option.map_eq_some_iff.mp hs
    exact hsized
  case lockSet | findLock | lockClient | checkFileStatus | join =>
    split at h <;> cases h <;> exact hset _ rfl
  case newClientVar =>
    rw [← Option.some.inj h]
    split <;> exact hset _ rfl
  case unlockSet | processOff | destroyClient | unlockClient =>
    rw [← Option.some.inj h]
    exact hset _ rfl
  case returned => cases h

theorem step_sized {a : Act ι} (hstep : step env setup st a = some st')
    (h : ∀ k, (st.connections k).Sized) (k : ι) : (st'.connections k).Sized := by
  by_cases hk : k = a.connection
  · have hset : ∀ s : Connection, s.recvBuf = (st.connections k).recvBuf →
        ((st.set k s).connections k).Sized := fun s hs => by
      rw [State.connections_set_self, Connection.Sized, hs]
      exact h k
    have hcases := (step_cases hstep).2
    cases a with
    | thread i taken =>
        obtain rfl : k = i := hk
        exact threadStep_sized hcases (h k)
    | worker i taken =>
        obtain rfl : k = i := hk
        rw [Connection.Sized, (workerStep_same hcases).2.2]
        exact h k
    | client i =>
        obtain rfl : k = i := hk
        obtain ⟨c, s, -, hs, rfl⟩ := hcases
        exact hset s (Connection.clientStep_same hs).recvBuf
    | kill i =>
        obtain rfl : k = i := hk
        obtain ⟨-, -, rfl⟩ := hcases
        exact hset _ rfl
    | foreignSend i m =>
        obtain rfl : k = i := hk
        obtain ⟨-, rfl⟩ := hcases
        exact hset _ rfl
    | foreignClose i =>
        obtain rfl : k = i := hk
        obtain ⟨-, rfl⟩ := hcases
        exact hset _ rfl
  · rw [step_others hstep hk]
    exact h k

theorem exec_sized {as : List (Act ι)} (h : ∀ k, (st.connections k).Sized)
    (hexec : exec (step env setup) st as = some st') : ∀ k, (st'.connections k).Sized :=
  exec_inv' (I := fun st : State ι => ∀ k, (st.connections k).Sized)
    (fun _ _ _ h hstep k => step_sized hstep h k) as h hexec

end Others

/-! ## The invariant -/

/-- The locks are where the session holds them, and a key that it will read
from the index is its own. -/
structure Holds (g : Shared ι) (i : ι) (s : Connection) : Prop where
  set : g.clientLockSetLock = some i ↔ s.threadAt.holdsSet = true
  client : ∀ c, g.clientLockIndex.lookup c = some (some i) ↔ s.threadAt.holdsClient = some c
  found : ∀ c, s.threadAt = .lockClient c → c ∈ g.clientLockIndex
  key : ∀ c, s.threadAt.keyed = some c → g.clientSessionKeyIndex.lookup c = s.derived
  enclave : ∀ e, s.sgxClient = some e →
    s.derived = some e.sessionKey ∧ s.threadAt.serves = some e.clientID

/-- All sessions hold what they should. -/
def Locked (st : State ι) : Prop := ∀ i, Holds st.toShared i (st.connections i)

/-- A session goes on without touching a lock or a key. -/
structure Quiet (s s' : Connection) : Prop where
  set : s'.threadAt.holdsSet = s.threadAt.holdsSet
  client : s'.threadAt.holdsClient = s.threadAt.holdsClient
  found : ∀ c, s'.threadAt = .lockClient c → s.threadAt = .lockClient c
  key : ∀ c, s'.threadAt.keyed = some c → s.threadAt.keyed = some c
  derived : s'.derived = s.derived
  enclave : ∀ e, s'.sgxClient = some e →
    s.sgxClient = some e ∧ s'.threadAt.serves = s.threadAt.serves

theorem Quiet.of_eq {s s' : Connection} (hat : s'.threadAt = s.threadAt)
    (hderived : s'.derived = s.derived) (hsgx : s'.sgxClient = s.sgxClient) : Quiet s s' where
  set := by rw [hat]
  client := by rw [hat]
  found := fun c hc => by rw [← hat, hc]
  key := fun c hc => by rw [← hat, hc]
  derived := hderived
  enclave := fun e he => ⟨by rw [← hsgx, he], by rw [hat]⟩

/-- A session goes from one place to another that is alike. -/
theorem Quiet.move {s s' : Connection} {t t' : ThreadAt} (hat : s.threadAt = t)
    (hat' : s'.threadAt = t') (hset : t'.holdsSet = t.holdsSet)
    (hclient : t'.holdsClient = t.holdsClient) (hfound : ∀ c, t' ≠ .lockClient c)
    (hkey : ∀ c, t'.keyed = some c → t.keyed = some c) (hserves : t'.serves = t.serves)
    (hderived : s'.derived = s.derived) (hsgx : s'.sgxClient = s.sgxClient) : Quiet s s' where
  set := by rw [hat, hat', hset]
  client := by rw [hat, hat', hclient]
  found := fun c hc => absurd (hat'.symm.trans hc) (hfound c)
  key := fun c hc => by rw [hat]; exact hkey c (by rw [← hat', hc])
  derived := hderived
  enclave := fun e he => ⟨by rw [← hsgx, he], by rw [hat, hat', hserves]⟩

theorem Holds.quiet {g : Shared ι} {i : ι} {s s' : Connection} (h : Holds g i s) (hs : Quiet s s') :
    Holds g i s' where
  set := by rw [hs.set]; exact h.set
  client := fun c => by rw [hs.client]; exact h.client c
  found := fun c hc => h.found c (hs.found c hc)
  key := fun c hc => by rw [hs.derived]; exact h.key c (hs.key c hc)
  enclave := fun e he => by
    obtain ⟨hbefore, hserves⟩ := hs.enclave e he
    rw [hs.derived, hserves]
    exact h.enclave e hbefore

/-- Without an `EnclaveClient` nothing is said about it. -/
theorem Holds.sgxClient_none {g : Shared ι} {i : ι} {s : Connection} (h : Holds g i s)
    (hat : s.threadAt.serves = none) : s.sgxClient = none := by
  cases hsgx : s.sgxClient with
  | none => rfl
  | some e =>
      have hserves := (h.enclave e hsgx).2
      rw [hat] at hserves
      cases hserves

namespace Locked

variable {st : State ι} {i : ι}

/-- At most one session is inside for a client ID. -/
theorem inside_unique (h : Locked st) {j : ι} {c : UInt32}
    (hi : (st.connections i).threadAt.holdsClient = some c)
    (hj : (st.connections j).threadAt.holdsClient = some c) : i = j := by
  have hli := ((h i).client c).mpr hi
  rw [((h j).client c).mpr hj] at hli
  exact (Option.some.inj (Option.some.inj hli)).symm

theorem accepted {kx : KeyExchange} {setup : Setup ι kx} (recipes : List Fp) :
    Locked (start setup recipes) := fun i =>
  { set := iff_of_false (fun h => by cases h) fun h => by cases h
    client := fun c => iff_of_false (fun h => by cases h) fun h => by cases h
    found := fun c h => by cases h
    key := fun c h => by cases h
    enclave := fun e h => by cases h }

theorem exit (h : Locked st) : Locked { st with down := true } := fun i =>
  ⟨(h i).1, (h i).2, (h i).3, (h i).4, (h i).5⟩

theorem recipes (h : Locked st) (recipes : List Fp) :
    Locked { st with recipes := recipes } := fun i =>
  ⟨(h i).1, (h i).2, (h i).3, (h i).4, (h i).5⟩

variable [DecidableEq ι]

/-- One session takes a step that the others do not notice. -/
theorem update (h : Locked st) {g : Shared ι} {s : Connection} (hself : Holds g i s)
    (hothers : ∀ j, j ≠ i → Holds st.toShared j (st.connections j) → Holds g j (st.connections j)) :
    Locked { st.set i s with toShared := g } :=
  (Function.forall_update_iff st.connections fun j s => Holds g j s).mpr
    ⟨hself, fun j hj => hothers j hj (h j)⟩

theorem quiet (h : Locked st) {s : Connection} (hs : Quiet (st.connections i) s) :
    Locked (st.set i s) :=
  h.update ((h i).quiet hs) fun _ _ hj => hj

/-! ## The steps at the locks and at the index of the keys -/

variable {c : UInt32}

theorem lockSet (h : Locked st) (hat : (st.connections i).threadAt = .lockSet c)
    (hfree : st.clientLockSetLock = none) :
    Locked { st.set i ((st.connections i).goTo (.findLock c)) with clientLockSetLock := some i } := by
  have hs := h i
  have hnone := hs.sgxClient_none (by rw [hat]; rfl)
  have hclient := hs.client
  rw [hat] at hclient
  refine h.update
    { set := iff_of_true rfl rfl
      client := hclient
      found := fun c' hc => nomatch hc
      key := fun c' hc => nomatch hc
      enclave := fun e he => nomatch hnone.symm.trans he }
    fun j hj hother => { hother with set := ?_ }
  have hset := hother.set
  rw [hfree] at hset
  exact iff_of_false (fun heq => hj (Option.some.inj heq).symm) fun heq => by cases hset.mpr heq

theorem findLock (h : Locked st) (hat : (st.connections i).threadAt = .findLock c) :
    Locked (if c ∈ st.clientLockIndex then st.set i ((st.connections i).goTo (.lockClient c))
      else { st.set i ((st.connections i).goTo (.lockClient c)) with
        clientLockIndex := st.clientLockIndex.insert c none }) := by
  have hs := h i
  have hnosgx := hs.sgxClient_none (by rw [hat]; rfl)
  have hset := hs.set
  have hclient := hs.client
  rw [hat] at hset hclient
  split
  · rename_i hmem
    exact h.update
      { set := hset
        client := hclient
        found := fun c' hc => ThreadAt.lockClient.inj hc ▸ hmem
        key := fun c' hc => nomatch hc
        enclave := fun e he => nomatch hnosgx.symm.trans he }
      fun _ _ hother => hother
  · rename_i hmem
    have hnone := AList.lookup_eq_none.mpr hmem
    -- the new lock is free, and there was none
    have hlocks : ∀ (j : ι) c', (st.clientLockIndex.insert c none).lookup c' = some (some j) ↔
        st.clientLockIndex.lookup c' = some (some j) := by
      intro j c'
      rw [lookup_eq_if]
      split
      · rename_i heq
        rw [heq, hnone]
        exact iff_of_false (fun h => by cases h) fun h => by cases h
      · exact Iff.rfl
    exact h.update
      { set := hset
        client := fun c' => (hlocks i c').trans (hclient c')
        found := fun c' hc => (AList.mem_insert _).mpr (Or.inl (ThreadAt.lockClient.inj hc).symm)
        key := fun c' hc => nomatch hc
        enclave := fun e he => nomatch hnosgx.symm.trans he }
      fun j _ hother => { hother with
        client := fun c' => (hlocks j c').trans (hother.client c')
        found := fun c' hc => (AList.mem_insert _).mpr (Or.inr (hother.found c' hc)) }

theorem lockClient (h : Locked st) (hat : (st.connections i).threadAt = .lockClient c)
    (hfree : st.clientLockIndex.lookup c = some none) :
    Locked { st.set i ((st.connections i).goTo (.unlockSet c)) with
      clientLockIndex := st.clientLockIndex.insert c (some i) } := by
  have hs := h i
  have hnone := hs.sgxClient_none (by rw [hat]; rfl)
  have hset := hs.set
  have hclient := hs.client
  rw [hat] at hset hclient
  refine h.update
    { set := hset
      client := fun c' => ?_
      found := fun c' hc => nomatch hc
      key := fun c' hc => nomatch hc
      enclave := fun e he => nomatch hnone.symm.trans he }
    fun j hj hother => { hother with
      client := fun c' => ?_
      found := fun c' hc => (AList.mem_insert _).mpr (Or.inr (hother.found c' hc)) }
  · rw [lookup_eq_if]
    split
    · rename_i heq
      exact iff_of_true rfl (congrArg some heq.symm)
    · rename_i hne
      exact (hclient c').trans
        (iff_of_false (fun h => by cases h) fun h => hne (Option.some.inj h).symm)
  · have hbefore := hother.client c'
    rw [lookup_eq_if]
    split
    · rename_i heq
      rw [heq, hfree] at hbefore
      refine iff_of_false (fun h => hj (Option.some.inj (Option.some.inj h)).symm) fun h => ?_
      rw [heq] at h
      cases hbefore.mpr h
    · exact hbefore

theorem unlockSet (h : Locked st) (hat : (st.connections i).threadAt = .unlockSet c) :
    Locked { st.set i ((st.connections i).goTo (.keyExchange c)) with clientLockSetLock := none } := by
  have hs := h i
  have hnone := hs.sgxClient_none (by rw [hat]; rfl)
  have hset := hs.set
  have hclient := hs.client
  rw [hat] at hset hclient
  have hmine := hset.mpr rfl
  refine h.update
    { set := iff_of_false (fun h => nomatch h) fun h => nomatch h
      client := hclient
      found := fun c' hc => nomatch hc
      key := fun c' hc => nomatch hc
      enclave := fun e he => nomatch hnone.symm.trans he }
    fun j hj hother => { hother with set := ?_ }
  have hset := hother.set
  rw [hmine] at hset
  exact iff_of_false (fun h => by cases h) fun h => hj (Option.some.inj (hset.mpr h)).symm

/-- The key goes into the index, where no other session inside has its own. -/
theorem keyExchange (h : Locked st) (hat : (st.connections i).threadAt = .keyExchange c) (k : Key)
    (buf : Message) :
    Locked { st.set i { st.connections i with
        threadAt := .sendReply c, recvBuf := buf, derived := some k } with
      clientSessionKeyIndex := st.clientSessionKeyIndex.insert c k } := by
  have hs := h i
  have hnone := hs.sgxClient_none (by rw [hat]; rfl)
  have hset := hs.set
  have hclient := hs.client
  have hinside : (st.connections i).threadAt.holdsClient = some c := by rw [hat]; rfl
  rw [hat] at hset hclient
  refine h.update
    { set := hset
      client := hclient
      found := fun c' hc => nomatch hc
      key := fun c' hc => Option.some.inj hc ▸ AList.lookup_insert _
      enclave := fun e he => nomatch hnone.symm.trans he }
    fun j hj hother => { hother with key := fun c' hc => ?_ }
  rw [← hother.key c' hc]
  refine AList.lookup_insert_ne fun heq => hj ?_
  exact h.inside_unique (heq ▸ ThreadAt.holdsClient_of_keyed hc) hinside

/-- The session reads the key that it has exchanged. -/
theorem initClient (h : Locked st) {opt : Opt}
    (hat : (st.connections i).threadAt = .initClient c opt) {k : Key}
    (hk : st.clientSessionKeyIndex.lookup c = some k) (masterKey : Key) (at' : WorkerAt) :
    Locked (st.set i { st.connections i with
      threadAt := .sendResponse c opt
      sgxClient := some ⟨c, k, masterKey⟩
      workerAt := at' }) := by
  have hs := h i
  have hset := hs.set
  have hclient := hs.client
  have hkey := hs.key c (by rw [hat]; rfl)
  rw [hat] at hset hclient
  refine h.update
    { set := hset
      client := hclient
      found := fun c' hc => nomatch hc
      key := fun c' hc => nomatch hc
      enclave := fun e he => ?_ }
    fun _ _ hother => hother
  rw [← Option.some.inj he, ← hk]
  exact ⟨hkey.symm, rfl⟩

theorem unlockClient (h : Locked st) (hat : (st.connections i).threadAt = .unlockClient c) :
    Locked { st.set i ((st.connections i).goTo .returned) with
      clientLockIndex := st.clientLockIndex.insert c none } := by
  have hs := h i
  have hnone := hs.sgxClient_none (by rw [hat]; rfl)
  have hset := hs.set
  have hclient := hs.client
  rw [hat] at hset hclient
  have hmine := (hclient c).mpr rfl
  refine h.update
    { set := hset
      client := fun c' => iff_of_false (fun h => ?_) fun h => nomatch h
      found := fun c' hc => nomatch hc
      key := fun c' hc => nomatch hc
      enclave := fun e he => nomatch hnone.symm.trans he }
    fun j hj hother => { hother with
      client := fun c' => ?_
      found := fun c' hc => (AList.mem_insert _).mpr (Or.inr (hother.found c' hc)) }
  · rw [lookup_eq_if] at h
    split at h
    · cases h
    · rename_i hne
      exact hne (Option.some.inj ((hclient c').mp h)).symm
  · have hbefore := hother.client c'
    rw [lookup_eq_if]
    split
    · rename_i heq
      rw [heq, hmine] at hbefore
      refine iff_of_false (fun h => by cases h) fun h => ?_
      rw [heq] at h
      exact hj (Option.some.inj (Option.some.inj (hbefore.mpr h))).symm
    · exact hbefore

/-! ## Every step -/

theorem goOn (h : Locked st) {k : Option Connection}
    (hk : ∀ s, k = some s → Quiet (st.connections i) s) : Locked (st.goOn i k) :=
  State.goOn_cases h.exit fun s hs => h.quiet (hk s hs)

theorem receive (h : Locked st) {size : Nat} {onMessage : Message → Connection → Option Connection}
    {onClosed : Connection → Option Connection} {st' : State ι}
    (hstep : st.receive i size onMessage onClosed = some st')
    (hmessage : ∀ m s, onMessage m
      { st.connections i with toServer := (st.connections i).toServer.advance } = some s →
        Quiet (st.connections i) s)
    (hclosed : ∀ s, onClosed (st.connections i) = some s → Quiet (st.connections i) s) :
    Locked st' :=
  State.receive_cases hstep (fun m _ _ => h.goOn (hmessage m)) fun _ _ => h.goOn hclosed

theorem send (h : Locked st) {taken : Bool} {m : Message} {onSent : Connection → Connection}
    (hsent : Quiet (st.connections i)
      (onSent { st.connections i with toClient := (st.connections i).toClient.send m })) :
    Locked (st.send i taken m onSent) :=
  State.send_cases (fun _ => h.exit) (h.quiet hsent)

variable {env : Env} {kx : KeyExchange} {setup : Setup ι kx}

theorem threadStep (h : Locked st) {taken : Bool} {st' : State ι}
    (hstep : threadStep env setup st i taken = some st') : Locked st' := by
  rw [Protocol.threadStep] at hstep
  cases hat : (st.connections i).threadAt <;> simp only [hat] at hstep
  case recvRa =>
    refine h.receive hstep (fun m s hs => ?_) fun _ hs => nomatch hs
    split at hs
    · obtain rfl := Option.some.inj hs
      exact .move hat rfl rfl rfl (fun _ => nofun) (fun _ hc => hc) rfl rfl rfl
    · obtain rfl := Option.some.inj hs
      exact .move hat rfl rfl rfl (fun _ => nofun) (fun _ hc => hc) rfl rfl rfl
    · cases hs
  case recvGone =>
    refine h.receive hstep (fun m s hs => ?_) fun s hs => ?_ <;> obtain rfl := Option.some.inj hs <;>
      exact .move hat rfl rfl rfl (fun _ => nofun) (fun _ hc => hc) rfl rfl rfl
  case recvKeyInit =>
    refine h.receive hstep (fun m s hs => ?_) fun _ hs => nomatch hs
    split at hs
    · obtain rfl := Option.some.inj hs
      exact .move hat rfl rfl rfl (fun _ => nofun) (fun _ hc => hc) rfl rfl rfl
    · cases hs
  case lockSet c =>
    split at hstep
    · rename_i hfree
      obtain rfl := Option.some.inj hstep
      exact h.lockSet hat (Option.isNone_iff_eq_none.mp hfree)
    · cases hstep
  case findLock c =>
    have hlocked := h.findLock hat
    split at hstep <;> rename_i hmem <;> obtain rfl := Option.some.inj hstep
    · rwa [if_pos hmem] at hlocked
    · rwa [if_neg hmem] at hlocked
  case lockClient c =>
    split at hstep
    · rename_i hfree
      obtain rfl := Option.some.inj hstep
      exact h.lockClient hat hfree
    · cases hstep
  case unlockSet c =>
    obtain rfl := Option.some.inj hstep
    exact h.unlockSet hat
  case keyExchange c =>
    split at hstep <;> obtain rfl := Option.some.inj hstep
    · exact h.keyExchange hat _ _
    · exact h.exit
  case sendReply c =>
    obtain rfl := Option.some.inj hstep
    exact h.send (.move hat rfl rfl rfl (fun _ => nofun) (fun _ hc => hc) rfl rfl rfl)
  case recvLogin c =>
    refine h.receive hstep (fun m s hs => ?_) fun _ hs => nomatch hs
    obtain ⟨opt, -, rfl⟩ := Option.map_eq_some_iff.mp hs
    exact .move hat rfl rfl rfl (fun _ => nofun) (fun _ hc => hc) rfl rfl rfl
  case checkFileStatus c opt =>
    split at hstep <;> obtain rfl := Option.some.inj hstep
    · exact h.quiet (.move hat rfl rfl rfl (fun _ => nofun) (fun _ hc => nomatch hc) rfl rfl rfl)
    · exact h.quiet (.move hat rfl rfl rfl (fun _ => nofun) (fun _ hc => hc) rfl rfl rfl)
  case sendNonExist c =>
    obtain rfl := Option.some.inj hstep
    exact h.send (.move hat rfl rfl rfl (fun _ => nofun) (fun _ hc => hc) rfl rfl rfl)
  case recvClosed c =>
    refine h.receive hstep (fun _ _ hs => nomatch hs) fun s hs => ?_
    obtain rfl := Option.some.inj hs
    exact .move hat rfl rfl rfl (fun _ => nofun) (fun _ hc => hc) rfl rfl rfl
  case newClientVar c opt =>
    obtain rfl := Option.some.inj hstep
    have hquiet := h.quiet (i := i) (s := (st.connections i).goTo (.initClient c opt))
      (.move hat rfl rfl rfl (fun _ => nofun) (fun _ hc => hc) rfl rfl rfl)
    split
    · exact hquiet
    · exact hquiet.recipes _
  case initClient c opt =>
    obtain rfl := Option.some.inj hstep
    refine State.goOn_cases h.exit fun s hs => ?_
    obtain ⟨k, hk, rfl⟩ := Option.map_eq_some_iff.mp hs
    exact h.initClient hat hk _ _
  case sendResponse c opt =>
    obtain rfl := Option.some.inj hstep
    exact h.send (.move hat rfl rfl rfl (fun _ => nofun) (fun _ hc => hc) rfl rfl rfl)
  case join c opt =>
    split at hstep
    · obtain rfl := Option.some.inj hstep
      refine h.quiet ?_
      split
      · exact .move hat rfl rfl rfl (fun _ => nofun) (fun _ hc => hc) rfl rfl rfl
      · exact .move hat rfl rfl rfl (fun _ => nofun) (fun _ hc => hc) rfl rfl rfl
    · cases hstep
  case processOff c =>
    obtain rfl := Option.some.inj hstep
    exact h.quiet (.move hat rfl rfl rfl (fun _ => nofun) (fun _ hc => hc) rfl rfl rfl)
  case destroyClient c =>
    obtain rfl := Option.some.inj hstep
    exact h.quiet
      { set := by rw [hat]; rfl
        client := by rw [hat]; rfl
        found := fun _ hc => nomatch hc
        key := fun _ hc => nomatch hc
        derived := rfl
        enclave := fun _ he => nomatch he }
  case unlockClient c =>
    obtain rfl := Option.some.inj hstep
    exact h.unlockClient hat
  case returned => cases hstep

theorem workerStep (h : Locked st) {taken : Bool} {st' : State ι}
    (hstep : workerStep env setup st i taken = some st') : Locked st' := by
  rw [Protocol.workerStep] at hstep
  cases hat : (st.connections i).workerAt <;> simp only [hat] at hstep
  case idle => cases hstep
  case recvChunks =>
    refine h.receive hstep (fun m s hs => ?_) fun s hs => ?_
    · split at hs
      · obtain rfl := Option.some.inj hs
        exact .of_eq rfl rfl rfl
      · obtain rfl := Option.some.inj hs
        exact .of_eq rfl rfl rfl
      · cases hs
    · obtain rfl := Option.some.inj hs
      exact .of_eq rfl rfl rfl
  case recvReady =>
    refine h.receive hstep (fun m s hs => ?_) fun _ hs => nomatch hs
    split at hs
    · obtain ⟨e, -, hs⟩ := Option.bind_eq_some_iff.mp hs
      obtain ⟨restored, -, rfl⟩ := Option.map_eq_some_iff.mp hs
      exact .of_eq rfl rfl rfl
    · cases hs
  case sendBatches rest =>
    cases rest with
    | nil =>
        obtain rfl := Option.some.inj hstep
        exact h.quiet (.of_eq rfl rfl rfl)
    | cons m rest =>
        obtain rfl := Option.some.inj hstep
        exact h.send (.of_eq rfl rfl rfl)
  case recvClosed =>
    refine h.receive hstep (fun m s hs => ?_) fun s hs => ?_ <;> obtain rfl := Option.some.inj hs <;>
      exact .of_eq rfl rfl rfl
  case exited => cases hstep

/-- Every step keeps the locks and the keys. -/
theorem step (h : Locked st) {a : Act ι} {st' : State ι}
    (hstep : step env setup st a = some st') : Locked st' := by
  have hcases := (step_cases hstep).2
  cases a with
  | thread i taken => exact h.threadStep hcases
  | worker i taken => exact h.workerStep hcases
  | client i =>
      obtain ⟨c, s, -, hs, rfl⟩ := hcases
      have hsame := Connection.clientStep_same hs
      exact h.quiet (.of_eq hsame.threadAt hsame.derived hsame.sgxClient)
  | kill i =>
      obtain ⟨-, -, rfl⟩ := hcases
      exact h.quiet (.of_eq rfl rfl rfl)
  | foreignSend i m =>
      obtain ⟨-, rfl⟩ := hcases
      exact h.quiet (.of_eq rfl rfl rfl)
  | foreignClose i =>
      obtain ⟨-, rfl⟩ := hcases
      exact h.quiet (.of_eq rfl rfl rfl)

theorem exec (h : Locked st) {as : List (Act ι)} {st' : State ι}
    (hexec : exec (Protocol.step env setup) st as = some st') : Locked st' :=
  exec_inv' (fun _ _ _ h hstep => h.step hstep) as h hexec

end Locked

end ShieldReduce.Protocol

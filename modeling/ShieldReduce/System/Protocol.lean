import ShieldReduce.System.DataSender
import ShieldReduce.Lib.Steps
import Mathlib.Logic.Function.Basic

/-!
# Connections

The server runs `ServerOptThread::Run` in a thread of its own for every
connection. A connection starts with the attestation request of the
client; then come the key exchange, the login, and the data of the
operation, which a second thread of the session takes or sends. The
session key passes from the exchange to the login through an index that
all sessions share, under the client ID that the client states; a lock for
each client ID, taken before the exchange and given back at the end, is to
keep sessions of one client apart. These locks are in an index under a
lock of its own.

Every message that the server does not expect, and every connection that
ends before its login, is `exit(EXIT_FAILURE)`: of the server, not of the
session.

The other side of a connection is a `ShieldReduceClient` or any other
program, which sends what it likes, but whole messages only: one that goes
away inside a message leaves `ReceiveData` spinning, which is not modelled.
`ReceiveData` has no bound on what it writes to its buffer either, and
nothing is said of a session from where a message is longer than that
(`State.receive`). What the enclave sends for a restore is given. As
`MULTI_CLIENT` is 1, the index of the session keys is under its lock, and
`DataWriter` is not a thread here.
-/

namespace ShieldReduce.Protocol

open ByteLib UMapLib

def SESSION_KEY_BUFFER_SIZE : Nat := 65

/-! ## Messages -/

/-- `PROTCOL_CODE_SET`, without the messages of an attestation. -/
inductive MessageType where
  | clientUploadChunk
  | clientUploadRecipeEnd
  | clientLoginUpload
  | clientLoginDownload
  | clientRestoreReady
  | serverRestoreChunk
  | serverRestoreFinal
  | serverLoginResponse
  | serverFileNonExist
  | sgxRaNeed
  | sgxRaNotNeed
  | sgxRaNotSupport
  | sessionKeyInit
  | sessionKeyReply
  | clientLoginOffline
deriving DecidableEq

/-- A `NetworkHead_t` and what is behind it. -/
structure Message where
  messageType : MessageType
  clientID : UInt32
  dataSize : UInt32
  currentItemNum : UInt32
  data : Bytes

/-- One direction of a connection: what was sent, and how many messages of it were read. -/
structure Channel where
  sent : List Message
  read : Nat

namespace Channel

def empty : Channel := ⟨[], 0⟩

def send (c : Channel) (m : Message) : Channel := { c with sent := c.sent ++ [m] }

def next (c : Channel) : Option Message := c.sent[c.read]?

def advance (c : Channel) : Channel := { c with read := c.read + 1 }

end Channel

/-- The key agreement of OpenSSL on prime256v1. -/
structure KeyExchange where
  PrivateKey : Type
  /-- `ExtractPublicKey`, encoded. -/
  publicKey : PrivateKey → BytesN SESSION_KEY_BUFFER_SIZE
  /-- `DerivedShared`; `none` is a failure, as for a string that encodes no point. -/
  derivedShared : BytesN SESSION_KEY_BUFFER_SIZE → PrivateKey → Option Key

/-- `OPT_TYPE`. -/
inductive Opt where
  | upload
  | download
  | offline
deriving DecidableEq

/-! ## A connection -/

/-- Where `Run` of a session is. -/
inductive ThreadAt where
  | recvRa
  /-- Remote attestation is not supported: the client will go. -/
  | recvGone
  | recvKeyInit
  /-- It waits for `clientLockSetLock_`. -/
  | lockSet (clientID : UInt32)
  | findLock (clientID : UInt32)
  /-- It holds `clientLockSetLock_` and waits for the lock of its client. -/
  | lockClient (clientID : UInt32)
  | unlockSet (clientID : UInt32)
  | keyExchange (clientID : UInt32)
  | sendReply (clientID : UInt32)
  | recvLogin (clientID : UInt32)
  | checkFileStatus (clientID : UInt32) (opt : Opt)
  | sendNonExist (clientID : UInt32)
  | recvClosed (clientID : UInt32)
  | newClientVar (clientID : UInt32) (opt : Opt)
  | initClient (clientID : UInt32) (opt : Opt)
  | sendResponse (clientID : UInt32) (opt : Opt)
  /-- It waits for the session's other thread. -/
  | join (clientID : UInt32) (opt : Opt)
  | processOff (clientID : UInt32)
  | destroyClient (clientID : UInt32)
  | unlockClient (clientID : UInt32)
  | returned

/-- Where the session's other thread is: `DataReceiver::Run` or `EnclaveRecvDecoder::Run`. -/
inductive WorkerAt where
  | idle
  | recvChunks
  | recvReady
  | sendBatches (rest : List Message)
  | recvClosed
  | exited

/-- `EnclaveClient`. -/
structure EnclaveClient where
  clientID : UInt32
  sessionKey : Key
  masterKey : Key

/-- Where a `ShieldReduceClient` is. -/
inductive ClientAt where
  | sendRa
  | sendKeyInit
  | recvReply
  | sendLogin (sessionKey : Key)
  | recvResponse (sessionKey : Key)
  | sendData (rest : List Message)
  | sendReady (sessionKey : Key) (fileRecipeHead : BytesN 16)
  | recvData (sessionKey : Key) (fileRecipeHead : BytesN 16)
  | finish
  | exited (success : Bool)
  | killed
  /-- It is another program. -/
  | foreign

/-- A connection with the two sides of it. -/
structure Connection where
  threadAt : ThreadAt
  /-- The last message, over what the buffer held before. -/
  recvBuf : Message
  /-- The key that `Ecall_Session_Key_Exchange` derived for this session. -/
  derived : Option Key
  sgxClient : Option EnclaveClient
  workerAt : WorkerAt
  /-- What `ProcessOneBatch` and `ProcessTailBatch` were called for. -/
  processed : List Message
  clientAt : ClientAt
  /-- The chunks that a client has restored. -/
  outputMQ : List Bytes
  toServer : Channel
  toClient : Channel
  /-- The client's side is closed. -/
  closed : Bool

/-- What the sessions of the server share. -/
structure Shared (ι : Type) where
  /-- Who holds it. -/
  clientLockSetLock : Option ι
  /-- The locks, with who holds each. -/
  clientLockIndex : UMap UInt32 (Option ι)
  clientSessionKeyIndex : UMap UInt32 Key
  /-- The recipe files that exist. -/
  recipes : List Fp
  /-- `exit(EXIT_FAILURE)`. -/
  down : Bool

/-- The server with its connections. -/
structure State (ι : Type) extends Shared ι where
  connections : ι → Connection

/-! ## The client -/

/-- What a `ShieldReduceClient` is started for. -/
inductive Task where
  | upload (offline : Bool) (chunks : List Chunk) (recipeHead : BytesN 16)
  | download
  | ra

/-- A `ShieldReduceClient` with its configuration. -/
structure Client (kx : KeyExchange) where
  clientID : UInt32
  inputFile : Bytes
  localSecret : Bytes
  privateKey : kx.PrivateKey
  task : Task

namespace Client

variable (env : Env) {kx : KeyExchange} (c : Client kx)

/-- `inputFile + to_string(clientID)`. -/
def fullName : Bytes :=
  c.inputFile ++ (Nat.toDigits 10 c.clientID.toNat).map fun d => UInt8.ofNat d.toNat

def fileNameHash : Fp := env.generateHash c.fullName

def masterKey : Key := env.generateHash c.localSecret

/-- `raDecision`. What it leaves unset is 0. -/
def raDecision : Message where
  messageType := match c.task with
    | .ra => .sgxRaNotSupport
    | _ => .sgxRaNotNeed
  clientID := c.clientID
  dataSize := 0
  currentItemNum := 0
  data := []

/-- The request of `GeneratingSecret`. -/
def keyInit : Message where
  messageType := .sessionKeyInit
  clientID := c.clientID
  dataSize := UInt32.ofNat SESSION_KEY_BUFFER_SIZE
  currentItemNum := 0
  data := (kx.publicKey c.privateKey).1

/-- What `GeneratingSecret` takes from the reply, which goes to the buffer of the request. -/
def secret (reply : Message) : Option Key :=
  kx.derivedShared (BytesN.ofBytes SESSION_KEY_BUFFER_SIZE
    ((writeAt (kx.publicKey c.privateKey).1 0 reply.data).take reply.dataSize.toNat)) c.privateKey

/-- The request of `UploadLogin` and of `RestoreLogin`. -/
def login (sessionKey : Key) : Message where
  messageType := match c.task with
    | .upload false _ _ => .clientLoginUpload
    | .upload true _ _ => .clientLoginOffline
    | _ => .clientLoginDownload
  clientID := c.clientID
  dataSize := UInt32.ofNat (CHUNK_HASH_SIZE + CHUNK_HASH_SIZE)
  currentItemNum := 0
  data := (c.fileNameHash env).1 ++ env.sessionKeyEnc sessionKey (c.masterKey env).1

/-- A message of `DataSender`. -/
def ofSender (m : NetworkMessage) : Message where
  messageType := match m.messageType with
    | .clientUploadChunk => .clientUploadChunk
    | .clientUploadRecipeEnd => .clientUploadRecipeEnd
  clientID := c.clientID
  dataSize := m.dataSize
  currentItemNum := m.currentItemNum
  data := m.data

/-- What `DataSender::Run` sends. -/
def uploadMessages (sessionKey : Key) : List Message :=
  match c.task with
  | .upload _ chunks recipeHead =>
      (DataSender.run env sessionKey (chunks.map Subtype.val) recipeHead).sent.map c.ofSender
  | _ => []

/-- `CLIENT_RESTORE_READY`. -/
def ready : Message where
  messageType := .clientRestoreReady
  clientID := c.clientID
  dataSize := 0
  currentItemNum := 0
  data := []

/-- The chunks that `DataRetriever::ProcessChunkBatch` pushes. -/
def chunksOf (sessionKey : Key) (m : Message) : List Bytes :=
  (parseChunks (env.sessionKeyDec sessionKey m.data) m.currentItemNum.toNat 0).map Prod.snd

end Client

/-- The chunks that the server finds in the messages of an upload. -/
def receivedChunks (env : Env) (sessionKey : Key) (ms : List Message) : List Bytes :=
  ms.flatMap fun m => match m.messageType with
    | .clientUploadChunk => Client.chunksOf env sessionKey m
    | _ => []

namespace Connection

def exitClient (s : Connection) (success : Bool) : Connection :=
  { s with clientAt := .exited success, closed := true }

def clientSend (s : Connection) (m : Message) (at' : ClientAt) : Connection :=
  { s with toServer := s.toServer.send m, clientAt := at' }

/-- `ReceiveData` of the client, and what follows. -/
def clientReceive (s : Connection) (onMessage : Message → Connection → Connection) :
    Option Connection :=
  s.toClient.next.map fun m => onMessage m { s with toClient := s.toClient.advance }

/-- The next step of the client, while it has one. -/
def clientStep (env : Env) {kx : KeyExchange} (c : Client kx) (s : Connection) : Option Connection :=
  match s.clientAt with
  | .sendRa => some (s.clientSend c.raDecision (match c.task with
      | .ra => .finish
      | _ => .sendKeyInit))
  | .sendKeyInit => some (s.clientSend c.keyInit .recvReply)
  | .recvReply => s.clientReceive fun m s =>
      if m.messageType = .sessionKeyReply then match c.secret m with
        | some k => { s with clientAt := .sendLogin k }
        | none => s.exitClient false
      else s.exitClient false
  | .sendLogin k => some (s.clientSend (c.login env k) (.recvResponse k))
  | .recvResponse k => s.clientReceive fun m s =>
      if m.messageType = .serverLoginResponse then match c.task with
        | .download => { s with clientAt := .sendReady k (BytesN.ofBytes 16 m.data) }
        | _ => { s with clientAt := .sendData (c.uploadMessages env k) }
      else s.exitClient false
  | .sendData (m :: rest) => some (s.clientSend m (.sendData rest))
  | .sendData [] => some { s with clientAt := .finish }
  | .sendReady k head => some (s.clientSend c.ready (.recvData k head))
  | .recvData k head => s.clientReceive fun m s =>
      let s' := { s with outputMQ := s.outputMQ ++ Client.chunksOf env k m }
      match m.messageType with
      | .serverRestoreChunk => s'
      | .serverRestoreFinal =>
          -- the connection is closed before the chunks are counted
          s'.exitClient (decide (s'.outputMQ.length % 2 ^ 64 = ofLe64 (head.1.drop 8)))
      | _ => s.exitClient false
  | .finish => some (s.exitClient true)
  | .exited _ => none
  | .killed => none
  | .foreign => none

end Connection

/-! ## The server -/

/-- What a run of the server is given, connection by connection. -/
structure Setup (ι : Type) (kx : KeyExchange) where
  /-- The client, unless it is another program. -/
  client : ι → Option (Client kx)
  /-- The key pair that the enclave draws. -/
  privateKey : ι → kx.PrivateKey
  /-- The memory of `recvBuf`. -/
  recvBuf : ι → Message
  /-- The head of the recipe that a restore reads. -/
  recipeHead : ι → BytesN 16
  /-- The chunks that the enclave restores, message by message, and those of the final message. -/
  restored : ι → Option (List (List Chunk) × List Chunk)

namespace State

variable {ι : Type} [DecidableEq ι]

def set (st : State ι) (i : ι) (s : Connection) : State ι :=
  { st with connections := Function.update st.connections i s }

/-- The session goes on, or the server exits. -/
def goOn (st : State ι) (i : ι) : Option Connection → State ι
  | some s => st.set i s
  | none => { st with down := true }

/-- `ReceiveData` of the server to a buffer of `size` bytes behind the header, and what follows on
a message and on the end of the connection. A message that does not fit ends the modelled part
of the session. -/
def receive (st : State ι) (i : ι) (size : Nat)
    (onMessage : Message → Connection → Option Connection)
    (onClosed : Connection → Option Connection) : Option (State ι) :=
  let s := st.connections i
  match s.toServer.next with
  | some m =>
      if m.data.length ≤ size then
        some (st.goOn i (onMessage m { s with toServer := s.toServer.advance }))
      else none
  | none => if s.closed then some (st.goOn i (onClosed s)) else none

/-- `SendData` of the server, and what follows. To a client that has gone, the data may
still be `taken`. -/
def send (st : State ι) (i : ι) (taken : Bool) (m : Message) (onSent : Connection → Connection) :
    State ι :=
  let s := st.connections i
  st.goOn i (if s.closed ∧ taken = false then none
    else some (onSent { s with toClient := s.toClient.send m }))

end State

namespace Connection

def goTo (s : Connection) (at' : ThreadAt) : Connection := { s with threadAt := at' }

/-- A message in `recvBuf`. -/
def store (s : Connection) (m : Message) : Connection :=
  { s with recvBuf := { m with data := writeAt s.recvBuf.data 0 m.data } }

def fileName (s : Connection) : Fp := BytesN.ofBytes CHUNK_HASH_SIZE s.recvBuf.data

end Connection

def optOf : MessageType → Option Opt
  | .clientLoginUpload => some .upload
  | .clientLoginDownload => some .download
  | .clientLoginOffline => some .offline
  | _ => none

/-- The messages of `ProcRecipeBatch` and `ProcRecipeTailBatch`. -/
def restoreMessages (env : Env) (clientID : UInt32) (sessionKey : Key)
    (restored : List (List Chunk) × List Chunk) : List Message :=
  let message := fun (messageType : MessageType) (cs : List Chunk) =>
    let data := frameChunks (cs.map Subtype.val)
    (⟨messageType, clientID, UInt32.ofNat data.length, UInt32.ofNat cs.length,
      env.sessionKeyEnc sessionKey data⟩ : Message)
  restored.1.map (message .serverRestoreChunk) ++ [message .serverRestoreFinal restored.2]

/-- What `_recvChunkBuf` and `_sendChunkBuf` of a `ClientVar` hold behind the header. -/
def recvChunkBufSize (env : Env) : Nat := env.sendChunkBatchSize * sizeofChunk

section Server

variable {ι : Type} [DecidableEq ι] (env : Env) {kx : KeyExchange} (setup : Setup ι kx)

/-- `ServerOptThread::Run` of connection `i`. -/
def threadStep (st : State ι) (i : ι) (taken : Bool) : Option (State ι) :=
  let s := st.connections i
  match s.threadAt with
  | .recvRa => st.receive i SESSION_KEY_BUFFER_SIZE (fun m s =>
      let s := s.store m
      match m.messageType with
      | .sgxRaNotSupport => some (s.goTo .recvGone)
      | .sgxRaNotNeed => some (s.goTo .recvKeyInit)
      | _ => none) fun _ => none
  | .recvGone => st.receive i SESSION_KEY_BUFFER_SIZE (fun m s => some ((s.store m).goTo .returned))
      fun s => some (s.goTo .returned)
  | .recvKeyInit => st.receive i SESSION_KEY_BUFFER_SIZE (fun m s =>
      if m.messageType = .sessionKeyInit then some ((s.store m).goTo (.lockSet m.clientID))
      else none) fun _ => none
  | .lockSet clientID =>
      if st.clientLockSetLock.isNone then
        some { st.set i (s.goTo (.findLock clientID)) with clientLockSetLock := some i }
      else none
  | .findLock clientID =>
      let st' := st.set i (s.goTo (.lockClient clientID))
      if clientID ∈ st.clientLockIndex then some st'
      else some { st' with clientLockIndex := st.clientLockIndex.insert clientID none }
  | .lockClient clientID =>
      match st.clientLockIndex.lookup clientID with
      | some none => some { st.set i (s.goTo (.unlockSet clientID)) with
          clientLockIndex := st.clientLockIndex.insert clientID (some i) }
      | _ => none
  | .unlockSet clientID =>
      some { st.set i (s.goTo (.keyExchange clientID)) with clientLockSetLock := none }
  | .keyExchange clientID =>
      -- the index is changed under `sessionKeyLck_`
      match kx.derivedShared (BytesN.ofBytes SESSION_KEY_BUFFER_SIZE s.recvBuf.data)
          (setup.privateKey i) with
      | some sessionKey =>
          let publicKeyBuffer := writeAt s.recvBuf.data 0 (kx.publicKey (setup.privateKey i)).1
          some { st.set i { s with
              threadAt := .sendReply clientID
              recvBuf := { s.recvBuf with data := publicKeyBuffer }
              derived := some sessionKey } with
            clientSessionKeyIndex := st.clientSessionKeyIndex.insert clientID sessionKey }
      | none => some { st with down := true }
  | .sendReply clientID =>
      some (st.send i taken { s.recvBuf with
          messageType := .sessionKeyReply
          data := s.recvBuf.data.take SESSION_KEY_BUFFER_SIZE }
        fun s => s.goTo (.recvLogin clientID))
  | .recvLogin clientID => st.receive i SESSION_KEY_BUFFER_SIZE (fun m s =>
      (optOf m.messageType).map fun opt => (s.store m).goTo (.checkFileStatus clientID opt))
      fun _ => none
  | .checkFileStatus clientID opt =>
      if opt = .download ∧ st.recipes.contains s.fileName = false then
        some (st.set i (s.goTo (.sendNonExist clientID)))
      else some (st.set i (s.goTo (.newClientVar clientID opt)))
  | .sendNonExist clientID =>
      some (st.send i taken { s.recvBuf with messageType := .serverFileNonExist, data := [] }
        fun s => s.goTo (.recvClosed clientID))
  | .recvClosed clientID => st.receive i SESSION_KEY_BUFFER_SIZE (fun _ _ => none)
      fun s => some (s.goTo (.unlockClient clientID))
  | .newClientVar clientID opt =>
      let st' := st.set i (s.goTo (.initClient clientID opt))
      some (if opt = .download then st' else { st' with recipes := s.fileName :: st.recipes })
  | .initClient clientID opt =>
      some (st.goOn i ((st.clientSessionKeyIndex.lookup clientID).map fun sessionKey => { s with
        threadAt := .sendResponse clientID opt
        sgxClient := some
          { clientID := clientID
            sessionKey := sessionKey
            masterKey := BytesN.ofBytes CHUNK_HASH_SIZE (env.sessionKeyDec sessionKey
              ((s.recvBuf.data.drop CHUNK_HASH_SIZE).take CHUNK_HASH_SIZE)) }
        workerAt := if opt = .download then .recvReady else .recvChunks }))
  | .sendResponse clientID opt =>
      some (st.send i taken { s.recvBuf with
          messageType := .serverLoginResponse
          data := if opt = .download then (setup.recipeHead i).1 else [] }
        fun s => s.goTo (.join clientID opt))
  | .join clientID opt =>
      match s.workerAt with
      | .exited => some (st.set i (s.goTo
          (if opt = .offline then .processOff clientID else .destroyClient clientID)))
      | _ => none
  | .processOff clientID => some (st.set i (s.goTo (.destroyClient clientID)))
  | .destroyClient clientID =>
      some (st.set i { s with threadAt := .unlockClient clientID, sgxClient := none })
  | .unlockClient clientID =>
      some { st.set i (s.goTo .returned) with
        clientLockIndex := st.clientLockIndex.insert clientID none }
  | .returned => none

/-- `DataReceiver::Run` or `EnclaveRecvDecoder::Run` of connection `i`. -/
def workerStep (st : State ι) (i : ι) (taken : Bool) : Option (State ι) :=
  let s := st.connections i
  match s.workerAt with
  | .idle => none
  | .recvChunks => st.receive i (recvChunkBufSize env) (fun m s => match m.messageType with
      | .clientUploadChunk => some { s with processed := s.processed ++ [m] }
      | .clientUploadRecipeEnd => some { s with processed := s.processed ++ [m] }
      | _ => none) fun s => some { s with workerAt := .exited }
  | .recvReady => st.receive i (recvChunkBufSize env) (fun m s =>
      if m.messageType = .clientRestoreReady then
        -- a restore that fails is an exit, too
        (s.sgxClient.bind fun sgxClient => (setup.restored i).map fun restored => { s with
          workerAt := .sendBatches
            (restoreMessages env sgxClient.clientID sgxClient.sessionKey restored) })
      else none) fun _ => none
  | .sendBatches (m :: rest) =>
      some (st.send i taken m fun s => { s with workerAt := .sendBatches rest })
  | .sendBatches [] => some (st.set i { s with workerAt := .recvClosed })
  | .recvClosed => st.receive i (recvChunkBufSize env) (fun _ s => some { s with workerAt := .exited })
      fun s => some { s with workerAt := .exited }
  | .exited => none

inductive Act (ι : Type) where
  | thread (i : ι) (taken : Bool)
  | worker (i : ι) (taken : Bool)
  | client (i : ι)
  /-- A `ShieldReduceClient` is killed, between two messages. -/
  | kill (i : ι)
  | foreignSend (i : ι) (m : Message)
  | foreignClose (i : ι)

/-- One step of any of the threads and programs. -/
def step (st : State ι) (a : Act ι) : Option (State ι) :=
  if st.down then none
  else match a with
    | .thread i taken => threadStep env setup st i taken
    | .worker i taken => workerStep env setup st i taken
    | .client i => (setup.client i).bind fun c =>
        ((st.connections i).clientStep env c).map (st.set i)
    | .kill i =>
        let s := st.connections i
        if (setup.client i).isSome ∧ s.closed = false then
          some (st.set i { s with clientAt := .killed, closed := true })
        else none
    | .foreignSend i m =>
        let s := st.connections i
        if (setup.client i).isNone ∧ s.closed = false then
          some (st.set i { s with toServer := s.toServer.send m })
        else none
    | .foreignClose i =>
        let s := st.connections i
        if (setup.client i).isNone ∧ s.closed = false then some (st.set i { s with closed := true })
        else none

/-- A connection that was accepted. -/
def accepted (i : ι) : Connection where
  threadAt := .recvRa
  recvBuf := { setup.recvBuf i with
    data := (BytesN.ofBytes SESSION_KEY_BUFFER_SIZE (setup.recvBuf i).data).1 }
  derived := none
  sgxClient := none
  workerAt := .idle
  processed := []
  clientAt := if (setup.client i).isSome then .sendRa else .foreign
  outputMQ := []
  toServer := .empty
  toClient := .empty
  closed := false

/-- The server after its start, with the recipe files that are there. -/
def start (recipes : List Fp) : State ι where
  connections := accepted setup
  clientLockSetLock := none
  clientLockIndex := ∅
  clientSessionKeyIndex := ∅
  recipes := recipes
  down := false

end Server

end ShieldReduce.Protocol

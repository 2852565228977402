import ShieldReduce.System.Run
import ShieldReduce.Lib.Steps

/-!
# Clients at the same time

With `MULTI_CLIENT` the sessions of several clients run in threads of
their own over one server. A batch then is a sequence of steps: what the
lock of the sketch covers, what that of the heap covers,
`Ocall_QueryOutIndex`, the queries for bases, the rounds of the store
loop, the log or the delta index, the heap again, and
`Ocall_UpdateOutIndex`. Other clients take steps of theirs in between.
The steps are the pieces that `processOneBatch` is made of, and if no
other client interferes they do what it does (`exec_batchSteps`).

`SaveToFile` is called by the client's own thread here, not through a
queue. It and `CreateUUID` are part of the round of the store loop that
uses them. The IDs of the containers are whatever `rand` draws: any
`ContainerNames`.
-/

namespace ShieldReduce

open ByteLib UMapLib StepLib

/-- How far the thread of a client is with a batch. -/
inductive BatchAt where
  | idle
  | counted (recvBuffer : Bytes) (entries : List InQueryEntry)
  | checked (recvBuffer : Bytes) (entries : List InQueryEntry)
  | queried (recvBuffer : Bytes) (entries : List InQueryEntry)
  /-- In the store loop: what is done, and what is still to do. -/
  | storing (recvBuffer : Bytes) (localFlag : Bool) (entries : List InQueryEntry)
      (batchBasemap processBuffer : List (Fp × Fp)) (todo : List InQueryEntry)
  | logged (entries : List InQueryEntry)
  | heaped (entries : List InQueryEntry)

inductive BatchStep where
  | receive (b : Batch)
  | check
  | query
  | load
  | store
  | log
  | heap
  | update

variable [names : ContainerNames]

namespace EcallFreqIndex

variable (env : Env)

/-- Under `sketchLck_`. -/
def countBatch (s : Session) (b : Batch) : Session × BatchAt :=
  let data := env.sessionKeyEnc s.client.sessionKey (frameChunks (b.chunks.map Subtype.val))
  let recvBuffer := env.sessionKeyDec s.client.sessionKey data
  let chunks := parseChunks recvBuffer b.chunks.length 0
  let (sketch, freqs) := countChunks env s.server.cmSketch (chunks.map Prod.snd)
  ({ s with server := { s.server with cmSketch := sketch } },
    .counted recvBuffer ((chunks.zip freqs).mapIdx fun i c => readEntry env (b.stale i) c.2 c.1))

/-- Under `topKIndexLck_`. -/
def checkBatch (s : Server) (entries : List InQueryEntry) : List InQueryEntry :=
  let heap := s.insideDedupIndex
  let minFreq := if heap.size = env.topThreshold then heap.topEntry else 0
  (entries.foldl (checkEntry env heap minFreq) ⟨[], ∅⟩).entries

/-- `Ocall_QueryOutIndex`. -/
def queryOutIndexBatch (s : Server) (entries : List InQueryEntry) : List InQueryEntry :=
  entries.map (mapOut (queryOutIndex s.db))

/-- The super-features, and `Ocall_QueryOutBasechunk`. -/
def loadBatch (s : Server) (recvBuffer : Bytes) (entries : List InQueryEntry) : List InQueryEntry :=
  entries.map fun e =>
    entryLoad env (mapOut (queryOutBasechunk s.db) (outEntrySFGet env recvBuffer e))

/-- The next step of a client's batch; `none` if it is not the next one. -/
def batchStep : Session × BatchAt → BatchStep → Option (Session × BatchAt)
  | (s, .idle), .receive b => some (countBatch env s b)
  | (s, .counted recvBuffer entries), .check =>
      some (s, .checked recvBuffer (checkBatch env s.server entries))
  | (s, .checked recvBuffer entries), .query =>
      some (s, .queried recvBuffer (queryOutIndexBatch s.server entries))
  | (s, .queried recvBuffer entries), .load =>
      let entries := loadBatch env s.server recvBuffer entries
      some (s, .storing recvBuffer (localChecker env entries) [] [] [] entries)
  | (s, .storing recvBuffer localFlag entries basemap process (e :: todo)), .store =>
      let st := storeEntry env recvBuffer localFlag ⟨s, entries, basemap, process⟩ e
      some (st.session,
        .storing recvBuffer localFlag st.entries st.batchBasemap st.processBuffer todo)
  | (s, .storing _ localFlag entries basemap process []), .log =>
      let db := if localFlag then basemap.foldl (fun db p => db.localInsert p.1 p.2) s.server.db
        else process.foldl (fun db p => db.insertDeltaIndex p.1 p.2) s.server.db
      some ({ s with server := { s.server with db := db } }, .logged entries)
  | (s, .logged entries), .heap =>
      let heap := entries.foldl (updateHeap env) s.server.insideDedupIndex
      some ({ s with server := { s.server with insideDedupIndex := heap } }, .heaped entries)
  | (s, .heaped entries), .update =>
      let db := (entries.filterMap InQueryEntry.out).foldl updateOutIndex s.server.db
      some ({ s with server := { s.server with db := db } }, .idle)
  | _, _ => none

/-- The steps of one batch. -/
def batchSteps (b : Batch) : List BatchStep :=
  [.receive b, .check, .query, .load] ++
    List.replicate b.chunks.length .store ++ [.log, .heap, .update]

end EcallFreqIndex

/-- The server with its clients, and how far each of them is. -/
structure Clients where
  server : Server
  clients : Nat → Option Client
  batch : Nat → BatchAt
  /-- The chunks that were received, for statements about them. -/
  hashes : List Fp

inductive ClientAction where
  | login (i : Nat) (l : Login)
  | batch (i : Nat) (x : BatchStep)
  /-- The end of the recipe, and of the session. -/
  | finish (i : Nat) (head : BytesN 16)

/-- The chunks that come in with a step. -/
def BatchStep.hashes (env : Env) : BatchStep → List Fp
  | .receive b => b.chunks.map fun c => env.generateHash c.1
  | _ => []

namespace Clients

variable (env : Env)

def boot (m : Residue) : Clients where
  server := .boot env m
  clients := fun _ => none
  batch := fun _ => .idle
  hashes := []

/-- A session after the end of its recipe. -/
def endSession (s : Session) (head : BytesN 16) : Server :=
  let s := (s.receive env (.recipeEnd head)).close
  { s.server with
    recipes := s.server.recipes.insert s.client.recipePath s.client.recipe }.updateOnlineInfo

def step (t : Clients) : ClientAction → Option Clients
  | .login i l =>
      match t.clients i with
      | none =>
          let s := Session.start t.server l
          some { t with server := s.server, clients := Function.update t.clients i (some s.client) }
      | some _ => none
  | .batch i x =>
      match t.clients i with
      | some c => (EcallFreqIndex.batchStep env (⟨t.server, c⟩, t.batch i) x).map fun p =>
          { server := p.1.server
            clients := Function.update t.clients i (some p.1.client)
            batch := Function.update t.batch i p.2
            hashes := t.hashes ++ x.hashes env }
      | none => none
  | .finish i head =>
      match t.clients i, t.batch i with
      | some c, .idle => some { t with
          server := endSession env ⟨t.server, c⟩ head
          clients := Function.update t.clients i none }
      | _, _ => none

end Clients

end ShieldReduce

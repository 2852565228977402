import ShieldReduce.Client.Chunker
import ShieldReduce.System.DataSender
import ShieldReduce.System.DataWriter

/-!
# Message queues

One thread pushes items into a `MessageQueue` and then sets `done_`; the
other pops them and does something with each. `DataWriter::Run`,
`DataSender::Run` and `RestoreWriter::Run` are the same loop around
different things done: it reads `done_` and, if that is set, asks whether
the queue is empty; if it is, this round is the last; then it pops, whatever
it has found.

The queue of `readerwriterqueue.h` is a list here, with its operations as
single steps. Whether it has room for another item is left to the schedule.
-/

namespace ShieldReduce

open ByteLib

/-- `MessageQueue<T>`. -/
structure MessageQueue (α : Type) where
  lockFreeQueue : List α
  done : Bool

namespace MessageQueue

variable {α : Type}

def empty : MessageQueue α := ⟨[], false⟩

/-- A `try_enqueue` that finds room. -/
def enqueue (mq : MessageQueue α) (data : α) : MessageQueue α :=
  { mq with lockFreeQueue := mq.lockFreeQueue ++ [data] }

def pop (mq : MessageQueue α) : Option (α × MessageQueue α) :=
  match mq.lockFreeQueue with
  | [] => none
  | data :: rest => some (data, { mq with lockFreeQueue := rest })

/-- `size_approx() == 0`. -/
def isEmpty (mq : MessageQueue α) : Bool := decide (mq.lockFreeQueue.length = 0)

end MessageQueue

/-! ## Two threads -/

/-- Where a consumer's `Run` is. -/
inductive RunAt (α : Type) where
  /-- It reads `done_`. -/
  | readDone
  /-- `done_` was set, and it asks `IsEmpty`. -/
  | isEmpty
  | pop
  | popped (data : α)
  | exited
  /-- `exit(EXIT_FAILURE)`, at this item. -/
  | failed (data : α)

/-- The item that was popped and is not processed. -/
def RunAt.inHand {α : Type} : RunAt α → List α
  | .popped data => [data]
  | .failed data => [data]
  | _ => []

/-- A producer, a consumer and the queue between them. -/
structure QueueThreads (α σ : Type) where
  /-- What the producer has still to push. -/
  toPush : List α
  mq : MessageQueue α
  runAt : RunAt α
  jobDoneFlag : Bool
  /-- What the consumer works on. -/
  work : σ
  /-- The items that were processed, the first one first. -/
  processed : List α

inductive QueueStep where
  /-- One `try_enqueue` of `Push`, which finds room or is repeated. -/
  | tryEnqueue (room : Bool)
  /-- The producer sets `done_`. -/
  | setDone
  /-- The next step of the consumer. -/
  | run
  /-- The consumer cannot write a file or send a message. -/
  | ioError

namespace QueueThreads

variable {α σ : Type} (process : σ → α → Option σ)

/-- Before the first step of either thread. -/
def start (items : List α) (work : σ) : QueueThreads α σ where
  toPush := items
  mq := .empty
  runAt := .readDone
  jobDoneFlag := false
  work := work
  processed := []

/-- The end of the loop's body. -/
def endRound (t : QueueThreads α σ) : QueueThreads α σ :=
  { t with runAt := if t.jobDoneFlag then .exited else .readDone }

/-- `process` does with an item what the body of the loop does; `none` is
`exit(EXIT_FAILURE)`. -/
def runStep (t : QueueThreads α σ) : Option (QueueThreads α σ) :=
  match t.runAt with
  | .readDone => some { t with runAt := if t.mq.done then .isEmpty else .pop }
  | .isEmpty => some { t with
      jobDoneFlag := if t.mq.isEmpty then true else t.jobDoneFlag
      runAt := .pop }
  | .pop =>
      match t.mq.pop with
      | some (data, mq) => some { t with mq := mq, runAt := .popped data }
      | none => some t.endRound
  | .popped data =>
      match process t.work data with
      | some work => some { t with work := work, processed := t.processed ++ [data] }.endRound
      | none => some { t with runAt := .failed data }
  | .exited => none
  | .failed _ => none

/-- One step of either thread; `none` where it cannot be taken. -/
def step (t : QueueThreads α σ) : QueueStep → Option (QueueThreads α σ)
  | .tryEnqueue room =>
      match t.toPush with
      | [] => none
      | data :: rest =>
          if room then some { t with toPush := rest, mq := t.mq.enqueue data } else some t
  | .setDone =>
      if t.toPush.isEmpty && !t.mq.done then some { t with mq := { t.mq with done := true } }
      else none
  | .run => t.runStep process
  | .ioError =>
      match t.runAt with
      | .popped data => some { t with runAt := .failed data }
      | _ => none

end QueueThreads

/-! ## The consumers -/

/-- `DataWriter`, and the files it writes. -/
structure DataWriter where
  files : View
  containerNum : UInt64

namespace DataWriter

def saveToFile (w : DataWriter) (newContainer : Container) : DataWriter :=
  { w with files := w.files.put newContainer.deltaFlag newContainer.containerID newContainer.body }

/-- What `Run` does with a container. -/
def runOne (w : DataWriter) (tmpContainer : Container) : Option DataWriter :=
  let w := w.saveToFile tmpContainer
  some { w with containerNum := w.containerNum + 1 }

end DataWriter

/-- `RestoreWriter`, and the file it writes. -/
structure RestoreWriter where
  outputFile : Bytes
  totalRecvNum : UInt64
  totalWrittenSize : UInt64

/-- What `Run` does with a chunk. -/
def RestoreWriter.runOne (w : RestoreWriter) (newData : ChunkData) : Option RestoreWriter :=
  some {
    outputFile := w.outputFile ++ newData.1
    totalRecvNum := w.totalRecvNum + 1
    totalWrittenSize := w.totalWrittenSize + UInt64.ofNat newData.1.length }

def FileRecipeHead.bytes (h : FileRecipeHead) : BytesN 16 :=
  BytesN.ofBytes 16 (le64 h.fileSize ++ le64 h.totalChunkNum)

/-- `Data_t` with any `dataType`. -/
inductive SenderItem where
  | data (d : Data)
  | wrong (dataType : Int)

/-- The sender, and whether it has closed its connection. -/
structure SenderThread where
  sender : DataSender
  finished : Bool

/-- What `Run` does with an item. -/
def DataSender.runOne (env : Env) (sessionKey : Key) (s : SenderThread) :
    SenderItem → Option SenderThread
  | .data (.dataChunk chunk) =>
      some { s with sender := s.sender.processChunk env sessionKey chunk.1 }
  | .data (.recipeEnd recipeHead) =>
      some { sender := s.sender.processRecipeEnd env sessionKey recipeHead.bytes, finished := true }
  | .wrong _ => none

end ShieldReduce

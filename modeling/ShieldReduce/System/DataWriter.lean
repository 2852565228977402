import ShieldReduce.System.State
import ShieldReduce.Lib.Steps

/-!
# The data writer's thread

Containers go to the data writer through a message queue, and
`DataWriter::SaveToFile` writes them in its own thread: the file is
opened and truncated, `fwrite` hands the body to the stream, which passes
some of it on and keeps the rest in its buffer until the file is closed.
Meanwhile the enclave's thread reads containers of bases in
`Ocall_getRefContainer`, which opens the file, asks for its size and
reads that much into the buffer that all such calls share.

Of the enclave's thread only these calls are modelled, in any order that
it might make them in; `body` is whatever it has filled a container with.
-/

namespace ShieldReduce

open ByteLib

/-- `Container_t` in the message queue; `deltaFlag` is its directory. -/
structure Container where
  deltaFlag : Dir
  containerID : ContainerName
  body : Bytes

/-- Where `DataWriter::Run` is. -/
inductive WriterAt where
  | waiting
  | popped (c : Container)
  /-- The file is open, and empty. -/
  | opened (c : Container)
  /-- In `fwrite`; the first `n` bytes are in the file. -/
  | part (c : Container) (n : Nat)
  /-- Behind `fwrite`; what follows the first `n` bytes is in the stream's buffer. -/
  | written (c : Container) (n : Nat)

/-- The container whose file is open. -/
def WriterAt.writing : WriterAt → List Container
  | .opened c => [c]
  | .part c _ => [c]
  | .written c _ => [c]
  | _ => []

/-- Where `Ocall_getRefContainer` is, if it is called. -/
inductive RefAt where
  | idle
  | opened (name : ContainerName)
  | sized (name : ContainerName) (readSize : Nat)

/-- The two threads, and what they share. -/
structure Threads where
  files : View
  inputMQ : List Container
  writer : WriterAt
  ref : RefAt
  tmpOcallcontainer : Bytes
  /-- The containers that the client fills. -/
  cur : Dir → ContainerName
  created : Nat
  /-- The body of each container that was handed over, for statements about it. -/
  bodies : View
  /-- The calls that set `deltaFlag` to `DELTA`, with the buffer they answered. -/
  answers : List (ContainerName × Bytes)

def View.put (v : View) (d : Dir) (name : ContainerName) (bytes : Bytes) : View :=
  fun d' n => if d' = d ∧ n = name then some bytes else v d' n

inductive Action where
  /-- The next session begins, once the writer of the last one is done. -/
  | login
  /-- `Ocall_WriteContainer` and `Ocall_WriteDeltaContainer`. -/
  | writeContainer (d : Dir) (body : Bytes)
  /-- `containerIn.open`, `tellg` and `read` of `Ocall_getRefContainer`. -/
  | refOpen (name : ContainerName)
  | refSize
  | refRead
  /-- `Pop` of `DataWriter::Run`, then `SaveToFile`. -/
  | pop
  | fopen
  /-- `n` more bytes get to the file, in `fwrite` and at its end. -/
  | fwritePart (n : Nat)
  | fwriteRest (n : Nat)
  | fclose

namespace Threads

/-- The first session of a server. -/
def boot (m : Residue) : Threads where
  files := fun _ _ => none
  inputMQ := []
  writer := .waiting
  ref := .idle
  tmpOcallcontainer := m.tmpOcallcontainer
  cur := fun
    | .base => containerName 0
    | .delta => containerName 1
  created := 2
  bodies := fun _ _ => none
  answers := []

def save (t : Threads) (c : Container) (bytes : Bytes) (writer : WriterAt) : Threads :=
  { t with files := t.files.put c.deltaFlag c.containerID bytes, writer := writer }

/-- One step of either thread; `none` where it cannot be taken. -/
def step (t : Threads) : Action → Option Threads
  | .login =>
      match t.ref, t.writer, t.inputMQ with
      | .idle, .waiting, [] => some { t with
          cur := fun
            | .base => containerName t.created
            | .delta => containerName (t.created + 1)
          created := t.created + 2 }
      | _, _, _ => none
  | .writeContainer d body =>
      match t.ref with
      | .idle => some { t with
          inputMQ := t.inputMQ ++ [⟨d, t.cur d, body⟩]
          cur := fun d' => if d' = d then containerName t.created else t.cur d'
          created := t.created + 1
          bodies := t.bodies.put d (t.cur d) body }
      | _ => none
  | .refOpen name =>
      match t.ref with
      | .idle => match t.files .base name with
          | some _ => some { t with ref := .opened name }
          -- `deltaFlag` is `NO_DELTA`
          | none => some t
      | _ => none
  | .refSize =>
      match t.ref with
      | .opened name => some { t with ref := .sized name ((t.files .base name).getD []).length }
      | _ => none
  | .refRead =>
      match t.ref with
      | .sized name readSize =>
          let file := (t.files .base name).getD []
          -- otherwise the server exits
          if readSize ≤ file.length then
            let buffer := writeAt t.tmpOcallcontainer 0 (file.take readSize)
            some { t with
              ref := .idle
              tmpOcallcontainer := buffer
              answers := t.answers ++ [(name, buffer)] }
          else none
      | _ => none
  | .pop =>
      match t.writer, t.inputMQ with
      | .waiting, c :: rest => some { t with writer := .popped c, inputMQ := rest }
      | _, _ => none
  | .fopen =>
      match t.writer with
      | .popped c => some (t.save c [] (.opened c))
      | _ => none
  | .fwritePart n =>
      match t.writer with
      | .opened c => some (t.save c (c.body.take n) (.part c n))
      | .part c m => some (t.save c (c.body.take (m + n)) (.part c (m + n)))
      | _ => none
  | .fwriteRest n =>
      match t.writer with
      | .part c m => some (t.save c (c.body.take (m + n)) (.written c (m + n)))
      | _ => none
  | .fclose =>
      match t.writer with
      | .written c _ => some (t.save c c.body .waiting)
      | _ => none

/-- The data writer has opened the file of the container and not closed it yet. -/
def Torn (t : Threads) (d : Dir) (name : ContainerName) : Prop :=
  ∃ c ∈ t.writer.writing, c.deltaFlag = d ∧ c.containerID = name

end Threads

end ShieldReduce

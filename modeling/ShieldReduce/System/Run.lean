import ShieldReduce.System.Offline
import ShieldReduce.System.Restore

/-!
# Server runs

Sessions one after the other. A client sends its chunks in batches and
ends with the head of the recipe; an upload that gets that far is
complete. An offline session is an upload with an offline pass behind it.
-/

namespace ShieldReduce

open ByteLib

/-- A batch of chunks, and what the entries of the batch held before. -/
structure Batch where
  chunks : List Chunk
  stale : Nat → RecipeEntry

structure Upload where
  login : Login
  batches : List Batch
  /-- The head of the recipe, which ends the upload. -/
  head : BytesN 16

namespace Upload

variable (env : Env)

/-- The message for a batch. -/
def message (u : Upload) (b : Batch) : Message :=
  .chunk (env.sessionKeyEnc u.login.sessionKey (frameChunks (b.chunks.map Subtype.val)))
    b.chunks.length b.stale

/-- What the server receives, up to the end of the recipe or not. -/
def messages (u : Upload) (toEnd : Bool) : List Message :=
  u.batches.map (u.message env) ++ if toEnd then [.recipeEnd u.head] else []

/-- The file, as its chunks. -/
def chunks (u : Upload) : List Chunk := u.batches.flatMap Batch.chunks

end Upload

namespace Server

variable (env : Env)

/-- What an upload session does to the server. -/
def receiveUpload (s : Server) (u : Upload) (toEnd : Bool) : Server :=
  dataReceiverRun env s u.login (u.messages env toEnd)

end Server

inductive Event where
  | upload (u : Upload)
  | offline (u : Upload) (m : PassResidue)

namespace Server

variable (env : Env)

def serve (s : Server) : Event → Server
  | .upload u => (s.receiveUpload env u true).updateOnlineInfo
  | .offline u m => (processOff env (s.receiveUpload env u true) m).updateOnlineInfo

/-- The sessions of a run, one after the other. -/
def run (s : Server) (es : List Event) : Server := es.foldl (serve env) s

/-- A server that complete uploads and offline passes lead to. -/
inductive Reached (m : Residue) : Server → Prop where
  | boot : Reached m (.boot env m)
  | upload {s : Server} (u : Upload) (h : Reached m s) : Reached m (s.receiveUpload env u true)
  | pass {s : Server} (r : PassResidue) (h : Reached m s) : Reached m (processOff env s r)
  | info {s : Server} (h : Reached m s) : Reached m s.updateOnlineInfo

variable {env} in
theorem Reached.run {m : Residue} {s : Server} (h : s.Reached env m) (es : List Event) :
    (s.run env es).Reached env m := by
  induction es generalizing s with
  | nil => exact h
  | cons e es ih =>
      refine ih ?_
      cases e with
      | upload u => exact (h.upload u).info
      | offline u r => exact ((h.upload u).pass r).info

/-- `con_times` has not overflowed, which the language leaves undefined. -/
def Counts (s : Server) : Prop := s.created ≤ 2 ^ 31

end Server

end ShieldReduce

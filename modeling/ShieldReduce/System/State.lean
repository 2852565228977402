import ShieldReduce.Enclave.Env
import ShieldReduce.Enclave.FreqState
import ShieldReduce.Store.Database
import ShieldReduce.Util.ContainerId

/-!
# The server

Everything that outlives a session: the index store, the container files,
the recipe files, the counter of container IDs, and what the frequency
index keeps in the enclave. A container that is handed to the data writer
is a file at once.

`plaintext` follows the index entry of a fingerprint to the chunk it
stands for, the way a restore reads it.
-/

namespace ShieldReduce

open ByteLib UMapLib

/-- A call of `EDeltaEncode` during an upload: the fingerprint of the base,
the bytes that were handed over as the base, and the chunk that the index
and the container files gave for the fingerprint at that moment. -/
structure EncodeCall where
  base : Fp
  baseBuf : Bytes
  plain : Option Bytes

structure Server where
  db : InMemoryDatabase
  containers : Dir → UMap ContainerName Bytes
  recipes : UMap Fp Bytes
  /-- The container IDs created so far: `con_times` is one more. -/
  created : Nat
  /-- The host's buffer for one container. -/
  tmpOcallcontainer : Bytes
  cmSketch : EcallCMSketch
  insideDedupIndex : EntryHeap
  inContainercache : InContainercache
  onlineBackupSize : UInt64
  /-- The calls of `EDeltaEncode`, for statements about them. -/
  encodes : List EncodeCall

/-- The IDs that `CreateUUID` makes in a run, and how many of them, from the
first on, differ from each other. With `MULTI_CLIENT` the letters of an ID are
drawn with `rand`, and nothing keeps two IDs apart. -/
class ContainerNames where
  name : Nat → ContainerName
  distinct : Nat
  name_inj : ∀ {i j : Nat}, i < distinct → j < distinct → name i = name j → i = j

/-- The ID of the `i`-th container. -/
def containerName [names : ContainerNames] (i : Nat) : ContainerName := names.name i

/-- What the memory that the server never initialises holds at its start. -/
structure Residue where
  tmpOcallcontainer : Bytes
  containerPool : Nat → Bytes

namespace Server

def boot (env : Env) (m : Residue) : Server where
  db := .empty
  containers := fun _ => ∅
  recipes := ∅
  created := 0
  tmpOcallcontainer := m.tmpOcallcontainer
  cmSketch := .init env.sketchWidth env.sketchDepth
  insideDedupIndex := .empty
  inContainercache := .empty m.containerPool
  onlineBackupSize := 0
  encodes := []

/-- `fopen(.., "wb")` and `fwrite`. -/
def saveToFile (s : Server) (d : Dir) (name : ContainerName) (body : Bytes) : Server :=
  { s with containers := fun d' =>
      if d' = d then (s.containers d').insert name body else s.containers d' }

/-- A container file is read into the host's buffer. -/
def readContainer (s : Server) (file : Bytes) : Server :=
  { s with tmpOcallcontainer := writeAt s.tmpOcallcontainer 0 file }

end Server

/-! ## Following the index -/

/-- Container contents, by directory and name. -/
abbrev View := Dir → ContainerName → Option Bytes

def Server.view (s : Server) : View := fun d name => (s.containers d).lookup name

/-- A container is looked for among the base containers first. -/
def View.file (v : View) (name : ContainerName) : Option Bytes :=
  match v .base name with
  | some file => some file
  | none => v .delta name

/-- The decrypted payload of a fingerprint, with its entry. -/
def readData (env : Env) (idx : Fp → Option Cipher) (v : View) (f : Fp) :
    Option (RecipeEntry × Bytes) := do
  let e := env.decEntry (← idx f)
  let file ← v.file e.containerName
  return (e, env.decryptionWithKeyIV (getChunkContent file e) (getChunkIV file e))

/-- The chunk of a fingerprint: its payload decompressed or, for a delta
chunk, decoded against the chunk of its base. -/
def plaintext (env : Env) (idx : Fp → Option Cipher) (v : View) (f : Fp) : Option Bytes := do
  let (e, data) ← readData env idx v f
  if e.deltaFlag = DELTA then
    let (_, base) ← readData env idx v e.basechunkHash
    return ed3Decode data (env.unpack base)
  else
    return env.unpack data

def Server.plaintext (env : Env) (s : Server) (f : Fp) : Option Bytes :=
  ShieldReduce.plaintext env s.db.queryBuffer s.view f

/-! ## Names -/

theorem length_nth {i : Nat} (hi : i < 2 ^ 31) : (ContainerId.nth i).length = 7 := by
  rw [ContainerId.nth, ContainerId.createUUID]
  by_cases h : i + 1 < 2 ^ 31
  · rw [ContainerId.toNat_counter h]
    exact ContainerId.length_spell (by simp only [CONTAINER_ID_LENGTH]; omega)
  · rw [ContainerId.toNat_counter_wrapped (by omega) (by omega)]
    exact ContainerId.length_spell (by simp only [CONTAINER_ID_LENGTH]; omega)

theorem counterName_inj {i j : Nat} (hi : i < 2 ^ 31) (hj : j < 2 ^ 31)
    (h : BytesN.ofBytes 7 (ContainerId.nth i) = BytesN.ofBytes 7 (ContainerId.nth j)) : i = j := by
  have hval : ∀ k < 2 ^ 31, (BytesN.ofBytes 7 (ContainerId.nth k)).1 = ContainerId.nth k := by
    intro k hk
    have := BytesN.ofBytes_val ⟨ContainerId.nth k, length_nth hk⟩
    exact congrArg Subtype.val this
  refine ContainerId.nth_inj hi hj ?_
  rw [← hval i hi, ← hval j hj, h]

/-- The IDs of the build without `MULTI_CLIENT`. -/
instance counterNames : ContainerNames where
  name i := BytesN.ofBytes 7 (ContainerId.nth i)
  distinct := 2 ^ 31
  name_inj := counterName_inj

theorem containerName_inj [names : ContainerNames] {i j : Nat} (hi : i < names.distinct)
    (hj : j < names.distinct) (h : containerName i = containerName j) : i = j :=
  names.name_inj hi hj h

end ShieldReduce

import ShieldReduce.ConstVar
import ShieldReduce.Lib.Bytes

/-!
# The enclave's keys across restarts

`Ecall_Enclave_Init` reads the data key and the index query key from the
sealed key file, or draws them when the file is empty or missing;
`Ecall_Enclave_Destroy` writes the file in a boot that drew them. `main`
creates and initialises the enclave, and the `CTRLC` handler shuts the
server down: it destroys the enclave and *then* issues
`Ecall_Enclave_Destroy` on it.

An ecall on a destroyed enclave does not execute, so the key file is
never written and every boot works with the keys it drew
(`keysOfBoots_eq`).
-/

namespace ShieldReduce.EnclaveKeys

open ByteLib

/-- `enclaveKey_` and `indexQueryKey_`. -/
structure Keys where
  enclaveKey : BytesN CHUNK_HASH_SIZE
  indexQueryKey : BytesN CHUNK_HASH_SIZE
deriving DecidableEq

/-- The enclave's globals that the keys depend on. -/
structure Enclave where
  keys : Keys
  firstBootstrap : Bool

/-- The host: its sealed files, and the enclave while there is one. A file
that does not exist reads like an empty one. -/
structure Host where
  enclaveKeyFile : Bytes
  enclaveIndexInfo : Bytes
  enclave : Option Enclave

/-- `Ecall_Enclave_Init`; `draw` is what the two `sgx_read_rand` return. -/
def ecallEnclaveInit (draw : Keys) (h : Host) : Host :=
  if h.enclaveKeyFile.length = 0 then
    { h with enclave := some { keys := draw, firstBootstrap := true } }
  else
    let readBuffer := h.enclaveKeyFile.take (CHUNK_HASH_SIZE * 2)
    { h with
      enclave := some
        { keys :=
            { enclaveKey := BytesN.ofBytes CHUNK_HASH_SIZE readBuffer
              indexQueryKey := BytesN.ofBytes CHUNK_HASH_SIZE (readBuffer.drop CHUNK_HASH_SIZE) }
          firstBootstrap := false } }

/-- An ecall runs inside the enclave, if there is one. -/
def ecall (h : Host) (body : Enclave → Host → Host) : Host :=
  match h.enclave with
  | some e => body e h
  | none => h

/-- `Ecall_Enclave_Destroy`: a boot that drew the keys persists them. -/
def ecallEnclaveDestroy (e : Enclave) (h : Host) : Host :=
  if e.firstBootstrap then
    { h with enclaveKeyFile := e.keys.enclaveKey.1 ++ e.keys.indexQueryKey.1 }
  else h

/-- `Ecall_Destroy_Upload`, the end of an upload, writes the index
statistics to a file of their own. -/
def ecallDestroyUpload (info : Bytes) (_ : Enclave) (h : Host) : Host :=
  { h with enclaveIndexInfo := info }

def sgxDestroyEnclave (h : Host) : Host := { h with enclave := none }

/-- The `CTRLC` handler, in its order. -/
def ctrlC (h : Host) : Host := ecall (sgxDestroyEnclave h) ecallEnclaveDestroy

/-! ## Boots -/

/-- One run of the server: what it draws should it have to, and the
statistics its uploads leave. -/
structure Boot where
  draw : Keys
  uploads : List Bytes

/-- The host while the server runs. -/
def Boot.serve (b : Boot) (h : Host) : Host :=
  b.uploads.foldl (fun h info => ecall h (ecallDestroyUpload info)) (ecallEnclaveInit b.draw h)

/-- The keys each boot works with, in order; between two boots there is a
clean shutdown. -/
def keysOfBoots : Host → List Boot → List (Option Keys)
  | _, [] => []
  | h, b :: bs =>
      let h := b.serve h
      h.enclave.map Enclave.keys :: keysOfBoots (ctrlC h) bs

/-- Uploads leave the keys and the key file alone. -/
theorem serve_spec (b : Boot) (h : Host) :
    (b.serve h).enclave = (ecallEnclaveInit b.draw h).enclave ∧
      (b.serve h).enclaveKeyFile = h.enclaveKeyFile := by
  have hup : ∀ (infos : List Bytes) (g : Host),
      (infos.foldl (fun h info => ecall h (ecallDestroyUpload info)) g).enclave = g.enclave ∧
        (infos.foldl (fun h info => ecall h (ecallDestroyUpload info)) g).enclaveKeyFile =
          g.enclaveKeyFile := by
    intro infos
    induction infos with
    | nil => exact fun g => ⟨rfl, rfl⟩
    | cons info infos ih =>
        intro g
        obtain ⟨h1, h2⟩ := ih (ecall g (ecallDestroyUpload info))
        rw [List.foldl_cons, h1, h2, ecall]
        cases hg : g.enclave with
        | none => exact ⟨hg, rfl⟩
        | some e => exact ⟨hg, rfl⟩
  obtain ⟨h1, h2⟩ := hup b.uploads (ecallEnclaveInit b.draw h)
  refine ⟨h1, h2.trans ?_⟩
  rw [ecallEnclaveInit]
  split <;> rfl

/-- The shutdown does not write the key file. -/
theorem ctrlC_keyFile (h : Host) : (ctrlC h).enclaveKeyFile = h.enclaveKeyFile := rfl

/-- Without a key file to start with, every boot has its own draw. -/
theorem keysOfBoots_eq : ∀ (bs : List Boot) {h : Host}, h.enclaveKeyFile = [] →
    keysOfBoots h bs = bs.map fun b => some b.draw
  | [], _, _ => rfl
  | b :: bs, h, hfile => by
      obtain ⟨henc, hkept⟩ := serve_spec b h
      have hnext : (ctrlC (b.serve h)).enclaveKeyFile = [] := by
        rw [ctrlC_keyFile, hkept, hfile]
      simp only [keysOfBoots, List.map_cons, keysOfBoots_eq bs hnext, henc, ecallEnclaveInit,
        hfile, List.length_nil, if_true, Option.map_some]

/-- **All boots have the same keys exactly when** the random draws of all
boots agree. -/
theorem keys_survive_iff (bs : List Boot) (h : Host) (hfile : h.enclaveKeyFile = []) :
    (∀ k ∈ keysOfBoots h bs, ∀ k' ∈ keysOfBoots h bs, k = k') ↔
      ∀ b ∈ bs, ∀ b' ∈ bs, b.draw = b'.draw := by
  rw [keysOfBoots_eq bs hfile]
  constructor
  · intro hsame b hb b' hb'
    exact Option.some.inj (hsame _ (List.mem_map.mpr ⟨b, hb, rfl⟩) _
      (List.mem_map.mpr ⟨b', hb', rfl⟩))
  · intro hdraw k hk k' hk'
    obtain ⟨b, hb, rfl⟩ := List.mem_map.mp hk
    obtain ⟨b', hb', rfl⟩ := List.mem_map.mp hk'
    rw [hdraw b hb b' hb']

def zeroKeys : Keys :=
  ⟨BytesN.ofBytes CHUNK_HASH_SIZE [], BytesN.ofBytes CHUNK_HASH_SIZE []⟩

def oneKeys : Keys :=
  ⟨BytesN.ofBytes CHUNK_HASH_SIZE [1], BytesN.ofBytes CHUNK_HASH_SIZE []⟩

/-- A host on which the server has never run. -/
def freshHost : Host := ⟨[], [], none⟩

/-- Two boots that draw the same. -/
theorem keys_survive_equal_draws :
    keysOfBoots freshHost [⟨oneKeys, [[7]]⟩, ⟨oneKeys, []⟩] ≠ [] ∧
      ∀ k ∈ keysOfBoots freshHost [⟨oneKeys, [[7]]⟩, ⟨oneKeys, []⟩],
        ∀ k' ∈ keysOfBoots freshHost [⟨oneKeys, [[7]]⟩, ⟨oneKeys, []⟩], k = k' :=
  ⟨by decide, (keys_survive_iff [⟨oneKeys, [[7]]⟩, ⟨oneKeys, []⟩] freshHost rfl).mpr (by decide)⟩

/-- Two boots with one shutdown in between: the second boot cannot know
the keys of the first. -/
theorem keys_lost_at_restart :
    ¬ ∀ k ∈ keysOfBoots freshHost [⟨oneKeys, []⟩, ⟨zeroKeys, []⟩],
      ∀ k' ∈ keysOfBoots freshHost [⟨oneKeys, []⟩, ⟨zeroKeys, []⟩], k = k' := by
  decide

end ShieldReduce.EnclaveKeys

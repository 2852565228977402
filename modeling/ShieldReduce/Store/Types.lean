import ShieldReduce.ConstVar
import ShieldReduce.Lib.UMap
import ShieldReduce.Lib.Bytes

/-!
# Records of the store

Fingerprints, super-features, container names and the recipe entry that
locates a chunk, with the byte layout of `chunkStructure.h`. A recipe
entry is copied to and from byte buffers as a whole: `RecipeEntry` and
its 144 bytes are in bijection.
-/

namespace ShieldReduce

open ByteLib

/-- A fingerprint. Outside the enclave it is the encrypted one. -/
abbrev Fp := BytesN 32

/-- The three super-features of a chunk, one after the other. -/
abbrev Sf := BytesN 96

abbrev ContainerName := BytesN 7

instance ContainerName.lawfulBEq : LawfulBEq ContainerName := inferInstance

/-- A recipe entry under encryption, as the index stores it. -/
abbrev Cipher := BytesN 144

/-- The `i`-th super-feature, at `key + i * CHUNK_HASH_SIZE`. -/
def sfKey (sf : Sf) (i : Nat) : Fp := BytesN.ofBytes 32 (sf.1.drop (i * CHUNK_HASH_SIZE))

/-- `NO_DELTA` of `DELTA_STATUS`. -/
def NO_DELTA : UInt8 := 0

/-- `DELTA` of `DELTA_STATUS`. -/
def DELTA : UInt8 := 1

/-- `RecipeEntry_t`. -/
structure RecipeEntry where
  containerName : ContainerName
  deltaFlag : UInt8
  offset : UInt32
  length : UInt32
  basechunkHash : Fp
  superfeature : Sf
deriving DecidableEq

/-- `sizeof(RecipeEntry_t)`; the structure has no padding. -/
def sizeofRecipeEntry : Nat := 144

def RecipeEntry.toBytes (r : RecipeEntry) : Bytes :=
  r.containerName.1 ++ r.deltaFlag :: (le32 r.offset ++ (le32 r.length ++
    (r.basechunkHash.1 ++ r.superfeature.1)))

def RecipeEntry.ofBytes (l : Bytes) : RecipeEntry where
  containerName := BytesN.ofBytes 7 l
  deltaFlag := (l.drop 7).headD 0
  offset := ofLe32 (l.drop 8)
  length := ofLe32 (l.drop 12)
  basechunkHash := BytesN.ofBytes 32 (l.drop 16)
  superfeature := BytesN.ofBytes 96 (l.drop 48)

@[simp] theorem RecipeEntry.length_toBytes (r : RecipeEntry) : r.toBytes.length = 144 := by
  simp [toBytes, r.containerName.2, r.basechunkHash.2, r.superfeature.2]

/-- A recipe entry is read back from its bytes, whatever follows them. -/
@[simp] theorem RecipeEntry.ofBytes_toBytes (r : RecipeEntry) (rest : Bytes) :
    RecipeEntry.ofBytes (r.toBytes ++ rest) = r := by
  obtain ⟨⟨name, hname⟩, flag, off, len, ⟨bh, hbh⟩, ⟨sf, hsf⟩⟩ := r
  have hdrop7 : ∀ t : Bytes, (name ++ t).drop 7 = t := fun t => by
    rw [← hname, List.drop_left]
  have hdrop : ∀ (k : Nat) (t : Bytes), (name ++ t).drop (7 + k) = t.drop k := fun k t => by
    rw [← List.drop_drop, hdrop7]
  have hbase : ∀ t : Bytes, (bh ++ t).drop 32 = t := fun t => by
    rw [← hbh, List.drop_left]
  simp only [RecipeEntry.ofBytes, toBytes, List.append_assoc, List.cons_append]
  have h8 := hdrop 1
  have h12 := hdrop 5
  have h16 := hdrop 9
  have h48 := hdrop 41
  simp only [Nat.reduceAdd] at h8 h12 h16 h48
  simp only [hdrop7, h8, h12, h16, h48, List.headD_cons, List.drop_one, List.tail_cons,
    ofLe32_le32]
  congr 1
  · exact BytesN.ofBytes_append ⟨name, hname⟩ _
  · simp only [List.drop_succ_cons]
    rw [show (4 : Nat) = (le32 off).length from rfl, List.drop_left, ofLe32_le32]
  · simp only [List.drop_succ_cons]
    rw [show (8 : Nat) = (le32 off ++ le32 len).length from rfl, ← List.append_assoc (le32 off),
      List.drop_left]
    exact BytesN.ofBytes_append ⟨bh, hbh⟩ _
  · simp only [List.drop_succ_cons]
    rw [show (40 : Nat) = (le32 off ++ le32 len).length + 32 from rfl,
      ← List.append_assoc (le32 off), ← List.drop_drop, List.drop_left, hbase]
    exact BytesN.ofBytes_append ⟨sf, hsf⟩ _

end ShieldReduce

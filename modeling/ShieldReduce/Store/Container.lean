import ShieldReduce.Store.Types
import ShieldReduce.Lib.Tiling

/-!
# Containers

A container is a sequence of records, one per stored chunk: the recipe
entry that locates the chunk, its fingerprint, its super-features, the
encrypted payload and the IV. `Holds name b rs` says that the bytes `b`
are a container of that name with the records `rs`. The writers append a
record, or relocate records to a new start; the readers find the parts
of a record through its recipe entry alone.
-/

namespace ShieldReduce

open ByteLib TilingLib

abbrev Iv := BytesN 16

/-- The directories `Base-Containers/` and `Delta-Containers/`. -/
inductive Dir where
  | base
  | delta
deriving DecidableEq

/-- The `deltaFlag` of the chunks that are stored in a directory. -/
def Dir.flag : Dir → UInt8
  | .base => NO_DELTA
  | .delta => DELTA

structure Record where
  entry : RecipeEntry
  fp : Fp
  sf : Sf
  payload : Bytes
  iv : Iv

/-- What a record takes besides its payload. -/
def recordOverhead : Nat := sizeofRecipeEntry + 4 * CHUNK_HASH_SIZE + CRYPTO_BLOCK_SIZE

def Record.toBytes (r : Record) : Bytes :=
  r.entry.toBytes ++ (r.fp.1 ++ (r.sf.1 ++ (r.payload ++ r.iv.1)))

def Record.start (r : Record) : Nat := r.entry.offset.toNat

@[simp] theorem Record.length_toBytes (r : Record) :
    r.toBytes.length = r.payload.length + recordOverhead := by
  simp only [toBytes, List.length_append, RecipeEntry.length_toBytes, r.fp.2, r.sf.2, r.iv.2,
    recordOverhead, sizeofRecipeEntry, CHUNK_HASH_SIZE, CRYPTO_BLOCK_SIZE]
  omega

/-- The layout of a container. -/
def records : Layout Record where
  bytes := Record.toBytes
  start := Record.start
  bytes_pos := fun r => by
    rw [r.length_toBytes]
    exact Nat.lt_of_lt_of_le (by decide) (Nat.le_add_left _ _)

@[simp] theorem records_bytes (r : Record) : records.bytes r = r.toBytes := rfl

@[simp] theorem records_start (r : Record) : records.start r = r.start := rfl

/-- The entry in front of the record names the container and the length of
the payload. -/
def Record.PlacedIn (name : ContainerName) (r : Record) : Prop :=
  r.entry.containerName = name ∧ r.entry.length.toNat = r.payload.length

structure Holds (name : ContainerName) (b : Bytes) (rs : List Record) : Prop where
  bytes : b = records.flat rs
  tiles : records.Tiles 0 rs
  placed : ∀ r ∈ rs, r.PlacedIn name
  small : b.length < MAX_CONTAINER_SIZE

theorem Holds.nil (name : ContainerName) : Holds name [] [] where
  bytes := rfl
  tiles := trivial
  placed := fun r hr => by cases hr
  small := by decide

/-! ## Reading a record -/

/-- The payload that an entry locates. -/
def getChunkContent (buf : Bytes) (e : RecipeEntry) : Bytes :=
  slice (memOf buf) (e.offset.toNat + sizeofRecipeEntry + 4 * CHUNK_HASH_SIZE) e.length.toNat

def getChunkIV (buf : Bytes) (e : RecipeEntry) : Iv :=
  BytesN.ofBytes 16
    (buf.drop (e.offset.toNat + sizeofRecipeEntry + 4 * CHUNK_HASH_SIZE + e.length.toNat))

def getChunkFP (buf : Bytes) (e : RecipeEntry) : Fp :=
  BytesN.ofBytes 32 (buf.drop (e.offset.toNat + sizeofRecipeEntry))

def getChunkSF (buf : Bytes) (e : RecipeEntry) : Sf :=
  BytesN.ofBytes 96 (buf.drop (e.offset.toNat + sizeofRecipeEntry + CHUNK_HASH_SIZE))

/-- The record is found in the buffer at the position it names. -/
def Record.FoundIn (r : Record) (buf : Bytes) : Prop :=
  ∃ rest, buf.drop r.start = r.toBytes ++ rest

/-- It is still found when more follows. -/
theorem Record.FoundIn.append {r : Record} {buf : Bytes} (h : r.FoundIn buf) (t : Bytes) :
    r.FoundIn (buf ++ t) := by
  obtain ⟨rest, hrest⟩ := h
  have hle : r.start ≤ buf.length := by
    by_contra hlt
    have hnil : buf.drop r.start = [] := List.drop_eq_nil_of_le (by omega)
    have hlen := congrArg List.length (hnil.symm.trans hrest)
    have hpos := records.bytes_pos r
    rw [records_bytes] at hpos
    rw [List.length_append, List.length_nil] at hlen
    omega
  refine ⟨rest ++ t, ?_⟩
  rw [List.drop_append_of_le_length hle, hrest, List.append_assoc]

/-- A container that was read into a larger buffer. -/
theorem Holds.found {name : ContainerName} {b buf : Bytes} {rs : List Record}
    (h : Holds name b rs) {r : Record} (hr : r ∈ rs) (hbuf : b <+: buf) : r.FoundIn buf := by
  obtain ⟨t, rfl⟩ := hbuf
  obtain ⟨rest, hrest⟩ := h.tiles.drop_start hr
  rw [← h.bytes] at hrest
  exact Record.FoundIn.append ⟨rest, hrest⟩ t

/-- The parts of a record behind its entry. -/
theorem Record.FoundIn.drop {r : Record} {buf : Bytes} (h : r.FoundIn buf) :
    ∃ rest, buf.drop (r.start + sizeofRecipeEntry) =
      r.fp.1 ++ (r.sf.1 ++ (r.payload ++ (r.iv.1 ++ rest))) := by
  obtain ⟨rest, hrest⟩ := h
  refine ⟨rest, ?_⟩
  rw [← List.drop_drop, hrest, Record.toBytes, List.append_assoc,
    show sizeofRecipeEntry = r.entry.toBytes.length from (r.entry.length_toBytes).symm,
    List.drop_left]
  simp only [List.append_assoc]

theorem Record.FoundIn.entry {r : Record} {buf : Bytes} (h : r.FoundIn buf) :
    RecipeEntry.ofBytes (buf.drop r.start) = r.entry := by
  obtain ⟨rest, hrest⟩ := h
  rw [hrest, Record.toBytes, List.append_assoc, RecipeEntry.ofBytes_toBytes]

theorem Record.FoundIn.getChunkFP {r : Record} {buf : Bytes} (h : r.FoundIn buf) :
    getChunkFP buf r.entry = r.fp := by
  obtain ⟨rest, hrest⟩ := h.drop
  rw [ShieldReduce.getChunkFP, show r.entry.offset.toNat = r.start from rfl, hrest,
    BytesN.ofBytes_append]

theorem Record.FoundIn.getChunkSF {r : Record} {buf : Bytes} (h : r.FoundIn buf) :
    getChunkSF buf r.entry = r.sf := by
  obtain ⟨rest, hrest⟩ := h.drop
  rw [ShieldReduce.getChunkSF, show r.entry.offset.toNat = r.start from rfl, ← List.drop_drop,
    hrest, show CHUNK_HASH_SIZE = r.fp.1.length from r.fp.2.symm, List.drop_left,
    BytesN.ofBytes_append]

/-- The text from the payload on. -/
theorem Record.FoundIn.drop_payload {r : Record} {buf : Bytes} (h : r.FoundIn buf) :
    ∃ rest, buf.drop (r.start + sizeofRecipeEntry + 4 * CHUNK_HASH_SIZE) =
      r.payload ++ (r.iv.1 ++ rest) := by
  obtain ⟨rest, hrest⟩ := h.drop
  refine ⟨rest, ?_⟩
  have hlen : 4 * CHUNK_HASH_SIZE = (r.fp.1 ++ r.sf.1).length := by
    rw [List.length_append, r.fp.2, r.sf.2]
    rfl
  rw [← List.drop_drop, hrest, ← List.append_assoc, hlen, List.drop_left]

theorem Record.FoundIn.getChunkContent {r : Record} {buf : Bytes} {name : ContainerName}
    (h : r.FoundIn buf) (hp : r.PlacedIn name) : getChunkContent buf r.entry = r.payload := by
  obtain ⟨rest, hrest⟩ := h.drop_payload
  have hlen := congrArg List.length hrest
  rw [List.length_drop, List.length_append, List.length_append, r.iv.2] at hlen
  rw [ShieldReduce.getChunkContent, hp.2, slice_memOf, show r.entry.offset.toNat = r.start from rfl,
    hrest, List.take_left]
  show r.start + sizeofRecipeEntry + 4 * CHUNK_HASH_SIZE + r.payload.length ≤ buf.length
  omega

theorem Record.FoundIn.getChunkIV {r : Record} {buf : Bytes} {name : ContainerName}
    (h : r.FoundIn buf) (hp : r.PlacedIn name) : getChunkIV buf r.entry = r.iv := by
  obtain ⟨rest, hrest⟩ := h.drop_payload
  rw [ShieldReduce.getChunkIV, hp.2, ← List.drop_drop, show r.entry.offset.toNat = r.start from rfl,
    hrest, List.drop_left, BytesN.ofBytes_append]

/-! ## One reading -/

/-- A record is known from the bytes that begin with it. -/
theorem Record.toBytes_append_inj {r s : Record} (hr : r.entry.length.toNat = r.payload.length)
    (hs : s.entry.length.toNat = s.payload.length) {x y : Bytes}
    (heq : r.toBytes ++ x = s.toBytes ++ y) : r = s ∧ x = y := by
  obtain ⟨e, f, g, p, v⟩ := r
  obtain ⟨e', f', g', p', v'⟩ := s
  simp only [Record.toBytes, List.append_assoc] at heq
  obtain ⟨he, h₁⟩ := List.append_inj heq (by simp)
  obtain ⟨hf, h₂⟩ := List.append_inj h₁ (f.2.trans f'.2.symm)
  obtain ⟨hg, h₃⟩ := List.append_inj h₂ (g.2.trans g'.2.symm)
  have hentry : e = e' := by
    have hread := congrArg (fun b => RecipeEntry.ofBytes (b ++ [])) he
    simpa only [RecipeEntry.ofBytes_toBytes] using hread
  subst hentry
  obtain ⟨hp, h₄⟩ := List.append_inj h₃ (hr.symm.trans hs)
  obtain ⟨hv, hrest⟩ := List.append_inj h₄ (v.2.trans v'.2.symm)
  refine ⟨?_, hrest⟩
  rw [Subtype.ext hf, Subtype.ext hg, hp, Subtype.ext hv]

/-- **A container has one reading.** -/
theorem flat_inj : ∀ {rs ts : List Record}, (∀ r ∈ rs, r.entry.length.toNat = r.payload.length) →
    (∀ t ∈ ts, t.entry.length.toNat = t.payload.length) → records.flat rs = records.flat ts → rs = ts
  | [], [], _, _, _ => rfl
  | [], t :: ts, _, _, heq => by
      have hlen := congrArg List.length heq
      have hpos := records.bytes_pos t
      rw [Layout.flat_cons, List.length_append, Layout.flat_nil, List.length_nil] at hlen
      omega
  | r :: rs, [], _, _, heq => by
      have hlen := congrArg List.length heq
      have hpos := records.bytes_pos r
      rw [Layout.flat_cons, List.length_append, Layout.flat_nil, List.length_nil] at hlen
      omega
  | r :: rs, t :: ts, hr, ht, heq => by
      obtain ⟨hr₀, hrs⟩ := List.forall_mem_cons.mp hr
      obtain ⟨ht₀, hts⟩ := List.forall_mem_cons.mp ht
      rw [Layout.flat_cons, Layout.flat_cons, records_bytes, records_bytes] at heq
      obtain ⟨rfl, hrest⟩ := Record.toBytes_append_inj hr₀ ht₀ heq
      rw [flat_inj hrs hts hrest]

/-! ## Appending and relocating records -/

/-- A record that starts where the container ends. -/
theorem Holds.append {name : ContainerName} {b : Bytes} {rs : List Record} (h : Holds name b rs)
    {r : Record} (hr : r.PlacedIn name) (hstart : r.start = b.length)
    (hsmall : b.length + r.toBytes.length < MAX_CONTAINER_SIZE) :
    Holds name (b ++ r.toBytes) (rs ++ [r]) where
  bytes := by rw [h.bytes]; simp
  tiles := by
    refine tiles_append.mpr ⟨h.tiles, ?_, trivial⟩
    rw [records_start, hstart, h.bytes, Nat.zero_add]
  placed := by
    intro s hs
    rcases List.mem_append.mp hs with hs | hs
    · exact h.placed s hs
    · rw [List.mem_singleton.mp hs]
      exact hr
  small := by rwa [List.length_append]

/-- The record under another container's name, at another offset. -/
def Record.moveTo (r : Record) (name : ContainerName) (off : Nat) : Record :=
  { r with entry := { r.entry with containerName := name, offset := UInt32.ofNat off } }

/-- The records one after the other from `off` on. -/
def relocate (name : ContainerName) : Nat → List Record → List Record
  | _, [] => []
  | off, r :: rs => r.moveTo name off :: relocate name (off + r.toBytes.length) rs

@[simp] theorem Record.length_toBytes_moveTo (r : Record) (name : ContainerName) (off : Nat) :
    (r.moveTo name off).toBytes.length = r.toBytes.length := by
  simp [Record.moveTo]

@[simp] theorem length_flat_relocate (name : ContainerName) : ∀ (off : Nat) (rs : List Record),
    (records.flat (relocate name off rs)).length = (records.flat rs).length
  | _, [] => rfl
  | off, r :: rs => by
      simp only [relocate, Layout.flat_cons, List.length_append, records_bytes,
        Record.length_toBytes_moveTo, length_flat_relocate]

theorem mem_relocate {name : ContainerName} : ∀ {off : Nat} {rs : List Record} {s : Record},
    s ∈ relocate name off rs → ∃ r ∈ rs, ∃ off', s = r.moveTo name off'
  | _, [], _, h => by cases h
  | off, r :: rs, s, h => by
      rcases List.mem_cons.mp h with rfl | h
      · exact ⟨r, by simp, off, rfl⟩
      · obtain ⟨r', hr', off', rfl⟩ := mem_relocate h
        exact ⟨r', by simp [hr'], off', rfl⟩

theorem exists_mem_relocate {name : ContainerName} : ∀ {off : Nat} {rs : List Record} {r : Record},
    r ∈ rs → ∃ off', r.moveTo name off' ∈ relocate name off rs
  | _, [], _, h => by cases h
  | off, s :: rs, r, h => by
      rcases List.mem_cons.mp h with rfl | h
      · exact ⟨off, by simp [relocate]⟩
      · obtain ⟨off', hoff⟩ : ∃ off', r.moveTo name off' ∈
            relocate name (off + s.toBytes.length) rs := exists_mem_relocate h
        exact ⟨off', List.mem_cons_of_mem _ hoff⟩

theorem tiles_relocate (name : ContainerName) : ∀ (off : Nat) (rs : List Record),
    off + (records.flat rs).length < 2 ^ 32 → records.Tiles off (relocate name off rs)
  | _, [], _ => trivial
  | off, r :: rs, h => by
      rw [Layout.flat_cons, List.length_append, records_bytes] at h
      refine ⟨?_, ?_⟩
      · exact Nat.mod_eq_of_lt (by omega)
      · rw [records_bytes, Record.length_toBytes_moveTo]
        exact tiles_relocate name _ rs (by omega)

/-- The records of one container behind those of another. -/
theorem Holds.append_relocate {name name' : ContainerName} {b : Bytes} {rs ts : List Record}
    (h : Holds name b rs) (hts : ∀ r ∈ ts, r.PlacedIn name')
    (hsmall : b.length + (records.flat ts).length < MAX_CONTAINER_SIZE) :
    Holds name (b ++ records.flat (relocate name b.length ts))
      (rs ++ relocate name b.length ts) where
  bytes := by rw [Layout.flat_append, ← h.bytes]
  tiles := by
    have hlt : MAX_CONTAINER_SIZE < 2 ^ 32 := by decide
    refine tiles_append.mpr ⟨h.tiles, ?_⟩
    rw [Nat.zero_add, ← h.bytes]
    exact tiles_relocate name _ _ (by omega)
  placed := by
    intro s hs
    rcases List.mem_append.mp hs with hs | hs
    · exact h.placed s hs
    · obtain ⟨r, hr, off, rfl⟩ := mem_relocate hs
      exact ⟨rfl, (hts r hr).2⟩
  small := by rwa [List.length_append, length_flat_relocate]

end ShieldReduce

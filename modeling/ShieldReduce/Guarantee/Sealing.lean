import ShieldReduce.Lib.Stream
import ShieldReduce.Guarantee.HeapRuns

/-!
# Sealing the frequency index

`PersistDedupIndex` writes the rows of the sketch one after another into one
file and the heap into another, and `LoadDedupIndex` reads both back. All
buffers cross the enclave's border in pieces of at most
`SGX_PERSISTENCE_BUFFER_SIZE` bytes (`writeBufferToFile_eq`,
`readFileToBuffer_eq`). The heap is rebuilt as it was, without a sift, and a
heap with the same list and the same entries answers every later call alike
(`SameHeap.run`).

A sealed file of size 0 counts as none, and then the heap is not loaded
either: a sketch without counters takes the heap with it
(`loadDedupIndex_noCounters`).
-/

namespace ShieldReduce

open ByteLib UMapLib

def SGX_PERSISTENCE_BUFFER_SIZE : Nat := 2 * 1024 * 1024

/-! ## Buffers in pieces -/

/-- `WriteBufferToFile` from `offset` on: what the file holds afterwards. -/
def writeBufferToFile (file buffer : Bytes) (offset remainSize : Nat) : Bytes :=
  if remainSize = 0 then file
  else if SGX_PERSISTENCE_BUFFER_SIZE < remainSize then
    writeBufferToFile (file ++ (buffer.drop offset).take SGX_PERSISTENCE_BUFFER_SIZE) buffer
      (offset + SGX_PERSISTENCE_BUFFER_SIZE) (remainSize - SGX_PERSISTENCE_BUFFER_SIZE)
  else file ++ (buffer.drop offset).take remainSize
termination_by remainSize
decreasing_by
  unfold SGX_PERSISTENCE_BUFFER_SIZE
  omega

/-- `ReadFileToBuffer` from `offset` on: the buffer afterwards, and the stream. -/
def readFileToBuffer (s : IFStream) (buffer : Bytes) (offset remainSize : Nat) : Bytes × IFStream :=
  if remainSize = 0 then (buffer, s)
  else if SGX_PERSISTENCE_BUFFER_SIZE < remainSize then
    let (piece, s) := s.read ((buffer.drop offset).take SGX_PERSISTENCE_BUFFER_SIZE)
    readFileToBuffer s (writeAt buffer offset piece) (offset + SGX_PERSISTENCE_BUFFER_SIZE)
      (remainSize - SGX_PERSISTENCE_BUFFER_SIZE)
  else
    let (piece, s) := s.read ((buffer.drop offset).take remainSize)
    (writeAt buffer offset piece, s)
termination_by remainSize
decreasing_by
  unfold SGX_PERSISTENCE_BUFFER_SIZE
  omega

theorem writeBufferToFile_eq (buffer : Bytes) (remainSize : Nat) (file : Bytes) (offset : Nat) :
    writeBufferToFile file buffer offset remainSize = file ++ (buffer.drop offset).take remainSize := by
  induction remainSize using Nat.strong_induction_on generalizing file offset with
  | _ remainSize ih =>
      rw [writeBufferToFile]
      split
      · rename_i hzero
        rw [hzero, List.take_zero, List.append_nil]
      · split
        · rename_i hlarge
          have hpos : 0 < SGX_PERSISTENCE_BUFFER_SIZE := by decide
          rw [ih _ (by omega), List.append_assoc, ← List.drop_drop, ← List.take_add,
            Nat.add_sub_of_le hlarge.le]
        · rfl

theorem writeAt_writeAt {buf xs ys : Bytes} {pos : Nat} (h : pos ≤ buf.length) :
    writeAt (writeAt buf pos xs) (pos + xs.length) ys = writeAt buf pos (xs ++ ys) := by
  have hlen : (buf.take pos ++ xs).length = pos + xs.length := by
    rw [List.length_append, List.length_take, Nat.min_eq_left h]
  rw [writeAt, take_writeAt xs h, writeAt, writeAt, List.length_append, ← hlen, List.drop_append,
    List.drop_eq_nil_of_le (Nat.le_add_right _ _), List.nil_append, Nat.add_sub_cancel_left, hlen,
    List.drop_drop]
  simp only [List.append_assoc, Nat.add_assoc]

theorem writeAt_all {buf xs : Bytes} (h : buf.length = xs.length) : writeAt buf 0 xs = xs := by
  rw [writeAt, List.take_zero, List.nil_append, Nat.zero_add, ← h, List.drop_length, List.append_nil]

theorem readFileToBuffer_eq {xs : Bytes} (rest : Bytes) {buffer : Bytes} {offset : Nat}
    (h : offset + xs.length ≤ buffer.length) :
    readFileToBuffer ⟨xs ++ rest, false⟩ buffer offset xs.length =
      (writeAt buffer offset xs, ⟨rest, false⟩) := by
  generalize hn : xs.length = remainSize
  induction remainSize using Nat.strong_induction_on generalizing xs buffer offset with
  | _ remainSize ih =>
      have hslot : ∀ n ≤ xs.length, ((buffer.drop offset).take n).length = n := by
        intro n hle
        rw [List.length_take, List.length_drop]
        omega
      rw [readFileToBuffer]
      split
      · rename_i hzero
        rw [List.length_eq_zero_iff.mp (hn.trans hzero), List.nil_append]
        simp [writeAt]
      · split
        · rename_i hlarge
          have hpos : 0 < SGX_PERSISTENCE_BUFFER_SIZE := by decide
          generalize SGX_PERSISTENCE_BUFFER_SIZE = piece at hlarge hpos ⊢
          -- one piece, then the rest of the buffer
          have htake : (xs.take piece).length = piece := List.length_take_of_le (by omega)
          have hread : (⟨xs ++ rest, false⟩ : IFStream).read ((buffer.drop offset).take piece) =
              (xs.take piece, ⟨xs.drop piece ++ rest, false⟩) := by
            rw [← IFStream.read_append (htake.trans (hslot piece (by omega)).symm),
              ← List.append_assoc, List.take_append_drop]
          have hroom : offset + piece + (xs.drop piece).length ≤
              (writeAt buffer offset (xs.take piece)).length := by
            rw [length_writeAt _ (by omega), List.length_drop]
            omega
          have hlast : (xs.drop piece).length = remainSize - piece := by rw [List.length_drop, hn]
          have hrest := ih (remainSize - piece) (by omega) hroom hlast
          rw [hread]
          dsimp only
          rw [hrest]
          have hwrite : writeAt (writeAt buffer offset (xs.take piece))
              (offset + (xs.take piece).length) (xs.drop piece) = _ := writeAt_writeAt (by omega)
          rw [htake, List.take_append_drop] at hwrite
          rw [hwrite]
        · rw [← hn, IFStream.read_append (hslot xs.length (le_refl _)).symm]

/-! ## The sketch -/

/-- The memory of a row of counters. -/
def rowBytes (row : List UInt32) : Bytes := row.flatMap le32

/-- The row of `n` counters in a memory. -/
def rowOf : (n : Nat) → Bytes → List UInt32
  | 0, _ => []
  | n + 1, bytes => ofLe32 bytes :: rowOf n (bytes.drop 4)

@[simp] theorem length_rowBytes (row : List UInt32) : (rowBytes row).length = row.length * 4 := by
  induction row with
  | nil => rfl
  | cons x row ih =>
      rw [rowBytes, List.flatMap_cons, List.length_append, length_le32, List.length_cons]
      rw [rowBytes] at ih
      omega

theorem rowOf_rowBytes (row : List UInt32) : rowOf row.length (rowBytes row) = row := by
  induction row with
  | nil => rfl
  | cons x row ih =>
      rw [rowBytes, List.flatMap_cons, List.length_cons, rowOf, ofLe32_le32]
      exact congrArg (x :: ·) ih

namespace EcallFreqIndex

/-- The first file of `PersistDedupIndex`. -/
def persistSketch (sketch : EcallCMSketch) : Bytes :=
  sketch.counterArray.foldl
    (fun file row => writeBufferToFile file (rowBytes row) 0 (sketch.width * 4)) []

/-- The rows of `counterArray`, read over what they held. -/
def loadRows (width : Nat) : IFStream → List (List UInt32) → List (List UInt32)
  | _, [] => []
  | s, row :: rows =>
      let (bytes, s) := readFileToBuffer s (rowBytes row) 0 (width * 4)
      rowOf width bytes :: loadRows width s rows

/-- A sketch has rows of one width. -/
def Shaped (sketch : EcallCMSketch) : Prop := ∀ row ∈ sketch.counterArray, row.length = sketch.width

theorem foldl_writeRows {width : Nat} {rows : List (List UInt32)} (h : ∀ row ∈ rows, row.length = width)
    (file : Bytes) :
    rows.foldl (fun file row => writeBufferToFile file (rowBytes row) 0 (width * 4)) file =
      file ++ rows.flatMap rowBytes := by
  induction rows generalizing file with
  | nil => rw [List.foldl_nil, List.flatMap_nil, List.append_nil]
  | cons row rows ih =>
      obtain ⟨hrow, hrows⟩ := List.forall_mem_cons.mp h
      rw [List.foldl_cons, ih hrows, writeBufferToFile_eq, List.drop_zero, ← hrow,
        ← length_rowBytes, List.take_length, List.flatMap_cons, List.append_assoc]

theorem loadRows_eq {width : Nat} {rows : List (List UInt32)} (h : ∀ row ∈ rows, row.length = width)
    (rest : Bytes) {old : List (List UInt32)} (hold : ∀ row ∈ old, row.length = width)
    (hlen : old.length = rows.length) :
    loadRows width ⟨rows.flatMap rowBytes ++ rest, false⟩ old = rows := by
  induction rows generalizing old with
  | nil =>
      rw [List.length_eq_zero_iff.mp hlen]
      rfl
  | cons row rows ih =>
      obtain ⟨row', old, rfl⟩ := List.exists_cons_of_length_eq_add_one hlen
      obtain ⟨hrow, hrows⟩ := List.forall_mem_cons.mp h
      obtain ⟨hrow', hold⟩ := List.forall_mem_cons.mp hold
      have hsize : (rowBytes row).length = width * 4 := by rw [length_rowBytes, hrow]
      have hread := readFileToBuffer_eq (rows.flatMap rowBytes ++ rest)
        (show 0 + (rowBytes row).length ≤ (rowBytes row').length by
          rw [hsize, length_rowBytes, hrow', Nat.zero_add])
      have hover : writeAt (rowBytes row') 0 (rowBytes row) = rowBytes row :=
        writeAt_all (by rw [hsize, length_rowBytes, hrow'])
      rw [hover, hsize, ← List.append_assoc] at hread
      rw [loadRows, List.flatMap_cons, hread]
      dsimp only
      rw [ih hrows hold (Nat.succ_inj.mp hlen), ← hrow, rowOf_rowBytes]

end EcallFreqIndex

/-! ## The heap -/

/-- `HeapItem_t` in memory; the structure has no padding. -/
def HeapItem.toBytes (item : HeapItem) : Bytes :=
  item.address.toBytes ++ (le32 item.chunkFreq ++ le32 (UInt32.ofNat item.idx))

def HeapItem.ofBytes (bytes : Bytes) : HeapItem where
  address := RecipeEntry.ofBytes bytes
  chunkFreq := ofLe32 (bytes.drop 144)
  idx := (ofLe32 (bytes.drop 148)).toNat

/-- `sizeof(HeapItem_t)`. -/
def sizeofHeapItem : Nat := 152

theorem HeapItem.length_toBytes (item : HeapItem) : item.toBytes.length = sizeofHeapItem := by
  rw [toBytes, List.length_append, RecipeEntry.length_toBytes]
  rfl

theorem HeapItem.ofBytes_toBytes {item : HeapItem} (h : item.idx < 2 ^ 32) (rest : Bytes) :
    HeapItem.ofBytes (item.toBytes ++ rest) = item := by
  have haddr := item.address.length_toBytes
  have hfreq : (item.toBytes ++ rest).drop 144 =
      le32 item.chunkFreq ++ (le32 (UInt32.ofNat item.idx) ++ rest) := by
    rw [toBytes, List.append_assoc, List.append_assoc, ← haddr, List.drop_left]
  have hidx : (item.toBytes ++ rest).drop 148 = le32 (UInt32.ofNat item.idx) ++ rest := by
    rw [show (148 : Nat) = 144 + 4 from rfl, ← List.drop_drop, hfreq]
    rfl
  rw [HeapItem.ofBytes, hfreq, hidx, ofLe32_le32, ofLe32_le32, UInt32.toNat_ofNat',
    Nat.mod_eq_of_lt h, toBytes, List.append_assoc, RecipeEntry.ofBytes_toBytes]

namespace EcallFreqIndex

/-- A fingerprint and its entry. -/
def sealEntry (h : EntryHeap) (key : Fp) : Bytes :=
  key.1 ++ ((h.getPriority key).map HeapItem.toBytes).getD []

/-- The second file of `PersistDedupIndex`. -/
def persistHeap (h : EntryHeap) : Bytes :=
  writeBufferToFile [] (le64 h.size ++ h.heap.flatMap (sealEntry h)) 0
    (8 + h.size * (CHUNK_HASH_SIZE + sizeofHeapItem))

/-- The loop of `LoadDedupIndex` over the entries. -/
def loadEntries : (itemNum : Nat) → Bytes → EntryHeap → EntryHeap
  | 0, _, h => h
  | itemNum + 1, bytes, h =>
      let key := BytesN.ofBytes 32 bytes
      let item := HeapItem.ofBytes (bytes.drop CHUNK_HASH_SIZE)
      loadEntries itemNum (bytes.drop (CHUNK_HASH_SIZE + sizeofHeapItem))
        ⟨h.heap ++ [key], insertNew h.index (key, item)⟩

/-- `LoadDedupIndex`, into the sketch and the heap of a new object. A file that does not
exist has size 0; `fresh` is what `malloc` hands out. -/
def loadDedupIndex (fresh : Mem) (sketchFile heapFile : Bytes) (sketch : EcallCMSketch)
    (h : EntryHeap) : Bool × EcallCMSketch × EntryHeap :=
  if sketchFile.length = 0 then (false, sketch, h)
  else
    let sketch := { sketch with
      counterArray := loadRows sketch.width ⟨sketchFile, false⟩ sketch.counterArray }
    if heapFile.length = 0 then (false, sketch, h)
    else
      let (tmpIndexBuffer, _) := readFileToBuffer ⟨heapFile, false⟩
        (slice fresh 0 heapFile.length) 0 heapFile.length
      (true, sketch, loadEntries (ofLe64 tmpIndexBuffer) (tmpIndexBuffer.drop 8) h)

/-- The list and the entries of the heap come back. -/
theorem loadEntries_eq {h : EntryHeap} {entries : List (Fp × HeapItem)}
    (hitems : ∀ p ∈ entries, h.getPriority p.1 = some p.2 ∧ p.2.idx < 2 ^ 32) (g : EntryHeap) :
    loadEntries entries.length ((entries.map Prod.fst).flatMap (sealEntry h)) g =
      ⟨g.heap ++ entries.map Prod.fst, entries.foldl insertNew g.index⟩ := by
  induction entries generalizing g with
  | nil =>
      rw [List.map_nil, List.append_nil]
      rfl
  | cons p entries ih =>
      obtain ⟨⟨hitem, hidx⟩, hrest⟩ := List.forall_mem_cons.mp hitems
      generalize hbytes : (entries.map Prod.fst).flatMap (sealEntry h) = bytes at ih
      have hseal : ((p :: entries).map Prod.fst).flatMap (sealEntry h) =
          p.1.1 ++ (p.2.toBytes ++ bytes) := by
        rw [List.map_cons, List.flatMap_cons, hbytes, sealEntry, hitem, List.append_assoc]
        rfl
      have hkey : (p.1.1 ++ (p.2.toBytes ++ bytes)).drop CHUNK_HASH_SIZE = p.2.toBytes ++ bytes := by
        rw [show CHUNK_HASH_SIZE = p.1.1.length from p.1.2.symm, List.drop_left]
      have hnext : (p.1.1 ++ (p.2.toBytes ++ bytes)).drop (CHUNK_HASH_SIZE + sizeofHeapItem) =
          bytes := by
        rw [← List.drop_drop, hkey, ← p.2.length_toBytes, List.drop_left]
      rw [hseal, List.length_cons, loadEntries, hkey, hnext, BytesN.ofBytes_append,
        HeapItem.ofBytes_toBytes hidx]
      rw [ih hrest, List.map_cons, List.append_assoc]
      rfl

end EcallFreqIndex

/-! ## Heaps with the same list and entries -/

/-- The entries may be stored in another order. -/
structure SameHeap (h h' : EntryHeap) : Prop where
  heap : h'.heap = h.heap
  entries : ∀ k, h'.getPriority k = h.getPriority k

namespace SameHeap

variable {h h' : EntryHeap}

theorem size (hs : SameHeap h h') : h'.size = h.size := congrArg List.length hs.heap

theorem contains (hs : SameHeap h h') (k : Fp) : h'.contains k = h.contains k :=
  congrArg Option.isSome (hs.entries k)

theorem keyAt (hs : SameHeap h h') (i : Nat) : h'.keyAt i = h.keyAt i := by
  rw [EntryHeap.keyAt, hs.heap, EntryHeap.keyAt]

theorem freqAt (hs : SameHeap h h') (i : Nat) : h'.freqAt i = h.freqAt i := by
  have hentry := hs.entries (h.keyAt i)
  rw [EntryHeap.getPriority, EntryHeap.getPriority] at hentry
  rw [EntryHeap.freqAt, hs.keyAt, hentry, EntryHeap.freqAt]

theorem modifyItem (hs : SameHeap h h') (key : Fp) (f : HeapItem → HeapItem) :
    SameHeap (h.modifyItem key f) (h'.modifyItem key f) := by
  refine ⟨?_, fun k => ?_⟩
  · rw [EntryHeap.heap_modifyItem, EntryHeap.heap_modifyItem, hs.heap]
  · rw [EntryHeap.getPriority_modifyItem, EntryHeap.getPriority_modifyItem, hs.entries, hs.entries]

theorem swap (hs : SameHeap h h') (idx other : Nat) :
    SameHeap (h.swap idx other) (h'.swap idx other) := by
  have hset : SameHeap { h with heap := (h.heap.set idx (h.keyAt other)).set other (h.keyAt idx) }
      { h' with heap := (h'.heap.set idx (h'.keyAt other)).set other (h'.keyAt idx) } := by
    refine ⟨?_, hs.entries⟩
    dsimp only
    rw [hs.heap, hs.keyAt, hs.keyAt]
  rw [EntryHeap.swap, EntryHeap.swap, hs.keyAt other]
  have hmod := hset.modifyItem (h.keyAt other) fun item => { item with idx := idx }
  rw [hs.keyAt other] at hmod
  exact hmod

theorem swapUp (fuel : Nat) (hs : SameHeap h h') (idx : Nat) :
    SameHeap (EntryHeap.swapUp fuel h idx).1 (EntryHeap.swapUp fuel h' idx).1 ∧
      (EntryHeap.swapUp fuel h' idx).2 = (EntryHeap.swapUp fuel h idx).2 := by
  induction fuel generalizing h h' idx with
  | zero => exact ⟨hs, rfl⟩
  | succ fuel ih =>
      rw [EntryHeap.swapUp, EntryHeap.swapUp]
      rw [hs.freqAt, hs.freqAt]
      split
      · exact ih (hs.swap _ _) _
      · exact ⟨hs, rfl⟩

theorem minChild (hs : SameHeap h h') (left : Nat) : h'.minChild left = h.minChild left := by
  rw [EntryHeap.minChild, hs.heap, hs.freqAt, hs.freqAt, EntryHeap.minChild]

theorem swapDown (fuel : Nat) (hs : SameHeap h h') (idx : Nat) :
    SameHeap (EntryHeap.swapDown fuel h idx).1 (EntryHeap.swapDown fuel h' idx).1 ∧
      (EntryHeap.swapDown fuel h' idx).2 = (EntryHeap.swapDown fuel h idx).2 := by
  induction fuel generalizing h h' idx with
  | zero => exact ⟨hs, rfl⟩
  | succ fuel ih =>
      rw [EntryHeap.swapDown, EntryHeap.swapDown]
      rw [hs.heap, hs.minChild, hs.freqAt, hs.freqAt]
      split
      · exact ih (hs.swap _ _) _
      · exact ⟨hs, rfl⟩

theorem setIdx {p p' : EntryHeap × Nat} (hs : SameHeap p.1 p'.1) (hidx : p'.2 = p.2) (key : Fp) :
    SameHeap (EntryHeap.setIdx p key) (EntryHeap.setIdx p' key) := by
  rw [EntryHeap.setIdx, EntryHeap.setIdx, hidx]
  exact hs.modifyItem key _

theorem pop (hs : SameHeap h h') : SameHeap h.pop h'.pop := by
  have htop : SameHeap h.withoutTop h'.withoutTop := by
    refine ⟨?_, fun k => ?_⟩
    · rw [EntryHeap.withoutTop, EntryHeap.withoutTop]
      dsimp only
      rw [hs.heap, hs.keyAt, hs.size]
    · have hentry := hs.entries k
      rw [EntryHeap.getPriority, EntryHeap.getPriority] at hentry
      rw [EntryHeap.getPriority, EntryHeap.getPriority, EntryHeap.withoutTop, EntryHeap.withoutTop,
        lookup_erase_if, lookup_erase_if, hs.keyAt, hentry]
  obtain ⟨hsift, hidx⟩ := htop.swapDown h.withoutTop.size 0
  have hpop : ∀ g : EntryHeap, g.pop = EntryHeap.setIdx
      (EntryHeap.swapDown g.withoutTop.size g.withoutTop 0)
      ((EntryHeap.swapDown g.withoutTop.size g.withoutTop 0).1.keyAt
        (EntryHeap.swapDown g.withoutTop.size g.withoutTop 0).2) := fun _ => rfl
  rw [hpop, hpop, htop.size, hidx, hsift.keyAt]
  exact hsift.setIdx hidx _

theorem add (hs : SameHeap h h') (key : Fp) (value : HeapItem) :
    SameHeap (h.add key value) (h'.add key value) := by
  have hlast : SameHeap ⟨h.heap ++ [key], insertNew h.index (key, value)⟩
      ⟨h'.heap ++ [key], insertNew h'.index (key, value)⟩ := by
    refine ⟨congrArg (· ++ [key]) hs.heap, fun k => ?_⟩
    have hlookup : ∀ k, h'.index.lookup k = h.index.lookup k := hs.entries
    have hmem : key ∈ h'.index ↔ key ∈ h.index := by
      rw [← AList.lookup_isSome, ← AList.lookup_isSome, hlookup]
    rw [EntryHeap.getPriority, EntryHeap.getPriority, insertNew, insertNew]
    by_cases hin : key ∈ h.index
    · rw [if_pos hin, if_pos (hmem.mpr hin), hlookup]
    · rw [if_neg hin, if_neg (hmem.not.mpr hin), lookup_eq_if, lookup_eq_if, hlookup]
  rw [EntryHeap.add, EntryHeap.add]
  rw [hlast.size]
  obtain ⟨hsift, hidx⟩ := hlast.swapUp
    (EntryHeap.size ⟨h.heap ++ [key], insertNew h.index (key, value)⟩)
    (EntryHeap.size ⟨h.heap ++ [key], insertNew h.index (key, value)⟩ - 1)
  exact hsift.setIdx hidx key

theorem update (hs : SameHeap h h') (key : Fp) (freq : UInt32) :
    SameHeap (h.update key freq) (h'.update key freq) := by
  have hentry := hs.entries key
  rw [EntryHeap.getPriority, EntryHeap.getPriority] at hentry
  rw [EntryHeap.update, EntryHeap.update]
  rw [hentry, hs.keyAt]
  generalize ((h.index.lookup key).map HeapItem.idx).getD 0 = idx
  have hmod := hs.modifyItem (h.keyAt idx) fun item => { item with chunkFreq := freq }
  rw [hmod.size]
  generalize (h.modifyItem (h.keyAt idx) fun item => { item with chunkFreq := freq }) = g at hmod ⊢
  generalize (h'.modifyItem (h.keyAt idx) fun item => { item with chunkFreq := freq }) = g' at hmod ⊢
  obtain ⟨hup, hidx⟩ := hmod.swapUp g.size idx
  rw [hup.size, hidx]
  obtain ⟨hdown, hidx'⟩ := hup.swapDown (EntryHeap.swapUp g.size g idx).1.size
    (EntryHeap.swapUp g.size g idx).2
  exact hdown.setIdx hidx' key

theorem call (hs : SameHeap h h') (c : EntryHeap.Call) : SameHeap (h.call c) (h'.call c) := by
  cases c with
  | add key value => exact hs.add key value
  | pop => exact hs.pop
  | update key freq => exact hs.update key freq

/-- Every run of calls goes alike. -/
theorem run (hs : SameHeap h h') (calls : List EntryHeap.Call) :
    SameHeap (h.run calls) (h'.run calls) := by
  induction calls generalizing h h' with
  | nil => exact hs
  | cons c calls ih => exact ih (hs.call c)

theorem checkIfAddToHeap (hs : SameHeap h h') (env : Env) (chunkFreq : UInt32) :
    EcallFreqIndex.checkIfAddToHeap env h' chunkFreq =
      EcallFreqIndex.checkIfAddToHeap env h chunkFreq := by
  have htop : h'.topEntry = h.topEntry := hs.freqAt 0
  rw [EcallFreqIndex.checkIfAddToHeap, EcallFreqIndex.checkIfAddToHeap, hs.size, htop]

theorem entryCalls (hs : SameHeap h h') (env : Env) (e : InQueryEntry) :
    EcallFreqIndex.entryCalls env h' e = EcallFreqIndex.entryCalls env h e := by
  rw [EcallFreqIndex.entryCalls, hs.checkIfAddToHeap, hs.contains, hs.size,
    EcallFreqIndex.entryCalls]

theorem foldl_updateHeap (hs : SameHeap h h') (env : Env) (es : List InQueryEntry) :
    SameHeap (es.foldl (EcallFreqIndex.updateHeap env) h)
      (es.foldl (EcallFreqIndex.updateHeap env) h') := by
  induction es generalizing h h' with
  | nil => exact hs
  | cons e es ih =>
      have hone := hs.run (EcallFreqIndex.entryCalls env h e)
      rw [EcallFreqIndex.run_entryCalls, ← hs.entryCalls, EcallFreqIndex.run_entryCalls] at hone
      exact ih hone

end SameHeap

namespace EcallFreqIndex

/-! ## What comes back -/

/-- The entries of a valid heap, in the order of its list. -/
theorem exists_entries {h : EntryHeap} (hk : h.Kept) (hidx : h.size ≤ 2 ^ 32) :
    ∃ entries : List (Fp × HeapItem), entries.map Prod.fst = h.heap ∧
      ∀ p ∈ entries, h.getPriority p.1 = some p.2 ∧ p.2.idx < 2 ^ 32 := by
  refine ⟨h.heap.map fun k => (k, (h.getPriority k).getD ⟨RecipeEntry.ofBytes [], 0, 0⟩), ?_, ?_⟩
  · rw [List.map_map]
    exact List.map_id _
  · intro p hp
    obtain ⟨k, hmem, rfl⟩ := List.mem_map.mp hp
    obtain ⟨i, hi, rfl⟩ := EntryHeap.exists_keyAt hk.indexed ((hk.indexed.mem k).mp hmem)
    obtain ⟨item, hitem, hplace⟩ := Option.map_eq_some_iff.mp (hk.placed i hi)
    dsimp only
    rw [hitem]
    refine ⟨rfl, ?_⟩
    rw [Option.getD_some, hplace]
    omega

theorem length_flatMap_sealEntry {h : EntryHeap} {entries : List (Fp × HeapItem)}
    (hitems : ∀ p ∈ entries, h.getPriority p.1 = some p.2 ∧ p.2.idx < 2 ^ 32) :
    ((entries.map Prod.fst).flatMap (sealEntry h)).length =
      entries.length * (CHUNK_HASH_SIZE + sizeofHeapItem) := by
  induction entries with
  | nil => rfl
  | cons p entries ih =>
      obtain ⟨⟨hitem, -⟩, hrest⟩ := List.forall_mem_cons.mp hitems
      have hone : (sealEntry h p.1).length = CHUNK_HASH_SIZE + sizeofHeapItem := by
        rw [sealEntry, hitem, List.length_append, p.1.2]
        exact congrArg (32 + ·) p.2.length_toBytes
      rw [List.map_cons, List.flatMap_cons, List.length_append, ih hrest, hone, List.length_cons,
        Nat.succ_mul, Nat.add_comm]

/-- The file of a valid heap, and the heap it is read back as. -/
theorem loadEntries_persistHeap {h : EntryHeap} (hk : h.Kept) (hidx : h.size ≤ 2 ^ 32) :
    0 < (persistHeap h).length ∧
      SameHeap h (loadEntries (ofLe64 (persistHeap h)) ((persistHeap h).drop 8) .empty) := by
  obtain ⟨entries, hkeys, hitems⟩ := exists_entries hk hidx
  have hnum : entries.length = h.size := by rw [← List.length_map Prod.fst, hkeys, EntryHeap.size]
  have hlen := length_flatMap_sealEntry hitems
  rw [hkeys, hnum] at hlen
  have hfile : persistHeap h = le64 h.size ++ h.heap.flatMap (sealEntry h) := by
    have hsize : (le64 h.size ++ h.heap.flatMap (sealEntry h)).length =
        8 + h.size * (CHUNK_HASH_SIZE + sizeofHeapItem) := by
      rw [List.length_append, hlen]
      rfl
    rw [persistHeap, writeBufferToFile_eq, List.nil_append, List.drop_zero, ← hsize,
      List.take_length]
  have hdrop : (persistHeap h).drop 8 = h.heap.flatMap (sealEntry h) := by
    rw [hfile]
    rfl
  have hload := loadEntries_eq hitems .empty
  rw [hkeys, hnum] at hload
  rw [hdrop, hfile, ofLe64_le64 (by omega), hload]
  have hnum : 0 < (le64 h.size).length := Nat.zero_lt_succ 7
  refine ⟨by rw [List.length_append]; exact Nat.add_pos_left hnum _, rfl, fun k => ?_⟩
  -- the map is rebuilt from entries with distinct keys
  have hnd : (entries.map Prod.fst).Nodup := hkeys ▸ hk.indexed.nodup
  refine Option.ext fun item => ?_
  change (entries.foldl insertNew ∅).lookup k = some item ↔ _
  rw [lookup_foldl_insertNew entries hnd fun p _ => AList.notMem_empty _]
  constructor
  · rintro (hnone | hmem)
    · cases hnone
    · exact (hitems (k, item) hmem).1
  · intro hitem
    have hin : k ∈ entries.map Prod.fst := by
      rw [hkeys, hk.indexed.mem]
      rw [EntryHeap.getPriority] at hitem
      rw [EntryHeap.contains, hitem]
      rfl
    obtain ⟨p, hp, rfl⟩ := List.mem_map.mp hin
    have hsame := (hitems p hp).1.symm.trans hitem
    cases hsame
    exact Or.inr hp

theorem persistSketch_eq {sketch : EcallCMSketch} (h : Shaped sketch) :
    persistSketch sketch = sketch.counterArray.flatMap rowBytes := by
  rw [persistSketch, foldl_writeRows h, List.nil_append]

theorem loadRows_persistSketch {sketch : EcallCMSketch} (h : Shaped sketch) :
    loadRows sketch.width ⟨persistSketch sketch, false⟩
      (EcallCMSketch.init sketch.width sketch.counterArray.length).counterArray =
        sketch.counterArray := by
  rw [persistSketch_eq h, ← List.append_nil (sketch.counterArray.flatMap rowBytes)]
  refine loadRows_eq h [] (fun row hrow => ?_) List.length_replicate
  rw [List.eq_of_mem_replicate hrow, List.length_replicate]

/-- A sketch with a counter leaves a file that is not empty. -/
theorem length_persistSketch_pos {sketch : EcallCMSketch} (h : Shaped sketch)
    (hw : 1 ≤ sketch.width) (hd : 1 ≤ sketch.counterArray.length) :
    0 < (persistSketch sketch).length := by
  obtain ⟨row, rows, hrows⟩ := List.exists_cons_of_length_pos hd
  have hrow : row.length = sketch.width := h row (hrows ▸ List.mem_cons_self ..)
  rw [persistSketch_eq h, hrows, List.flatMap_cons, List.length_append, length_rowBytes, hrow]
  omega

/-- **Sealing the frequency index is lossless.** For every sketch with at least one
counter and every valid heap, a new index that loads what was persisted has the same
counters, the same list of the heap, the same entries with their places, and every
later sequence of calls goes as it would have gone. -/
theorem loadDedupIndex_persisted {sketch : EcallCMSketch} (hshape : Shaped sketch)
    (hw : 1 ≤ sketch.width) (hd : 1 ≤ sketch.counterArray.length) {h : EntryHeap} (hk : h.Kept)
    (hidx : h.size ≤ 2 ^ 32) (fresh : Mem) :
    ∃ h', loadDedupIndex fresh (persistSketch sketch) (persistHeap h)
        (.init sketch.width sketch.counterArray.length) .empty = (true, sketch, h') ∧
      h'.heap = h.heap ∧ (∀ k, h'.getPriority k = h.getPriority k) ∧
      (∀ i < h'.size, (h'.getPriority (h'.keyAt i)).map HeapItem.idx = some i) ∧
      (∀ calls : List EntryHeap.Call, (h'.run calls).heap = (h.run calls).heap ∧
        (∀ k, (h'.run calls).getPriority k = (h.run calls).getPriority k) ∧
        (∀ k, (h'.run calls).contains k = (h.run calls).contains k) ∧
        ∀ env chunkFreq, checkIfAddToHeap env (h'.run calls) chunkFreq =
          checkIfAddToHeap env (h.run calls) chunkFreq) ∧
      ∀ (env : Env) (es : List InQueryEntry),
        SameHeap (es.foldl (updateHeap env) h) (es.foldl (updateHeap env) h') := by
  obtain ⟨hpos, hsame⟩ := loadEntries_persistHeap hk hidx
  have hsketch := length_persistSketch_pos hshape hw hd
  have hread := readFileToBuffer_eq []
    (show 0 + (persistHeap h).length ≤ (slice fresh 0 (persistHeap h).length).length by
      rw [length_slice, Nat.zero_add])
  rw [writeAt_all (length_slice _ _ _), List.append_nil] at hread
  refine ⟨_, ?_, hsame.heap, hsame.entries, fun i hi => ?_, fun calls => ?_,
    hsame.foldl_updateHeap⟩
  · rw [loadDedupIndex, if_neg hsketch.ne', if_neg hpos.ne', hread]
    have hrows := loadRows_persistSketch hshape
    rw [show (EcallCMSketch.init sketch.width sketch.counterArray.length).width = sketch.width from rfl,
      hrows]
  · rw [hsame.keyAt, hsame.entries]
    exact hk.placed i (hsame.size ▸ hi)
  · have hrun := hsame.run calls
    exact ⟨hrun.heap, hrun.entries, hrun.contains, hrun.checkIfAddToHeap⟩

/-- A heap of three entries. -/
def threeEntries : EntryHeap :=
  ((EntryHeap.empty.add (BytesN.ofBytes 32 [1]) ⟨RecipeEntry.ofBytes [2], 3, 0⟩).add
    (BytesN.ofBytes 32 [4]) ⟨RecipeEntry.ofBytes [5], 9, 1⟩).add
    (BytesN.ofBytes 32 [6]) ⟨RecipeEntry.ofBytes [7], 2, 2⟩

theorem kept_threeEntries : threeEntries.Kept := by
  have hone : (EntryHeap.empty.add (BytesN.ofBytes 32 [1]) ⟨RecipeEntry.ofBytes [2], 3, 0⟩).Kept :=
    (EntryHeap.add_spec EntryHeap.kept_empty rfl _).1
  have htwo : ((EntryHeap.empty.add (BytesN.ofBytes 32 [1]) ⟨RecipeEntry.ofBytes [2], 3, 0⟩).add
      (BytesN.ofBytes 32 [4]) ⟨RecipeEntry.ofBytes [5], 9, 1⟩).Kept :=
    (EntryHeap.add_spec hone (by decide +kernel) _).1
  exact (EntryHeap.add_spec htwo (by decide +kernel) _).1

/-- A sketch of two rows, and three entries. -/
theorem loadDedupIndex_persisted_threeEntries : ∃ h',
    (loadDedupIndex (fun _ => 0) (persistSketch ⟨1, [[7], [9]]⟩) (persistHeap threeEntries)
      (.init 1 2) .empty) = (true, ⟨1, [[7], [9]]⟩, h') ∧ h'.heap = threeEntries.heap := by
  have hshape : Shaped ⟨1, [[7], [9]]⟩ := by
    intro row hrow
    rcases List.mem_pair.mp hrow with rfl | rfl <;> rfl
  obtain ⟨h', hload, hheap, -⟩ := loadDedupIndex_persisted hshape (by decide) (by decide)
    kept_threeEntries (by decide +kernel) fun _ => 0
  exact ⟨h', hload, hheap⟩

/-- Without a counter the sketch's file is empty, and the heap is not loaded. -/
theorem loadDedupIndex_noCounters : ¬ ∀ (sketch : EcallCMSketch), Shaped sketch →
    ∀ h : EntryHeap, h.Kept → ∀ fresh : Mem,
      (loadDedupIndex fresh (persistSketch sketch) (persistHeap h)
        (.init sketch.width sketch.counterArray.length) .empty).2.2.heap = h.heap := by
  intro hclaim
  have hkept : (EntryHeap.empty.add (BytesN.ofBytes 32 [1]) ⟨RecipeEntry.ofBytes [2], 3, 0⟩).Kept :=
    (EntryHeap.add_spec EntryHeap.kept_empty rfl _).1
  have hlost := hclaim ⟨1, []⟩ (fun row hrow => absurd hrow List.not_mem_nil) _ hkept fun _ => 0
  have hlen : (EntryHeap.empty.add (BytesN.ofBytes 32 [1])
      ⟨RecipeEntry.ofBytes [2], 3, 0⟩).heap.length = 1 :=
    (EntryHeap.add_spec EntryHeap.kept_empty rfl _).2.1
  rw [← hlost] at hlen
  cases hlen

end EcallFreqIndex

end ShieldReduce

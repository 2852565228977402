import ShieldReduce.Store.Persist

/-!
# The index files, string by string

The two files of `InMemoryDatabase` for keys and values of any length. A
size is written and read as an `int`, so a string of `2^31` bytes or more
does not survive (`reopen_longKey`); all shorter ones do, and every list
keeps its order (`reopen_maps`). `Persist` is the same for the lengths
that the enclave uses, on which the two agree (`openDB_store`).
-/

namespace ShieldReduce

open ByteLib UMapLib

/-! ## Output streams -/

/-- An `ofstream`. A negative count makes it bad, and a bad stream writes nothing. -/
structure OFStream where
  written : Bytes
  bad : Bool

namespace OFStream

def write (f : OFStream) (buf : Bytes) (n : Int) : OFStream :=
  if f.bad then f
  else if n < 0 then { f with bad := true }
  else ⟨f.written ++ buf.take n.toNat, false⟩

/-- `itemSize` as the `int` it is. -/
def intVal (x : UInt32) : Int := x.toBitVec.toInt

/-- `itemSize = str.size()`, then `itemSize` and that many bytes. -/
def writeString (f : OFStream) (str : Bytes) : OFStream :=
  let itemSize := UInt32.ofNat str.length
  (f.write (le32 itemSize) 4).write str (intVal itemSize)

end OFStream

open OFStream

/-! ## The maps and their files -/

/-- `indexObj_` and `sfObj_`. -/
structure IndexMaps where
  indexObj : UMap Bytes Bytes
  sfObj : Fin 3 → MultiMap Bytes Bytes

namespace IndexMaps

def empty : IndexMaps := ⟨∅, fun _ => ∅⟩

/-- A key and its value in the file `dbName_`. -/
def writeItem (f : OFStream) (p : Bytes × Bytes) : OFStream := (f.writeString p.1).writeString p.2

def dbFile (w : WalkOrder) (d : IndexMaps) : Bytes :=
  ((w.walk (pairs d.indexObj)).foldl writeItem ⟨[], false⟩).written

/-- A key and one of its values in the file `dbName_ + "_sf1"`. -/
def writeSfItem (version : Fin 3) (f : OFStream) (p : Bytes × Bytes) : OFStream :=
  writeItem (f.write (le32 (UInt32.ofNat version)) 4) p

/-- A key with all its values. -/
def writeSfList (version : Fin 3) (f : OFStream) (p : Bytes × NeList Bytes) : OFStream :=
  p.2.1.foldl (fun f value => writeSfItem version f (p.1, value)) f

def writeLevel (w : WalkOrder) (d : IndexMaps) (f : OFStream) (version : Fin 3) : OFStream :=
  (w.walk (pairs (d.sfObj version))).foldl (writeSfList version) f

def sfdbFile (w : WalkOrder) (d : IndexMaps) : Bytes :=
  ((List.finRange 3).foldl (writeLevel w d) ⟨[], false⟩).written

/-! ## Loading -/

/-- `fileSize` of `OpenDB`. `tellg` of a stream that could not be opened is -1,
before and after the `seekg` to the end. -/
def fileSize : Option Bytes → Int
  | none => -1 - -1
  | some bytes => bytes.length - 0

/-- `str.resize(itemSize, 0)`; a negative size is over `max_size()` and throws. -/
def resizeTo (str : Bytes) (itemSize : UInt32) : Option Bytes :=
  if intVal itemSize < 0 then none else some (resize str itemSize.toNat)

/-- The loop over the first file; `none` when a `resize` throws or the fuel runs out. -/
def loadDb : Nat → IFStream → (key value : Bytes) → UMap Bytes Bytes → Option (UMap Bytes Bytes)
  | 0, _, _, _, _ => none
  | fuel + 1, s, key, value, m =>
      let (itemSize, s) := s.readInt 0
      if itemSize = 0 then some m
      else do
        let key ← resizeTo key itemSize
        let (key, s) := s.read key
        let (itemSize, s) := s.readInt itemSize
        let value ← resizeTo value itemSize
        let (value, s) := s.read value
        let m := insertNew m (key, value)
        if s.eof then some m else loadDb fuel s key value m

/-- `sfObj_[sf_version][key].push_back(value)`; there is no fourth level. -/
def pushSf (sfObj : Fin 3 → MultiMap Bytes Bytes) (version : Nat) (p : Bytes × Bytes) :
    Fin 3 → MultiMap Bytes Bytes :=
  fun i => if i.1 = version then pushBack (sfObj i) p.1 p.2 else sfObj i

/-- The loop over the second file. -/
def loadSf : Nat → IFStream → (sfVersion : UInt32) → (key value : Bytes) →
    (Fin 3 → MultiMap Bytes Bytes) → Option (Fin 3 → MultiMap Bytes Bytes)
  | 0, _, _, _, _, _ => none
  | fuel + 1, s, sfVersion, key, value, m =>
      let (sfVersion, s) := s.readInt sfVersion
      let (itemSize, s) := s.readInt 0
      if itemSize = 0 then some m
      else do
        let key ← resizeTo key itemSize
        let (key, s) := s.read key
        let (itemSize, s) := s.readInt itemSize
        let value ← resizeTo value itemSize
        let (value, s) := s.read value
        let m := pushSf m sfVersion.toNat (key, value)
        if s.eof then some m else loadSf fuel s sfVersion key value m

/-- The first half of `OpenDB`. -/
def openIndex (fuel : Nat) (file : Option Bytes) : Option (UMap Bytes Bytes) :=
  if fileSize file = 0 then some ∅ else loadDb fuel ⟨file.getD [], false⟩ [] [] ∅

/-- The second half. -/
def openSf (fuel : Nat) (file : Option Bytes) : Option (Fin 3 → MultiMap Bytes Bytes) :=
  if fileSize file = 0 then some fun _ => ∅ else loadSf fuel ⟨file.getD [], false⟩ 0 [] [] fun _ => ∅

/-- `OpenDB` of a new object. -/
def openDB (fuel : Nat) (dbFile sfdbFile : Option Bytes) : Option IndexMaps := do
  let indexObj ← openIndex fuel dbFile
  let sfObj ← openSf fuel sfdbFile
  some ⟨indexObj, sfObj⟩

/-- `QuerySF`. -/
def querySF (d : IndexMaps) (key : Bytes) : Option Bytes :=
  (List.finRange 3).findSome? fun i =>
    (getList (d.sfObj i) ((key.drop (CHUNK_HASH_SIZE * i)).take CHUNK_HASH_SIZE)).head?

/-! ## Strings that fit -/

/-- The size of the string is an `int`. -/
def Fits (str : Bytes) : Prop := str.length < 2 ^ 31

instance (str : Bytes) : Decidable (Fits str) := inferInstanceAs (Decidable (str.length < 2 ^ 31))

theorem Fits.toNat {str : Bytes} (h : Fits str) : (UInt32.ofNat str.length).toNat = str.length := by
  have hlt : str.length < 2 ^ 31 := h
  rw [UInt32.toNat_ofNat']
  omega

theorem Fits.intVal {str : Bytes} (h : Fits str) :
    OFStream.intVal (UInt32.ofNat str.length) = str.length := by
  have hlt : str.length < 2 ^ 31 := h
  have hnat : (UInt32.ofNat str.length).toBitVec.toNat = str.length := h.toNat
  rw [OFStream.intVal, BitVec.toInt_eq_toNat_of_lt (by omega), hnat]

theorem Fits.ne_zero {str : Bytes} (h : Fits str) (hne : str ≠ []) : UInt32.ofNat str.length ≠ 0 := by
  intro h0
  have hnat := h.toNat
  rw [h0] at hnat
  exact hne (List.length_eq_zero_iff.mp hnat.symm)

theorem writeString_of_fits {str : Bytes} (h : Fits str) (b : Bytes) :
    (⟨b, false⟩ : OFStream).writeString str = ⟨b ++ putString str, false⟩ := by
  rw [writeString, h.intVal]
  have htake : str.take ((str.length : Int).toNat) = str := List.take_length
  have hneg : ¬ (str.length : Int) < 0 := by omega
  simp only [OFStream.write, htake, hneg, Bool.false_eq_true, if_false, putString]
  rw [← List.append_assoc]
  rfl

theorem resizeTo_of_fits {str : Bytes} (h : Fits str) (old : Bytes) :
    resizeTo old (UInt32.ofNat str.length) = some (resize old str.length) := by
  rw [resizeTo, h.intVal, h.toNat, if_neg (by omega)]

/-- A key and its value in a file. -/
def putItem (p : Bytes × Bytes) : Bytes := putString p.1 ++ putString p.2

def putSfItem (p : Fin 3 × Bytes × Bytes) : Bytes := le32 (UInt32.ofNat p.1) ++ putItem p.2

/-- A pair that the code can store. -/
structure ItemFits (p : Bytes × Bytes) : Prop where
  key : Fits p.1
  nonempty : p.1 ≠ []
  value : Fits p.2

theorem writeItem_of_fits {p : Bytes × Bytes} (h : ItemFits p) (b : Bytes) :
    writeItem ⟨b, false⟩ p = ⟨b ++ putItem p, false⟩ := by
  rw [writeItem, writeString_of_fits h.key, writeString_of_fits h.value, putItem, List.append_assoc]

theorem writeSfItem_of_fits {p : Bytes × Bytes} (h : ItemFits p) (i : Fin 3) (b : Bytes) :
    writeSfItem i ⟨b, false⟩ p = ⟨b ++ putSfItem (i, p), false⟩ := by
  have hversion : (⟨b, false⟩ : OFStream).write (le32 (UInt32.ofNat i)) 4 =
      ⟨b ++ le32 (UInt32.ofNat i), false⟩ := rfl
  rw [writeSfItem, hversion, writeItem_of_fits h, putSfItem, List.append_assoc]

/-! ## Writing -/

theorem foldl_writeItem {items : List (Bytes × Bytes)} (h : ∀ p ∈ items, ItemFits p) (b : Bytes) :
    items.foldl writeItem ⟨b, false⟩ = ⟨b ++ items.flatMap putItem, false⟩ := by
  induction items generalizing b with
  | nil => rw [List.flatMap_nil, List.append_nil, List.foldl_nil]
  | cons p items ih =>
      obtain ⟨hp, hitems⟩ := List.forall_mem_cons.mp h
      rw [List.foldl_cons, writeItem_of_fits hp, ih hitems, List.flatMap_cons, List.append_assoc]

theorem foldl_writeSfItem {i : Fin 3} {items : List (Bytes × Bytes)}
    (h : ∀ p ∈ items, ItemFits p) (b : Bytes) :
    items.foldl (writeSfItem i) ⟨b, false⟩ =
      ⟨b ++ (items.map fun p => (i, p)).flatMap putSfItem, false⟩ := by
  induction items generalizing b with
  | nil => rw [List.map_nil, List.flatMap_nil, List.append_nil, List.foldl_nil]
  | cons p items ih =>
      obtain ⟨hp, hitems⟩ := List.forall_mem_cons.mp h
      rw [List.foldl_cons, writeSfItem_of_fits hp, ih hitems, List.map_cons, List.flatMap_cons,
        List.append_assoc]

/-- What the destructor visits: levels, keys, and the elements of each list. -/
def sfItems (w : WalkOrder) (d : IndexMaps) : List (Fin 3 × Bytes × Bytes) :=
  (List.finRange 3).flatMap fun i => (elements w (d.sfObj i)).map fun p => (i, p)

/-- Maps that the code can store. -/
structure AllFit (d : IndexMaps) : Prop where
  index : ∀ k v, d.indexObj.lookup k = some v → ItemFits (k, v)
  sf : ∀ i k l, (d.sfObj i).lookup k = some l → ∀ v ∈ l.1, ItemFits (k, v)

theorem AllFit.walk {d : IndexMaps} (h : AllFit d) (w : WalkOrder) :
    ∀ p ∈ w.walk (pairs d.indexObj), ItemFits p :=
  fun p hp => h.index p.1 p.2 (mem_pairs.mp ((w.perm _).mem_iff.mp hp))

theorem AllFit.elements {d : IndexMaps} (h : AllFit d) (w : WalkOrder) (i : Fin 3) :
    ∀ p ∈ elements w (d.sfObj i), ItemFits p := by
  intro p hp
  obtain ⟨q, hq, hp⟩ := List.mem_flatMap.mp hp
  obtain ⟨v, hv, rfl⟩ := List.mem_map.mp hp
  exact h.sf i q.1 q.2 (mem_pairs.mp ((w.perm _).mem_iff.mp hq)) v hv

theorem AllFit.sfItems {d : IndexMaps} (h : AllFit d) (w : WalkOrder) :
    ∀ p ∈ sfItems w d, ItemFits p.2 := by
  intro p hp
  obtain ⟨i, -, hp⟩ := List.mem_flatMap.mp hp
  obtain ⟨q, hq, rfl⟩ := List.mem_map.mp hp
  exact h.elements w i q hq

theorem dbFile_of_fits (w : WalkOrder) {d : IndexMaps} (h : AllFit d) :
    dbFile w d = (w.walk (pairs d.indexObj)).flatMap putItem := by
  rw [dbFile, foldl_writeItem (h.walk w), List.nil_append]

theorem writeLevel_eq (w : WalkOrder) (d : IndexMaps) (f : OFStream) (i : Fin 3) :
    writeLevel w d f i = (elements w (d.sfObj i)).foldl (writeSfItem i) f := by
  rw [UMapLib.elements, List.foldl_flatMap]
  unfold writeLevel writeSfList
  congr 1
  funext f p
  rw [List.foldl_map]

theorem foldl_writeLevel (w : WalkOrder) {d : IndexMaps} (h : AllFit d) (levels : List (Fin 3))
    (b : Bytes) :
    levels.foldl (writeLevel w d) ⟨b, false⟩ =
      ⟨b ++ (levels.flatMap fun i =>
        (elements w (d.sfObj i)).map fun p => (i, p)).flatMap putSfItem, false⟩ := by
  induction levels generalizing b with
  | nil => rw [List.flatMap_nil, List.flatMap_nil, List.append_nil, List.foldl_nil]
  | cons i levels ih =>
      rw [List.foldl_cons, writeLevel_eq, foldl_writeSfItem (h.elements w i), ih,
        List.flatMap_cons, List.flatMap_append, List.append_assoc]

theorem sfdbFile_of_fits (w : WalkOrder) {d : IndexMaps} (h : AllFit d) :
    sfdbFile w d = (sfItems w d).flatMap putSfItem := by
  rw [sfdbFile, foldl_writeLevel w h, List.nil_append]
  rfl

/-! ## Reading -/

/-- A round of the first loop takes one item off the file. -/
theorem loadDb_step {p : Bytes × Bytes} (h : ItemFits p) (fuel : Nat) (rest key value : Bytes)
    (m : UMap Bytes Bytes) :
    loadDb (fuel + 1) ⟨putItem p ++ rest, false⟩ key value m =
      loadDb fuel ⟨rest, false⟩ p.1 p.2 (insertNew m p) := by
  rw [putItem, putString, putString, List.append_assoc, List.append_assoc, List.append_assoc]
  simp only [loadDb, IFStream.readInt_append, if_neg (h.key.ne_zero h.nonempty),
    resizeTo_of_fits h.key, Option.bind_eq_bind, Option.bind_some]
  rw [IFStream.read_append (length_resize key p.1.length).symm]
  simp only [IFStream.readInt_append, resizeTo_of_fits h.value, Option.bind_some]
  rw [IFStream.read_append (length_resize value p.2.length).symm]
  rfl

theorem loadDb_items {items : List (Bytes × Bytes)} (h : ∀ p ∈ items, ItemFits p) {fuel : Nat}
    (hfuel : items.length < fuel) (key value : Bytes) (m : UMap Bytes Bytes) :
    loadDb fuel ⟨items.flatMap putItem, false⟩ key value m = some (items.foldl insertNew m) := by
  obtain ⟨fuel, rfl⟩ : ∃ n, fuel = n + 1 := ⟨fuel - 1, by omega⟩
  induction items generalizing fuel key value m with
  | nil =>
      -- nothing is left: `itemSize` keeps its 0
      simp only [List.flatMap_nil, loadDb, IFStream.readInt_nil, if_true, List.foldl_nil]
  | cons p items ih =>
      obtain ⟨hp, hitems⟩ := List.forall_mem_cons.mp h
      rw [List.length_cons] at hfuel
      obtain ⟨fuel, rfl⟩ : ∃ n, fuel = n + 1 := ⟨fuel - 1, by omega⟩
      rw [List.flatMap_cons, loadDb_step hp, List.foldl_cons]
      exact ih hitems p.1 p.2 (insertNew m p) fuel (by omega)

theorem loadSf_step {p : Fin 3 × Bytes × Bytes} (h : ItemFits p.2) (fuel : Nat)
    (rest key value : Bytes) (version : UInt32) (m : Fin 3 → MultiMap Bytes Bytes) :
    loadSf (fuel + 1) ⟨putSfItem p ++ rest, false⟩ version key value m =
      loadSf fuel ⟨rest, false⟩ (UInt32.ofNat p.1) p.2.1 p.2.2 (pushSf m p.1 p.2) := by
  have hversion : (UInt32.ofNat p.1.1).toNat = p.1.1 := by
    have hlt := p.1.2
    rw [UInt32.toNat_ofNat']
    omega
  rw [putSfItem, putItem, putString, putString, List.append_assoc, List.append_assoc,
    List.append_assoc, List.append_assoc]
  simp only [loadSf, IFStream.readInt_append, if_neg (h.key.ne_zero h.nonempty),
    resizeTo_of_fits h.key, Option.bind_eq_bind, Option.bind_some]
  rw [IFStream.read_append (length_resize key p.2.1.length).symm]
  simp only [IFStream.readInt_append, resizeTo_of_fits h.value, Option.bind_some]
  rw [IFStream.read_append (length_resize value p.2.2.length).symm, hversion]
  rfl

theorem loadSf_items {items : List (Fin 3 × Bytes × Bytes)} (h : ∀ p ∈ items, ItemFits p.2)
    {fuel : Nat} (hfuel : items.length < fuel) (version : UInt32) (key value : Bytes)
    (m : Fin 3 → MultiMap Bytes Bytes) :
    loadSf fuel ⟨items.flatMap putSfItem, false⟩ version key value m =
      some (items.foldl (fun m p => pushSf m p.1 p.2) m) := by
  obtain ⟨fuel, rfl⟩ : ∃ n, fuel = n + 1 := ⟨fuel - 1, by omega⟩
  induction items generalizing fuel version key value m with
  | nil =>
      -- the read of `sf_version` fails, and the one of `itemSize` after it
      simp [loadSf, IFStream.readInt, IFStream.read, ofLe32, le32]
  | cons p items ih =>
      obtain ⟨hp, hitems⟩ := List.forall_mem_cons.mp h
      rw [List.length_cons] at hfuel
      obtain ⟨fuel, rfl⟩ : ∃ n, fuel = n + 1 := ⟨fuel - 1, by omega⟩
      rw [List.flatMap_cons, loadSf_step hp, List.foldl_cons]
      exact ih hitems (UInt32.ofNat p.1) p.2.1 p.2.2 (pushSf m p.1 p.2) fuel (by omega)

theorem putString_pos (str : Bytes) : 0 < (putString str).length := by
  rw [putString, List.length_append, length_le32]
  omega

theorem putItem_pos (p : Bytes × Bytes) : 0 < (putItem p).length := by
  rw [putItem, List.length_append]
  exact Nat.add_pos_left (putString_pos p.1) _

theorem putSfItem_pos (p : Fin 3 × Bytes × Bytes) : 0 < (putSfItem p).length := by
  rw [putSfItem, List.length_append]
  exact Nat.add_pos_right _ (putItem_pos p.2)

theorem fileSize_eq_zero {bytes : Bytes} : fileSize (some bytes) = 0 ↔ bytes = [] := by
  rw [fileSize, ← List.length_eq_zero_iff]
  omega

/-- A file without items counts as none. -/
theorem eq_nil_of_fileSize {α : Type} {put : α → Bytes} (hput : ∀ a, 0 < (put a).length)
    {items : List α} (h : fileSize (some (items.flatMap put)) = 0) : items = [] := by
  have hlen := InMemoryDatabase.length_le_flatMap hput items
  rw [fileSize_eq_zero.mp h] at hlen
  exact List.length_eq_zero_iff.mp (Nat.le_zero.mp hlen)

/-- Both loops end, with the items of the two files. -/
theorem openDB_items {items : List (Bytes × Bytes)} (h : ∀ p ∈ items, ItemFits p)
    {sfItems : List (Fin 3 × Bytes × Bytes)} (hsf : ∀ p ∈ sfItems, ItemFits p.2) {fuel : Nat}
    (hfuel : (items.flatMap putItem).length + (sfItems.flatMap putSfItem).length < fuel) :
    openDB fuel (some (items.flatMap putItem)) (some (sfItems.flatMap putSfItem)) =
      some ⟨items.foldl insertNew ∅, sfItems.foldl (fun m p => pushSf m p.1 p.2) fun _ => ∅⟩ := by
  have hlen := InMemoryDatabase.length_le_flatMap putItem_pos items
  have hsflen := InMemoryDatabase.length_le_flatMap putSfItem_pos sfItems
  have hdb : openIndex fuel (some (items.flatMap putItem)) = some (items.foldl insertNew ∅) := by
    unfold openIndex
    split
    · rename_i hzero
      rw [eq_nil_of_fileSize putItem_pos hzero]
      rfl
    · exact loadDb_items h (by omega) [] [] ∅
  have hsfdb : openSf fuel (some (sfItems.flatMap putSfItem)) =
      some (sfItems.foldl (fun m p => pushSf m p.1 p.2) fun _ => ∅) := by
    unfold openSf
    split
    · rename_i hzero
      rw [eq_nil_of_fileSize putSfItem_pos hzero]
      rfl
    · exact loadSf_items hsf (by omega) 0 [] [] _
  rw [openDB, hdb, hsfdb]
  rfl

/-! ## What was loaded -/

/-- The values of one level and key, in the order of the file. -/
def valuesAt (items : List (Fin 3 × Bytes × Bytes)) (i : Fin 3) (k : Bytes) : List Bytes :=
  (items.filter fun p => p.1 = i ∧ p.2.1 = k).map fun p => p.2.2

theorem getList_foldl_pushSf (items : List (Fin 3 × Bytes × Bytes))
    (m : Fin 3 → MultiMap Bytes Bytes) (i : Fin 3) (k : Bytes) :
    getList (items.foldl (fun m p => pushSf m p.1 p.2) m i) k =
      getList (m i) k ++ valuesAt items i k := by
  induction items generalizing m with
  | nil => simp [valuesAt]
  | cons p items ih =>
      rw [List.foldl_cons, ih, valuesAt, valuesAt, List.filter_cons]
      by_cases hi : p.1 = i
      · subst hi
        by_cases hk : p.2.1 = k
        · subst hk
          simp [pushSf, getList_pushBack]
        · simp [pushSf, getList_pushBack, hk, Ne.symm hk]
      · have hi' : i.1 ≠ p.1.1 := fun h => hi (Fin.ext h.symm)
        simp [pushSf, hi, hi']

theorem valuesAt_level (l : List (Bytes × Bytes)) (i j : Fin 3) (k : Bytes) :
    valuesAt (l.map fun p => (j, p)) i k =
      if j = i then (l.filter fun p => p.1 = k).map Prod.snd else [] := by
  rw [valuesAt, List.filter_map, List.map_map]
  by_cases hj : j = i
  · simp only [hj, if_true, Function.comp_def, true_and]
  · simp [hj, Function.comp_def]

theorem valuesAt_append (items items' : List (Fin 3 × Bytes × Bytes)) (i : Fin 3) (k : Bytes) :
    valuesAt (items ++ items') i k = valuesAt items i k ++ valuesAt items' i k := by
  rw [valuesAt, List.filter_append, List.map_append]
  rfl

/-- The destructor writes every list in its order. -/
theorem valuesAt_sfItems (w : WalkOrder) (d : IndexMaps) (i : Fin 3) (k : Bytes) :
    valuesAt (sfItems w d) i k = getList (d.sfObj i) k := by
  have hlevels : sfItems w d = (elements w (d.sfObj 0)).map (fun p => (0, p)) ++
      ((elements w (d.sfObj 1)).map (fun p => (1, p)) ++
        ((elements w (d.sfObj 2)).map (fun p => (2, p)) ++ [])) := rfl
  rw [hlevels, valuesAt_append, valuesAt_append, valuesAt_append, valuesAt_level, valuesAt_level,
    valuesAt_level, filter_elements, filter_elements, filter_elements]
  match i with
  | 0 => simp [valuesAt]
  | 1 => simp [valuesAt]
  | 2 => simp [valuesAt]

theorem querySF_congr {d d' : IndexMaps} (h : ∀ i k, getList (d'.sfObj i) k = getList (d.sfObj i) k)
    (key : Bytes) : querySF d' key = querySF d key := by
  unfold querySF
  simp only [h]

/-- **The index files decode to what was encoded.** For all maps with non-empty keys
and strings whose sizes are `int`s, `OpenDB` ends on the files of the destructor, with
the same fingerprint index and the same lists in the same order under every key of
every level, and with nothing else; without files, or on empty ones, it ends with the
empty index. -/
theorem reopen_maps (w : WalkOrder) {d : IndexMaps} (h : AllFit d) :
    (∃ d', (∀ fuel, (dbFile w d).length + (sfdbFile w d).length < fuel →
        openDB fuel (some (dbFile w d)) (some (sfdbFile w d)) = some d') ∧
      (∀ k, d'.indexObj.lookup k = d.indexObj.lookup k) ∧
      (∀ i k, (d'.sfObj i).lookup k = (d.sfObj i).lookup k) ∧
      ∀ key, querySF d' key = querySF d key) ∧
    ∀ fuel, ∀ db ∈ [none, some []], ∀ sfdb ∈ [none, some []], openDB fuel db sfdb = some empty := by
  have hperm := w.perm (pairs d.indexObj)
  have hnd : ((w.walk (pairs d.indexObj)).map Prod.fst).Nodup :=
    (hperm.map Prod.fst).nodup_iff.mpr (pairs_nodup_fst _)
  have hlists : ∀ i k, getList ((sfItems w d).foldl (fun m p => pushSf m p.1 p.2)
      (fun _ => ∅) i) k = getList (d.sfObj i) k := by
    intro i k
    rw [getList_foldl_pushSf, valuesAt_sfItems, getList_empty, List.nil_append]
  refine ⟨⟨⟨(w.walk (pairs d.indexObj)).foldl insertNew ∅,
    (sfItems w d).foldl (fun m p => pushSf m p.1 p.2) fun _ => ∅⟩, fun fuel hfuel => ?_,
    fun k => ?_, fun i k => lookup_eq_of_getList (hlists i k), querySF_congr hlists⟩,
    fun fuel db hdb sfdb hsfdb => ?_⟩
  · rw [dbFile_of_fits w h, sfdbFile_of_fits w h] at hfuel ⊢
    exact openDB_items (h.walk w) (h.sfItems w) hfuel
  · refine Option.ext fun v => ?_
    rw [lookup_foldl_insertNew _ hnd (fun p _ => AList.notMem_empty _), hperm.mem_iff, mem_pairs]
    simp
  · rcases List.mem_pair.mp hdb with rfl | rfl <;> rcases List.mem_pair.mp hsfdb with rfl | rfl <;> rfl

/-- One fingerprint, and a list of two under a super-feature of the second level. -/
def oneOfEach : IndexMaps where
  indexObj := (∅ : UMap Bytes Bytes).insert [1] [2, 0]
  sfObj := fun i => if i = 1 then (∅ : MultiMap Bytes Bytes).insert [0, 0] ⟨[[5], [6]], by simp⟩ else ∅

theorem allFit_oneOfEach : AllFit oneOfEach := by
  refine ⟨fun k v h => ?_, fun i k l h v hv => ?_⟩
  · rw [oneOfEach, lookup_eq_if] at h
    split at h
    · rename_i hk
      cases h
      subst hk
      exact ⟨by decide, by simp, by decide⟩
    · cases h
  · rw [oneOfEach] at h
    dsimp only at h
    split at h
    · rw [lookup_eq_if] at h
      split at h
      · rename_i hk
        cases h
        subst hk
        rcases List.mem_pair.mp hv with rfl | rfl
        · exact ⟨by decide, by simp, by decide⟩
        · exact ⟨by decide, by simp, by decide⟩
      · cases h
    · cases h

theorem reopen_maps_oneOfEach :
    ∃ d', (∀ fuel, (dbFile .stored oneOfEach).length + (sfdbFile .stored oneOfEach).length < fuel →
        openDB fuel (some (dbFile .stored oneOfEach)) (some (sfdbFile .stored oneOfEach)) = some d') ∧
      (∀ k, d'.indexObj.lookup k = oneOfEach.indexObj.lookup k) ∧
      (∀ i k, (d'.sfObj i).lookup k = (oneOfEach.sfObj i).lookup k) ∧
      ∀ key, querySF d' key = querySF oneOfEach key :=
  (reopen_maps .stored allFit_oneOfEach).1

/-- A key of `2^32` bytes has size 0 as an `int`. -/
theorem writeItem_longKey {key : Bytes} (hkey : key.length = 2 ^ 32) :
    (writeItem ⟨[], false⟩ (key, [])).written = le32 0 ++ (le32 0 ++ []) := by
  have hzero : UInt32.ofNat key.length = 0 := by
    rw [hkey]
    rfl
  have hsize : (⟨[], false⟩ : OFStream).write (le32 0) 4 = ⟨le32 0, false⟩ := rfl
  have hnone : (⟨le32 0, false⟩ : OFStream).write key (intVal 0) = ⟨le32 0, false⟩ := by
    change (⟨le32 0 ++ key.take 0, false⟩ : OFStream) = _
    rw [List.take_zero, List.append_nil]
  have hfirst : (⟨[], false⟩ : OFStream).writeString key = ⟨le32 0, false⟩ := by
    rw [writeString, hzero, hsize, hnone]
  rw [writeItem, hfirst]
  rfl

/-- The reader stops there. -/
theorem openIndex_longKey {key : Bytes} (hkey : key.length = 2 ^ 32) {fuel : Nat}
    {m : UMap Bytes Bytes}
    (h : openIndex fuel (some (writeItem ⟨[], false⟩ (key, [])).written) = some m) : m = ∅ := by
  have hsome : fileSize (some (le32 0 ++ (le32 0 ++ []))) ≠ 0 := by decide
  rw [writeItem_longKey hkey, openIndex, if_neg hsome, Option.getD_some] at h
  cases fuel with
  | zero => cases h
  | succ fuel =>
      simp only [loadDb, IFStream.readInt_append, if_true] at h
      exact (Option.some.inj h).symm

/-- A map with one key of `2^32` bytes comes back empty. -/
theorem reopen_longKey : ¬ ∀ (w : WalkOrder) (d : IndexMaps),
    (∀ k v, d.indexObj.lookup k = some v → k ≠ []) →
    (∀ i k l, (d.sfObj i).lookup k = some l → k ≠ []) →
    ∃ fuel d', openDB fuel (some (dbFile w d)) (some (sfdbFile w d)) = some d' ∧
      ∀ k, d'.indexObj.lookup k = d.indexObj.lookup k := by
  intro hclaim
  obtain ⟨key, hkey⟩ : ∃ key : Bytes, key.length = 2 ^ 32 :=
    ⟨List.replicate (2 ^ 32) 0, List.length_replicate⟩
  have hne : key ≠ [] := by
    rintro rfl
    cases hkey
  have hmap : ∀ k v, ((∅ : UMap Bytes Bytes).insert key []).lookup k = some v → k ≠ [] := by
    intro k v h
    rw [lookup_eq_if] at h
    split at h
    · rename_i hk
      rw [hk]
      exact hne
    · cases h
  obtain ⟨fuel, d', hopen, hsame⟩ := hclaim .stored
    ⟨(∅ : UMap Bytes Bytes).insert key [], fun _ => ∅⟩ hmap (fun i k l h => by cases h)
  have hfile : dbFile .stored ⟨(∅ : UMap Bytes Bytes).insert key [], fun _ => ∅⟩ =
      (writeItem ⟨[], false⟩ (key, [])).written := rfl
  rw [openDB, hfile] at hopen
  obtain ⟨m, hm, hrest⟩ := Option.bind_eq_some_iff.mp hopen
  obtain ⟨sfObj, -, hd⟩ := Option.bind_eq_some_iff.mp hrest
  cases hd
  have hlost := hsame key
  rw [openIndex_longKey hkey hm, AList.lookup_empty, AList.lookup_insert] at hlost
  cases hlost

/-! ## The lengths of the enclave -/

theorem valuesAt_strings (items : List (Fin 3 × Fp × Fp)) (i : Fin 3) (k : Fp) :
    valuesAt (items.map fun p => (p.1, p.2.1.1, p.2.2.1)) i k.1 =
      (InMemoryDatabase.itemsAt items i k).map Subtype.val := by
  induction items with
  | nil => rfl
  | cons p items ih =>
      rw [valuesAt, InMemoryDatabase.itemsAt] at ih ⊢
      rw [List.map_cons, List.filter_cons, List.filterMap_cons]
      by_cases hp : p.1 = i ∧ p.2.1 = k
      · have hp' : p.1 = i ∧ p.2.1.1 = k.1 := ⟨hp.1, congrArg Subtype.val hp.2⟩
        simp only [hp, and_self, decide_true, if_true, List.map_cons, ih]
      · have hp' : ¬ (p.1 = i ∧ p.2.1.1 = k.1) := fun h => hp ⟨h.1, Subtype.ext h.2⟩
        simp only [hp, hp', decide_false, Bool.false_eq_true, if_false, ih]

theorem itemFits_bytesN {m n : Nat} (hm : 0 < m) (hm' : m < 2 ^ 31) (hn : n < 2 ^ 31)
    (p : BytesN m × BytesN n) : ItemFits (p.1.1, p.2.1) := by
  refine ⟨?_, ?_, ?_⟩
  · exact (p.1.2.trans_lt hm' : p.1.1.length < 2 ^ 31)
  · exact List.ne_nil_of_length_pos (hm.trans_eq p.1.2.symm)
  · exact (p.2.2.trans_lt hn : p.2.1.length < 2 ^ 31)

/-- On the files of the store both readings agree. -/
theorem openDB_store (w : WalkOrder) (db : InMemoryDatabase) :
    ∃ d', (∀ fuel, (db.dbFile w).length + (db.sfdbFile w).length < fuel →
        openDB fuel (some (db.dbFile w)) (some (db.sfdbFile w)) = some d') ∧
      (∀ k : Fp, d'.indexObj.lookup k.1 = ((db.reopen w).indexObj.lookup k).map Subtype.val) ∧
      ∀ i (k : Fp), getList (d'.sfObj i) k.1 =
        (getList ((db.reopen w).sfObj i) k).map Subtype.val := by
  have hperm := w.perm (pairs db.indexObj)
  have hdb : db.dbFile w =
      ((w.walk (pairs db.indexObj)).map fun p => (p.1.1, p.2.1)).flatMap putItem := by
    rw [InMemoryDatabase.dbFile, List.flatMap_map]
    rfl
  have hsfdb : db.sfdbFile w =
      ((InMemoryDatabase.sfItems w db).map fun p => (p.1, p.2.1.1, p.2.2.1)).flatMap putSfItem := by
    rw [InMemoryDatabase.sfdbFile, List.flatMap_map]
    rfl
  have hfit : ∀ p ∈ (w.walk (pairs db.indexObj)).map (fun p => (p.1.1, p.2.1)), ItemFits p := by
    intro p hp
    obtain ⟨q, -, rfl⟩ := List.mem_map.mp hp
    exact itemFits_bytesN (by omega) (by omega) (by omega) q
  have hsffit : ∀ p ∈ (InMemoryDatabase.sfItems w db).map (fun p => (p.1, p.2.1.1, p.2.2.1)),
      ItemFits p.2 := by
    intro p hp
    obtain ⟨q, -, rfl⟩ := List.mem_map.mp hp
    exact itemFits_bytesN (by omega) (by omega) (by omega) q.2
  refine ⟨⟨((w.walk (pairs db.indexObj)).map fun p => (p.1.1, p.2.1)).foldl insertNew ∅,
    ((InMemoryDatabase.sfItems w db).map fun p => (p.1, p.2.1.1, p.2.2.1)).foldl
      (fun m p => pushSf m p.1 p.2) fun _ => ∅⟩, fun fuel hfuel => ?_, fun k => ?_, fun i k => ?_⟩
  · rw [hdb, hsfdb] at hfuel ⊢
    exact openDB_items hfit hsffit hfuel
  · have hnd : (((w.walk (pairs db.indexObj)).map fun p => (p.1.1, p.2.1)).map Prod.fst).Nodup := by
      rw [List.map_map]
      change ((w.walk (pairs db.indexObj)).map (Subtype.val ∘ Prod.fst)).Nodup
      rw [← List.map_map]
      exact ((hperm.map Prod.fst).nodup_iff.mpr (pairs_nodup_fst _)).map Subtype.val_injective
    rw [InMemoryDatabase.lookup_reopen]
    refine Option.ext fun v => ?_
    rw [lookup_foldl_insertNew _ hnd (fun p _ => AList.notMem_empty _), AList.lookup_empty,
      List.mem_map, Option.map_eq_some_iff]
    constructor
    · rintro (h | ⟨p, hp, heq⟩)
      · cases h
      · obtain ⟨hk, rfl⟩ := Prod.mk.inj heq
        refine ⟨p.2, ?_, rfl⟩
        rw [← Subtype.ext hk]
        exact mem_pairs.mp (hperm.mem_iff.mp hp)
    · rintro ⟨a, ha, rfl⟩
      exact Or.inr ⟨(k, a), hperm.mem_iff.mpr (mem_pairs.mpr ha), rfl⟩
  · rw [InMemoryDatabase.getList_reopen, getList_foldl_pushSf, getList_empty, List.nil_append,
      valuesAt_strings, InMemoryDatabase.itemsAt_sfItems]

end IndexMaps

end ShieldReduce

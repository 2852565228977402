import ShieldReduce.Lib.Stream
import ShieldReduce.Store.Database

/-!
# Closing and reopening the index store

The destructor of `InMemoryDatabase` writes the fingerprint index and
the super-feature multimaps to two files, and `OpenDB` reads them back.
Both files survive the round trip (`lookup_reopen`, `getList_reopen`);
the delta index and the log of base replacements are members of the same
object that neither function touches. The reopened store therefore
answers like the one that was closed exactly when these were empty
(`asks_reopen_iff`).
-/

namespace ShieldReduce

open ByteLib UMapLib

namespace InMemoryDatabase

/-! ## The two files -/

/-- A fingerprint and its value. -/
def putItem (p : Fp × Cipher) : Bytes := putString p.1.1 ++ putString p.2.1

/-- The file `dbName_`. -/
def dbFile (w : WalkOrder) (db : InMemoryDatabase) : Bytes :=
  (w.walk (pairs db.indexObj)).flatMap putItem

/-- One fingerprint under a super-feature of one of the three levels. -/
def putSfItem (p : Fin 3 × Fp × Fp) : Bytes :=
  le32 (UInt32.ofNat p.1) ++ (putString p.2.1.1 ++ putString p.2.2.1)

/-- What the destructor visits: levels, keys, and the elements of each list. -/
def sfItems (w : WalkOrder) (db : InMemoryDatabase) : List (Fin 3 × Fp × Fp) :=
  (List.finRange 3).flatMap fun i =>
    (w.walk (pairs (db.sfObj i))).flatMap fun p => p.2.1.map fun v => (i, p.1, v)

/-- The file `dbName_ + "_sf1"`. -/
def sfdbFile (w : WalkOrder) (db : InMemoryDatabase) : Bytes :=
  (sfItems w db).flatMap putSfItem

/-! ## Loading -/

/-- The loop of `OpenDB` over the first file. `key` and `value` are reused
from round to round; a read that fails leaves `itemSize` at 0. -/
def loadDb : Nat → IFStream → (key value : Bytes) → UMap Fp Cipher → UMap Fp Cipher
  | 0, _, _, _, m => m
  | fuel + 1, s, key, value, m =>
      let (itemSize, s) := s.readInt 0
      if itemSize = 0 then m
      else
        let (key, s) := s.read (resize key itemSize.toNat)
        let (value, s) := s.readString itemSize value
        let m := insertNew m (BytesN.ofBytes 32 key, BytesN.ofBytes 144 value)
        if s.eof then m else loadDb fuel s key value m

/-- `sfObj_[sf_version][key].push_back(value)`; there is no fourth level. -/
def pushSf (sfObj : Fin 3 → MultiMap Fp Fp) (version : Nat) (key value : Fp) :
    Fin 3 → MultiMap Fp Fp :=
  fun i => if i.1 = version then pushBack (sfObj i) key value else sfObj i

/-- The loop over the second file. -/
def loadSf : Nat → IFStream → (sfVersion : UInt32) → (key value : Bytes) →
    (Fin 3 → MultiMap Fp Fp) → Fin 3 → MultiMap Fp Fp
  | 0, _, _, _, _, m => m
  | fuel + 1, s, sfVersion, key, value, m =>
      let (sfVersion, s) := s.readInt sfVersion
      let (itemSize, s) := s.readInt 0
      if itemSize = 0 then m
      else
        let (key, s) := s.read (resize key itemSize.toNat)
        let (value, s) := s.readString itemSize value
        let m := pushSf m sfVersion.toNat (BytesN.ofBytes 32 key) (BytesN.ofBytes 32 value)
        if s.eof then m else loadSf fuel s sfVersion key value m

/-- `OpenDB` on a new object; a file that does not exist is like an empty one. -/
def openDB (dbFile sfdbFile : Bytes) : InMemoryDatabase :=
  { empty with
    indexObj := loadDb (dbFile.length + 1) ⟨dbFile, false⟩ [] [] ∅
    sfObj := loadSf (sfdbFile.length + 1) ⟨sfdbFile, false⟩ 0 [] [] fun _ => ∅ }

/-- The destructor, and a new object on its files. -/
def reopen (w : WalkOrder) (db : InMemoryDatabase) : InMemoryDatabase :=
  openDB (db.dbFile w) (db.sfdbFile w)

/-! ## The files are read back -/

theorem ofNat_ne_zero {n : Nat} (h0 : 0 < n) (h : n < 2 ^ 32) : UInt32.ofNat n ≠ 0 := by
  intro h'
  have := congrArg UInt32.toNat h'
  rw [UInt32.toNat_ofNat'] at this
  simp at this
  omega

theorem loadDb_items : ∀ (items : List (Fp × Cipher)) {fuel : Nat} {key value : Bytes}
    {m : UMap Fp Cipher}, items.length < fuel →
    loadDb fuel ⟨items.flatMap putItem, false⟩ key value m = items.foldl insertNew m
  | [], 0, _, _, _, h => absurd h (by simp)
  | [], fuel + 1, _, _, m, _ => by
      simp [loadDb, IFStream.readInt_nil]
  | _ :: _, 0, _, _, _, h => absurd h (by simp)
  | p :: items, fuel + 1, key, value, m, h => by
      have hk : p.1.1.length = 32 := p.1.2
      have hne := ofNat_ne_zero (n := p.1.1.length) (by omega) (by omega)
      have hto : (UInt32.ofNat p.1.1.length).toNat = p.1.1.length := by
        rw [UInt32.toNat_ofNat']
        omega
      rw [List.flatMap_cons, putItem, putString, List.append_assoc, List.append_assoc]
      simp only [loadDb, IFStream.readInt_append, if_neg hne, hto]
      rw [IFStream.read_append (by simp)]
      simp only
      rw [IFStream.readString_putString (by rw [p.2.2]; omega)]
      simp only [BytesN.ofBytes_val, List.foldl_cons, Bool.false_eq_true, if_false]
      exact loadDb_items items (by simpa using h)

theorem loadSf_items : ∀ (items : List (Fin 3 × Fp × Fp)) {fuel : Nat} {v : UInt32}
    {key value : Bytes} {m : Fin 3 → MultiMap Fp Fp}, items.length < fuel →
    loadSf fuel ⟨items.flatMap putSfItem, false⟩ v key value m =
      items.foldl (fun m p => pushSf m p.1 p.2.1 p.2.2) m
  | [], 0, _, _, _, _, h => absurd h (by simp)
  | [], fuel + 1, v, _, _, m, _ => by
      simp [loadSf, IFStream.readInt, IFStream.read, ofLe32, le32]
  | _ :: _, 0, _, _, _, _, h => absurd h (by simp)
  | p :: items, fuel + 1, v, key, value, m, h => by
      have hk : p.2.1.1.length = 32 := p.2.1.2
      have hne := ofNat_ne_zero (n := p.2.1.1.length) (by omega) (by omega)
      have hto : (UInt32.ofNat p.2.1.1.length).toNat = p.2.1.1.length := by
        rw [UInt32.toNat_ofNat']
        omega
      have hv : (UInt32.ofNat p.1.1).toNat = p.1.1 := by
        have := p.1.2
        rw [UInt32.toNat_ofNat']
        omega
      rw [List.flatMap_cons, putSfItem, putString, List.append_assoc, List.append_assoc,
        List.append_assoc]
      simp only [loadSf, IFStream.readInt_append, if_neg hne, hto]
      rw [IFStream.read_append (by simp)]
      simp only
      rw [IFStream.readString_putString (by rw [p.2.2.2]; omega)]
      simp only [BytesN.ofBytes_val, List.foldl_cons, Bool.false_eq_true, if_false, hv]
      exact loadSf_items items (by simpa using h)

theorem length_le_flatMap {α : Type} {f : α → Bytes} (hf : ∀ a, 0 < (f a).length) :
    ∀ l : List α, l.length ≤ (l.flatMap f).length
  | [] => by simp
  | a :: l => by
      have h := length_le_flatMap hf l
      have ha := hf a
      simp only [List.length_cons, List.flatMap_cons, List.length_append]
      omega

theorem putItem_pos (p : Fp × Cipher) : 0 < (putItem p).length := by
  rw [putItem, putString, List.length_append, List.length_append, length_le32]
  omega

theorem putSfItem_pos (p : Fin 3 × Fp × Fp) : 0 < (putSfItem p).length := by
  rw [putSfItem, List.length_append, length_le32]
  omega

/-- The fingerprint index survives. -/
theorem lookup_reopen (w : WalkOrder) (db : InMemoryDatabase) (k : Fp) :
    (db.reopen w).indexObj.lookup k = db.indexObj.lookup k := by
  have hperm := w.perm (pairs db.indexObj)
  have hlen := length_le_flatMap putItem_pos
    (w.walk (pairs db.indexObj))
  have hload : (db.reopen w).indexObj = (w.walk (pairs db.indexObj)).foldl insertNew ∅ := by
    simp only [reopen, openDB, dbFile]
    exact loadDb_items _ (by omega)
  have hnd : ((w.walk (pairs db.indexObj)).map Prod.fst).Nodup :=
    (hperm.map Prod.fst).nodup_iff.mpr (pairs_nodup_fst _)
  rw [hload]
  refine Option.ext fun v => ?_
  rw [lookup_foldl_insertNew _ hnd (fun p _ => AList.notMem_empty _), hperm.mem_iff, mem_pairs]
  simp

/-- The items of one level and key, in order. -/
def itemsAt (items : List (Fin 3 × Fp × Fp)) (i : Fin 3) (k : Fp) : List Fp :=
  items.filterMap fun p => if p.1 = i ∧ p.2.1 = k then some p.2.2 else none

theorem getList_foldl_pushSf : ∀ (items : List (Fin 3 × Fp × Fp)) {m : Fin 3 → MultiMap Fp Fp}
    (i : Fin 3) (k : Fp),
    getList (items.foldl (fun m p => pushSf m p.1 p.2.1 p.2.2) m i) k =
      getList (m i) k ++ itemsAt items i k
  | [], _, _, _ => by simp [itemsAt]
  | p :: items, m, i, k => by
      rw [List.foldl_cons, getList_foldl_pushSf items i k]
      simp only [itemsAt, List.filterMap_cons, pushSf]
      by_cases hi : p.1 = i
      · subst hi
        by_cases hk : p.2.1 = k
        · subst hk
          simp [getList_pushBack]
        · simp [getList_pushBack, hk, Ne.symm hk]
      · have hi' : i.1 ≠ p.1.1 := fun h => hi (Fin.ext h.symm)
        simp [hi, hi']

/-- What one level of the destructor's walk contributes under a key. -/
theorem itemsAt_level (i j : Fin 3) (k : Fp) (l : List (Fp × Fp)) :
    itemsAt (l.map fun p => (i, p.1, p.2)) j k =
      if i = j then (l.filter fun p => p.1 = k).map Prod.snd else [] := by
  induction l with
  | nil => simp [itemsAt]
  | cons p l ih =>
      simp only [itemsAt] at ih ⊢
      rw [List.map_cons, List.filterMap_cons, ih]
      by_cases hij : i = j
      · by_cases hk : p.1 = k <;> simp [hij, hk]
      · simp [hij]

/-- The destructor writes every list in its order. -/
theorem itemsAt_sfItems (w : WalkOrder) (db : InMemoryDatabase) (i : Fin 3) (k : Fp) :
    itemsAt (sfItems w db) i k = getList (db.sfObj i) k := by
  have hlevel : ∀ j : Fin 3, itemsAt ((w.walk (pairs (db.sfObj j))).flatMap
      fun p => p.2.1.map fun v => (j, p.1, v)) i k = if j = i then getList (db.sfObj j) k else [] := by
    intro j
    have helems : ((w.walk (pairs (db.sfObj j))).flatMap fun p => p.2.1.map fun v => (j, p.1, v)) =
        (elements w (db.sfObj j)).map fun p => (j, p.1, p.2) := by
      rw [elements, List.map_flatMap]
      simp only [List.map_map]
      rfl
    rw [helems, itemsAt_level, filter_elements]
  have hsplit : itemsAt (sfItems w db) i k =
      (List.finRange 3).flatMap fun j => if j = i then getList (db.sfObj j) k else [] := by
    rw [sfItems, itemsAt, List.filterMap_flatMap]
    exact List.flatMap_congr fun j _ => hlevel j
  rw [hsplit]
  have hrange : List.finRange 3 = [0, 1, 2] := rfl
  rw [hrange]
  have hcases : i = 0 ∨ i = 1 ∨ i = 2 := by omega
  rcases hcases with rfl | rfl | rfl
  · simp
  · simp
  · simp

/-- The super-feature lists survive, in their order. -/
theorem getList_reopen (w : WalkOrder) (db : InMemoryDatabase) (i : Fin 3) (k : Fp) :
    getList ((db.reopen w).sfObj i) k = getList (db.sfObj i) k := by
  have hlen := length_le_flatMap putSfItem_pos
    (sfItems w db)
  have hload : (db.reopen w).sfObj =
      (sfItems w db).foldl (fun m p => pushSf m p.1 p.2.1 p.2.2) fun _ => ∅ := by
    simp only [reopen, openDB, sfdbFile]
    exact loadSf_items _ (by omega)
  rw [hload, getList_foldl_pushSf, itemsAt_sfItems, getList_empty, List.nil_append]

/-! ## Answers of the store -/

/-- The requests that uploads, restores and offline passes make. -/
inductive Request where
  | queryBuffer (key : Fp)
  | querySF (sf : Sf)
  | queryDeltaIndex (base : Fp)
  | localrevise
  | getLocal

inductive Answer where
  | value (v : Option Cipher)
  | base (b : Option Fp)
  | deltas (ds : Option (List Fp))
  | done
  | pairs (ps : List (Fp × Fp))

def ask (w : WalkOrder) (db : InMemoryDatabase) : Request → Answer × InMemoryDatabase
  | .queryBuffer key => (.value (db.queryBuffer key), db)
  | .querySF sf => (.base (db.querySF sf), db)
  | .queryDeltaIndex base => ((.deltas (db.queryDeltaIndex base).1), (db.queryDeltaIndex base).2)
  | .localrevise => (.done, db.localrevise w)
  | .getLocal => (.pairs db.getLocal.1, db.getLocal.2)

/-- The answers to a sequence of requests. -/
def asks (w : WalkOrder) : InMemoryDatabase → List Request → List Answer
  | _, [] => []
  | db, r :: rs => (db.ask w r).1 :: asks w (db.ask w r).2 rs

/-- Nothing is held in the members that are not written to disk. -/
def NothingPending (db : InMemoryDatabase) : Prop :=
  db.deltaIndex = ∅ ∧ db.localTmpMap = ∅ ∧ db.localMap = []

/-- Two stores with nothing pending and the same contents on disk. -/
def SameOnDisk (db db' : InMemoryDatabase) : Prop :=
  db.NothingPending ∧ db'.NothingPending ∧
    (∀ k, db.indexObj.lookup k = db'.indexObj.lookup k) ∧
    ∀ i k, getList (db.sfObj i) k = getList (db'.sfObj i) k

theorem NothingPending.localrevise {db : InMemoryDatabase} (h : db.NothingPending)
    (w : WalkOrder) : (db.localrevise w).NothingPending := by
  obtain ⟨hd, ht, hl⟩ := h
  have hbase : greedyBasemap w db = ∅ := by
    have hnil : w.walk (pairs db.localTmpMap) = [] := by
      rw [ht]
      exact (w.perm _).eq_nil
    rw [greedyBasemap, hnil, List.foldl_nil]
  have hnil : w.walk (pairs (greedyBasemap w db)) = [] := by
    rw [hbase]
    exact (w.perm _).eq_nil
  refine ⟨hd, rfl, ?_⟩
  simp only [InMemoryDatabase.localrevise, hl, hnil, List.mergeSort_nil, List.append_nil]

theorem SameOnDisk.ask {db db' : InMemoryDatabase} (h : SameOnDisk db db') (w : WalkOrder)
    (r : Request) :
    (db.ask w r).1 = (db'.ask w r).1 ∧ SameOnDisk (db.ask w r).2 (db'.ask w r).2 := by
  have hsame := h
  obtain ⟨⟨hd, ht, hl⟩, ⟨hd', ht', hl'⟩, hfp, hsf⟩ := h
  cases r with
  | queryBuffer key => exact ⟨congrArg Answer.value (hfp key), hsame⟩
  | querySF sf =>
      refine ⟨congrArg Answer.base ?_, hsame⟩
      simp only [querySF, hsf]
  | queryDeltaIndex base =>
      simp only [InMemoryDatabase.ask, queryDeltaIndex, hd, hd', AList.lookup_empty]
      exact ⟨trivial, hsame⟩
  | localrevise => exact ⟨rfl, hsame.1.localrevise w, hsame.2.1.localrevise w, hfp, hsf⟩
  | getLocal =>
      have hkeep : ∀ d : InMemoryDatabase, d.localMap = [] → d.getLocal = ([], d) := by
        intro d hnil
        obtain ⟨_, _, _, _, lm, _⟩ := d
        subst hnil
        rfl
      simp only [InMemoryDatabase.ask, hkeep db hl, hkeep db' hl']
      exact ⟨trivial, hsame⟩

theorem SameOnDisk.asks {w : WalkOrder} : ∀ (rs : List Request) {db db' : InMemoryDatabase},
    SameOnDisk db db' → asks w db rs = asks w db' rs
  | [], _, _, _ => rfl
  | r :: rs, _, _, h => by
      obtain ⟨hans, hnext⟩ := h.ask w r
      rw [InMemoryDatabase.asks, InMemoryDatabase.asks, hans, SameOnDisk.asks rs hnext]

theorem sameOnDisk_reopen {db : InMemoryDatabase} (h : db.NothingPending) (w : WalkOrder) :
    SameOnDisk (db.reopen w) db :=
  ⟨⟨rfl, rfl, rfl⟩, h, lookup_reopen w db, getList_reopen w db⟩

/-- A store that has something pending answers differently from one that
was opened: some request takes it out. -/
theorem nothingPending_of_asks {w : WalkOrder} {db : InMemoryDatabase}
    (h : ∀ rs, asks w (db.reopen w) rs = asks w db rs) : db.NothingPending := by
  have hdelta : db.deltaIndex = ∅ := by
    refine eq_empty_of_lookup fun b => ?_
    have hb := h [.queryDeltaIndex b]
    simp only [asks, ask, queryDeltaIndex] at hb
    cases hl : db.deltaIndex.lookup b with
    | none => rfl
    | some ds =>
        rw [hl, show (db.reopen w).deltaIndex = ∅ from rfl] at hb
        simp at hb
  have hnil : (db.reopen w).localMap = [] := rfl
  have hlocal : db.localMap = [] := by
    have hb := h [.getLocal]
    simp only [asks, ask, List.cons.injEq, Answer.pairs.injEq, and_true] at hb
    exact getLocal_eq_nil_iff.mp (hb.symm.trans (getLocal_eq_nil_iff.mpr hnil))
  refine ⟨hdelta, ?_, hlocal⟩
  -- the log itself shows only after `Ocall_Localrevise`
  have hb := h [.localrevise, .getLocal]
  simp only [asks, ask, List.cons.injEq, Answer.pairs.injEq, and_true, true_and] at hb
  have hreopen : ((db.reopen w).localrevise w).localMap = [] :=
    (NothingPending.localrevise ⟨rfl, rfl, hnil⟩ w).2.2
  have hrev := getLocal_eq_nil_iff.mp (hb.symm.trans (getLocal_eq_nil_iff.mpr hreopen))
  refine eq_empty_of_lookup fun old => Option.eq_none_iff_forall_ne_some.mpr fun new hnew => ?_
  have hmem : old ∈ greedyBasemap w db :=
    mem_greedyBasemap (AList.lookup_isSome.mp (by rw [hnew]; rfl)) (Or.inl rfl)
  obtain ⟨n, hn⟩ := Option.isSome_iff_exists.mp (AList.lookup_isSome.mpr hmem)
  have hin := mem_localMap_localrevise.mpr (Or.inr (show _ = some (old, n).2 from hn))
  rw [hrev] at hin
  cases hin

/-- **The reopened store answers every sequence of requests like the one
that was closed exactly when** nothing was pending: no base had delta
chunks, and no base replacement was waiting for an offline pass. -/
theorem asks_reopen_iff (w : WalkOrder) (db : InMemoryDatabase) :
    (∀ rs, asks w (db.reopen w) rs = asks w db rs) ↔
      db.deltaIndex = ∅ ∧ db.localTmpMap = ∅ ∧ db.localMap = [] :=
  ⟨nothingPending_of_asks, fun h rs => (sameOnDisk_reopen h w).asks rs⟩

/-- The store after two uploads of one chunk each, the second chunk a
delta of the first. -/
def twoUploads : InMemoryDatabase :=
  let base : Fp := BytesN.ofBytes 32 [1]
  let delta : Fp := BytesN.ofBytes 32 [2]
  (((empty.insertBothBuffer base (BytesN.ofBytes 144 [3])).insertSF (BytesN.ofBytes 96 [4]) base
    .push).insertDeltaIndex base delta).insertBothBuffer delta (BytesN.ofBytes 144 [5])

/-- After the restart an offline pass does not find the delta of the base. -/
theorem asks_reopen_twoUploads :
    ¬ ∀ rs, asks .stored (twoUploads.reopen .stored) rs = asks .stored twoUploads rs := by
  intro h
  have hnone : getList twoUploads.deltaIndex (BytesN.ofBytes 32 [1]) = [] := by
    rw [(nothingPending_of_asks h).1]
    rfl
  revert hnone
  decide

end InMemoryDatabase

end ShieldReduce

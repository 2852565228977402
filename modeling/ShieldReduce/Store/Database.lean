import ShieldReduce.Store.Types

/-!
# The index store

`InMemoryDatabase`: the fingerprint index from encrypted fingerprints to
encrypted recipe entries, the three super-feature multimaps, the index
of the delta chunks of each base, and the log of base replacements that
uploads leave for the next offline pass, together with the cold-chunk
bookkeeping of that pass. The operations are the class's own and those
that the ocalls of `storeOCall.cc` perform on its members.
-/

namespace ShieldReduce

open ByteLib UMapLib

structure InMemoryDatabase where
  indexObj : UMap Fp Cipher
  sfObj : Fin 3 → MultiMap Fp Fp
  deltaIndex : MultiMap Fp Fp
  localTmpMap : UMap Fp Fp
  localMap : List (Fp × Fp)
  skipMap : MultiMap Fp Fp
  coldMap : MultiMap ContainerName (Nat × Nat)
  coldContainerVector : List ContainerName
  coldContainerSet : List ContainerName

namespace InMemoryDatabase

/-- The object before anything was loaded into it. -/
def empty : InMemoryDatabase where
  indexObj := ∅
  sfObj := fun _ => ∅
  deltaIndex := ∅
  localTmpMap := ∅
  localMap := []
  skipMap := ∅
  coldMap := ∅
  coldContainerVector := []
  coldContainerSet := []

/-! ## Fingerprints -/

def insertBothBuffer (db : InMemoryDatabase) (key : Fp) (value : Cipher) : InMemoryDatabase :=
  { db with indexObj := db.indexObj.insert key value }

def queryBuffer (db : InMemoryDatabase) (key : Fp) : Option Cipher := db.indexObj.lookup key

/-! ## Super-features -/

/-- The `updateflag` of `InsertSF`: 0, 1 or 2. -/
inductive UpdateFlag where
  | push
  | replace
  | remove

/-- One level of `InsertSF`. -/
def updateSF (m : MultiMap Fp Fp) (key value : Fp) : UpdateFlag → MultiMap Fp Fp
  | .push => pushBack m key value
  | .replace => pushBack (m.erase key) key value
  | .remove => m.erase key

def insertSF (db : InMemoryDatabase) (sf : Sf) (fp : Fp) (flag : UpdateFlag) :
    InMemoryDatabase :=
  { db with sfObj := fun i => updateSF (db.sfObj i) (sfKey sf i) fp flag }

/-- `QuerySF`: the front of the first list that one of the super-features has. -/
def querySF (db : InMemoryDatabase) (sf : Sf) : Option Fp :=
  (List.finRange 3).findSome? fun i => (getList (db.sfObj i) (sfKey sf i)).head?

/-- Some list of the super-feature index holds the fingerprint. -/
def InSF (db : InMemoryDatabase) (fp : Fp) : Prop :=
  ∃ (i : Fin 3) (key : Fp), fp ∈ getList (db.sfObj i) key

/-! ## Delta chunks of a base -/

def insertDeltaIndex (db : InMemoryDatabase) (base delta : Fp) : InMemoryDatabase :=
  { db with deltaIndex := pushBack db.deltaIndex base delta }

/-- `QueryDeltaIndex` erases what it answers. -/
def queryDeltaIndex (db : InMemoryDatabase) (base : Fp) :
    Option (List Fp) × InMemoryDatabase :=
  match db.deltaIndex.lookup base with
  | some result => (some result.1, { db with deltaIndex := db.deltaIndex.erase base })
  | none => (none, db)

/-! ## The log of base replacements -/

/-- `Local_Batch`. -/
def localBatch : Nat := 100

/-- One pair of `Ocall_LocalInsert`. A base that is replaced again keeps
its earlier replacement in `skipMap`. -/
def localInsert (db : InMemoryDatabase) (old new : Fp) : InMemoryDatabase :=
  let skipMap := match db.localTmpMap.lookup old with
    | some earlier => pushBack db.skipMap old earlier
    | none => db.skipMap
  { db with skipMap := skipMap, localTmpMap := db.localTmpMap.insert old new }

/-- `local_greedy_basemap`: the last replacement of each base, and the
superseded replacements to the last one. -/
def greedyBasemap (w : WalkOrder) (db : InMemoryDatabase) : UMap Fp Fp :=
  (w.walk (pairs db.localTmpMap)).foldl
    (fun m p => (getList db.skipMap p.1).foldl (fun m s => m.insert s p.2) (m.insert p.1 p.2)) ∅

/-- `Ocall_Localrevise`: the pairs go to `_local_map`, those with the most
delta chunks last, and the log is cleared. -/
def localrevise (w : WalkOrder) (db : InMemoryDatabase) : InMemoryDatabase :=
  let count := fun p : Fp × Fp => (getList db.deltaIndex p.1).length
  { db with
    localMap := db.localMap ++
      (w.walk (pairs (greedyBasemap w db))).mergeSort fun p q => count p ≤ count q
    localTmpMap := ∅
    skipMap := ∅ }

/-- `Ocall_GetLocal`: at most a batch of pairs from the back. -/
def getLocal (db : InMemoryDatabase) : List (Fp × Fp) × InMemoryDatabase :=
  let num := if localBatch < db.localMap.length then localBatch else db.localMap.length
  (db.localMap.reverse.take num, { db with localMap := db.localMap.take (db.localMap.length - num) })

/-- `Ocall_CleanLocalIndex`. -/
def cleanLocalIndex (db : InMemoryDatabase) : InMemoryDatabase := { db with localMap := [] }

/-- The log says that `new` is to take the place of `old`: as its last
replacement, or because `old` is an earlier replacement of a base whose
last one is `new`. -/
def Replaces (db : InMemoryDatabase) (old new : Fp) : Prop :=
  db.localTmpMap.lookup old = some new ∨
    ∃ base, db.localTmpMap.lookup base = some new ∧ old ∈ getList db.skipMap base

/-- One base of the log with the replacements it supersedes. -/
theorem lookup_greedy_step (db : InMemoryDatabase) (m : UMap Fp Fp) (p : Fp × Fp) (a : Fp) :
    ((getList db.skipMap p.1).foldl (fun m s => m.insert s p.2) (m.insert p.1 p.2)).lookup a =
      if a = p.1 ∨ a ∈ getList db.skipMap p.1 then some p.2 else m.lookup a := by
  rw [lookup_foldl_insert_const, lookup_eq_if]
  by_cases h1 : a ∈ getList db.skipMap p.1 <;> by_cases h2 : a = p.1 <;> simp [h1, h2]

/-- The pairs of an offline pass are those of the log. -/
theorem replaces_of_greedyBasemap {w : WalkOrder} {db : InMemoryDatabase} {old new : Fp}
    (h : (greedyBasemap w db).lookup old = some new) : db.Replaces old new := by
  have hfold : ∀ (l : List (Fp × Fp)) (m : UMap Fp Fp),
      (∀ p ∈ l, db.localTmpMap.lookup p.1 = some p.2) →
      (∀ a b, m.lookup a = some b → db.Replaces a b) →
      ∀ a b, (l.foldl (fun m p => (getList db.skipMap p.1).foldl (fun m s => m.insert s p.2)
        (m.insert p.1 p.2)) m).lookup a = some b → db.Replaces a b := by
    intro l
    induction l with
    | nil => exact fun m _ hm => hm
    | cons p l ih =>
        intro m hl hm
        refine ih _ (fun q hq => hl q (by simp [hq])) fun a b hab => ?_
        rw [lookup_greedy_step] at hab
        have hp := hl p (by simp)
        split at hab
        · rename_i hcase
          obtain rfl := Option.some.inj hab
          rcases hcase with rfl | hskip
          · exact Or.inl hp
          · exact Or.inr ⟨p.1, hp, hskip⟩
        · exact hm a b hab
  refine hfold _ ∅ (fun p hp => ?_) (fun a b hab => by cases hab) old new h
  exact mem_pairs.mp ((w.perm _).mem_iff.mp hp)

/-- Every base of the log, and every replacement it supersedes, is in some
pair. -/
theorem mem_greedyBasemap {w : WalkOrder} {db : InMemoryDatabase} {base old : Fp}
    (hbase : base ∈ db.localTmpMap) (hold : old = base ∨ old ∈ getList db.skipMap base) :
    old ∈ greedyBasemap w db := by
  have hfold : ∀ (l : List (Fp × Fp)) (m : UMap Fp Fp),
      (old ∈ m ∨ ∃ p ∈ l, old = p.1 ∨ old ∈ getList db.skipMap p.1) →
      old ∈ l.foldl (fun m p => (getList db.skipMap p.1).foldl (fun m s => m.insert s p.2)
        (m.insert p.1 p.2)) m := by
    intro l
    induction l with
    | nil =>
        rintro m (hm | ⟨p, hp, _⟩)
        · exact hm
        · cases hp
    | cons p l ih =>
        intro m hm
        refine ih _ ?_
        rcases hm with hm | ⟨q, hq, hcase⟩
        · refine Or.inl ?_
          rw [← AList.lookup_isSome, lookup_greedy_step]
          split
          · rfl
          · exact AList.lookup_isSome.mpr hm
        · rcases List.mem_cons.mp hq with rfl | hq'
          · refine Or.inl ?_
            rw [← AList.lookup_isSome, lookup_greedy_step, if_pos hcase]
            rfl
          · exact Or.inr ⟨q, hq', hcase⟩
  obtain ⟨new, hnew⟩ := Option.isSome_iff_exists.mp (AList.lookup_isSome.mpr hbase)
  refine hfold _ ∅ (Or.inr ⟨(base, new), ?_, hold⟩)
  exact (w.perm _).mem_iff.mpr (mem_pairs.mpr hnew)

/-- What `Ocall_Localrevise` appends. -/
theorem mem_localMap_localrevise {w : WalkOrder} {db : InMemoryDatabase} {p : Fp × Fp} :
    p ∈ (db.localrevise w).localMap ↔
      p ∈ db.localMap ∨ (greedyBasemap w db).lookup p.1 = some p.2 := by
  obtain ⟨old, new⟩ := p
  simp only [localrevise, List.mem_append, List.mem_mergeSort, (w.perm _).mem_iff, mem_pairs]

/-- A call of `Ocall_GetLocal` takes pairs off the list. -/
theorem getLocal_perm (db : InMemoryDatabase) : ∃ rest, db.getLocal.2 = { db with localMap := rest } ∧
    db.localMap.Perm (db.getLocal.1 ++ rest) := by
  refine ⟨_, rfl, ?_⟩
  unfold getLocal
  dsimp only
  generalize (if localBatch < db.localMap.length then localBatch else db.localMap.length) = num
  have hback : (db.localMap.reverse.take num).Perm
      (db.localMap.drop (db.localMap.length - num)) := by
    rw [List.take_reverse]
    exact List.reverse_perm _
  refine List.Perm.trans ?_ (hback.symm.append_right _)
  refine List.Perm.trans ?_ List.perm_append_comm
  rw [List.take_append_drop]

/-- A call of `Ocall_GetLocal` answers nothing only when nothing is left. -/
theorem getLocal_eq_nil_iff {db : InMemoryDatabase} : db.getLocal.1 = [] ↔ db.localMap = [] := by
  simp only [getLocal, List.take_eq_nil_iff, List.reverse_eq_nil_iff]
  constructor
  · rintro (hnum | hnil)
    · split at hnum
      · cases hnum
      · exact List.length_eq_zero_iff.mp hnum
    · exact hnil
  · exact Or.inr

/-! ## Cold chunks -/

/-- `Ocall_ColdInsert`: the range of a chunk that has moved away. -/
def coldInsert (db : InMemoryDatabase) (container : ContainerName) (offset length : Nat) :
    InMemoryDatabase :=
  { db with
    coldMap := pushBack db.coldMap container (offset, length)
    coldContainerSet := if container ∈ db.coldContainerSet then db.coldContainerSet
      else container :: db.coldContainerSet }

/-- The order of `std::string`. -/
def nameLe (a b : ContainerName) : Bool :=
  decide (a.1.map UInt8.toNat ≤ b.1.map UInt8.toNat)

/-- `Ocall_Coldrevise`: the set goes to the vector, in the set's order. -/
def coldrevise (db : InMemoryDatabase) : InMemoryDatabase :=
  { db with
    coldContainerVector := db.coldContainerVector ++ db.coldContainerSet.mergeSort nameLe
    coldContainerSet := [] }

/-- `Ocall_GetCold` with `Cold_Batch` 1: the last container of the vector
with its ranges, last one first. -/
def getCold (db : InMemoryDatabase) :
    Option (ContainerName × List (Nat × Nat)) × InMemoryDatabase :=
  match db.coldContainerVector.getLast? with
  | some container =>
      (some (container, (getList db.coldMap container).reverse),
        { db with
          coldMap := db.coldMap.erase container
          coldContainerVector := db.coldContainerVector.dropLast })
  | none => (none, db)

end InMemoryDatabase

end ShieldReduce

import ShieldReduce.Invariant.Compaction
import ShieldReduce.System.Encryptions

/-!
# Merging base containers

`MergeContainer` is a loop over ocalls that share a list of pairs and a
done flag. It ends, it does to the containers what `mergeContainer` does,
and that is: the pairs are neighbours in the order of the names, the
first container of a pair gets the records of the second behind its own,
the second is removed, and the index follows the records that moved.
Nothing else changes.
-/

namespace ShieldReduce

open ByteLib UMapLib LoopLib TilingLib CatalogLib

variable {env : Env} {B : ContainerName → Option (List Record)} {p : Pass}

/-! ## The loop over the ocalls -/

/-- `baseMergePair` and `jobDoneFlag` of the client, and the variables of the pass. -/
structure Merging where
  pass : Pass
  baseMergePair : List (ContainerName × ContainerName)
  jobDoneFlag : Bool

/-- The base containers, in the order of their names. -/
def baseContainerList (s : Server) : List ContainerName :=
  (s.containers .base).keys.insertionSort fun a b => InMemoryDatabase.nameLe a b = true

namespace OFFLineBackward

/-- `Ocall_GetMergeContainer`. -/
def ocallGetMergeContainer (m : Merging) : Merging :=
  let baseMergePair := m.baseMergePair ++
    getMergePairs (fun n => (baseFile m.pass.server n).length) (baseContainerList m.pass.server)
  { m with baseMergePair := baseMergePair, jobDoneFlag := baseMergePair.isEmpty }

/-- The enclave's loop over the second container of a pair. -/
def mergeWalk (env : Env) (p : Pass) (pair : ContainerName × ContainerName) : Moving :=
  let second := baseFile p.server pair.2
  moveUpTo env (fun e => { e with
      offset := e.offset + UInt32.ofNat (baseFile p.server pair.1).length, containerName := pair.1 })
    (writeAt p.mergeContainer 0 second) second.length ⟨0, [], p.server.db⟩

/-- One round: `Ocall_GetMergePair` takes the first pair or finds none, and
`Ocall_MergeContent` drops it from the list. -/
def mergeRound (env : Env) (m : Merging) : Merging :=
  match m.baseMergePair with
  | [] => { m with jobDoneFlag := true }
  | pair :: rest => { m with pass := mergePair env m.pass pair, baseMergePair := rest }

/-- `while (jobDoneFlag != 1)`. -/
def mergeLoop (env : Env) (fuel : Nat) (m : Merging) : Merging :=
  whileLoop (fun m => !m.jobDoneFlag) (mergeRound env) fuel m

/-- The loop is left when the list is empty, and every pair was merged. -/
theorem mergeLoop_eq (l : List (ContainerName × ContainerName)) {fuel : Nat} {p : Pass}
    (hfuel : l.length < fuel) :
    mergeLoop env fuel ⟨p, l, false⟩ = ⟨l.foldl (mergePair env) p, [], true⟩ := by
  induction l generalizing fuel p with
  | nil =>
      obtain ⟨fuel, rfl⟩ : ∃ n, fuel = n + 1 := ⟨fuel - 1, by omega⟩
      cases fuel <;> rfl
  | cons pair l ih =>
      obtain ⟨fuel, rfl⟩ : ∃ n, fuel = n + 1 := ⟨fuel - 1, by omega⟩
      rw [List.length_cons] at hfuel
      exact @ih fuel (mergePair env p pair) (by omega)

/-- `MergeContainer` as a whole, from a client that has no pairs left over. -/
theorem mergeLoop_mergeContainer (p : Pass) (jobDoneFlag : Bool) {fuel : Nat}
    (hfuel : (getMergePairs (fun n => (baseFile p.server n).length)
      (baseContainerList p.server)).length < fuel) :
    mergeLoop env fuel (ocallGetMergeContainer ⟨p, [], jobDoneFlag⟩) = ⟨mergeContainer env p, [], true⟩ := by
  unfold ocallGetMergeContainer
  dsimp only
  rw [List.nil_append]
  have hmerged : mergeContainer env p = (getMergePairs (fun n => (baseFile p.server n).length)
      (baseContainerList p.server)).foldl (mergePair env) p := rfl
  rw [hmerged]
  generalize getMergePairs _ (baseContainerList p.server) = l at hfuel ⊢
  cases l with
  | nil =>
      obtain ⟨fuel, rfl⟩ : ∃ n, fuel = n + 1 := ⟨fuel - 1, by omega⟩
      rfl
  | cons pair l => exact mergeLoop_eq (pair :: l) hfuel

end OFFLineBackward

/-! ## The pairs -/

theorem baseContainerList_perm (s : Server) :
    (baseContainerList s).Perm (s.containers .base).keys :=
  List.perm_insertionSort _ _

theorem baseContainerList_sorted (s : Server) :
    (baseContainerList s).Pairwise fun a b => InMemoryDatabase.nameLe a b = true := by
  have htotal : Std.Total fun a b : ContainerName => InMemoryDatabase.nameLe a b = true := by
    refine ⟨fun a b => ?_⟩
    simp only [InMemoryDatabase.nameLe, decide_eq_true_eq]
    exact le_total _ _
  have htrans : IsTrans ContainerName fun a b => InMemoryDatabase.nameLe a b = true := by
    refine ⟨fun a b c hab hbc => ?_⟩
    simp only [InMemoryDatabase.nameLe, decide_eq_true_eq] at hab hbc ⊢
    exact le_trans hab hbc
  exact List.pairwise_insertionSort _ _

/-- The containers of a pair are neighbours. -/
theorem getMergePairs_infix (size : ContainerName → Nat) (l : List ContainerName) :
    ∀ q ∈ OFFLineBackward.getMergePairs size l, [q.1, q.2] <:+: l := by
  induction l using OFFLineBackward.getMergePairs.induct size with
  | case1 first second rest hsmall ih =>
      rw [OFFLineBackward.getMergePairs, if_pos hsmall]
      intro q hq
      rcases List.mem_cons.mp hq with rfl | hq
      · exact ⟨[], rest, rfl⟩
      · exact ((ih q hq).trans (List.infix_cons (List.infix_refl _))).trans
          (List.infix_cons (List.infix_refl _))
  | case2 first second rest hlarge ih =>
      rw [OFFLineBackward.getMergePairs, if_neg hlarge]
      exact fun q hq => (ih q hq).trans (List.infix_cons (List.infix_refl _))
  | case3 l hl =>
      intro q hq
      unfold OFFLineBackward.getMergePairs at hq
      split at hq
      · rename_i first second rest
        exact absurd rfl (hl first second rest)
      · cases hq

/-! ## One pair -/

/-- The records of a base container, none where there is no file. -/
def recordsOf (B : ContainerName → Option (List Record)) (n : ContainerName) : List Record :=
  (B n).getD []

/-- The record moves down by `len`, into the container `name`. -/
def Record.shiftDown (name : ContainerName) (len : Nat) (r : Record) : Record :=
  { r with entry :=
      { r.entry with offset := r.entry.offset + UInt32.ofNat len, containerName := name } }

/-- Records that are moved one after the other all move by the same amount. -/
theorem relocate_eq_map {name : ContainerName} {off len : Nat} {ts : List Record}
    (htiles : records.Tiles off ts) :
    relocate name (off + len) ts = ts.map (Record.shiftDown name len) := by
  induction ts generalizing off with
  | nil => rfl
  | cons r ts ih =>
      obtain ⟨hstart, htiles⟩ := htiles
      have hr : r.moveTo name (off + len) = r.shiftDown name len := by
        rw [Record.shiftDown, @shiftDown_entry r name len (off + len) (by rw [← hstart]; rfl)]
        rfl
      rw [relocate, List.map_cons, hr, ← ih htiles, records_bytes, Nat.add_right_comm]

/-- The records of the second container, at their new place. -/
def movedRecords (B : ContainerName → Option (List Record)) (q : ContainerName × ContainerName) :
    List Record :=
  (recordsOf B q.2).map (Record.shiftDown q.1 (records.flat (recordsOf B q.1)).length)

/-- The base containers of a store are tiled by the records `B`. -/
structure BaseTiled (B : ContainerName → Option (List Record)) (s : Server) : Prop where
  holds : ∀ n rs, B n = some rs → Holds n (records.flat rs) rs
  lookup : ∀ n, (s.containers .base).lookup n = (B n).map records.flat

/-- The walk over the second container ends at its end. -/
theorem mergeWalk_saveset {a b : ContainerName} {ts : List Record}
    (hb : (p.server.containers .base).lookup b = some (records.flat ts))
    (hholds : Holds b (records.flat ts) ts) :
    (OFFLineBackward.mergeWalk env p (a, b)).saveset = (OFFLineBackward.baseFile p.server b).length := by
  have hfile : OFFLineBackward.baseFile p.server b = records.flat ts := by
    rw [OFFLineBackward.baseFile, hb]
    rfl
  have hfound : ∀ r ∈ ts, r.FoundIn (writeAt p.mergeContainer 0 (records.flat ts)) :=
    fun r hr => hholds.found hr (prefix_writeAt _ _)
  unfold OFFLineBackward.mergeWalk moveUpTo
  dsimp only
  rw [hfile, moveUpTo_spec ts hholds.tiles hfound (fun r hr => (hholds.placed r hr).2)
    (fun r hr off' hoff => shiftDown_entry (by simpa using hoff)) (by simp) (length_le_flat ts)]

/-- What the merge of a pair leaves in the directories, and in the index. -/
theorem mergePair_effect {a b : ContainerName} {rs ts : List Record}
    (ha : (p.server.containers .base).lookup a = some (records.flat rs))
    (hb : (p.server.containers .base).lookup b = some (records.flat ts))
    (hholds : Holds b (records.flat ts) ts) :
    (∀ n, ((OFFLineBackward.mergePair env p (a, b)).server.containers .base).lookup n =
      if n = b then none
      else if n = a then some (records.flat (rs ++ relocate a (records.flat rs).length ts))
      else (p.server.containers .base).lookup n) ∧
    (OFFLineBackward.mergePair env p (a, b)).server.containers .delta = p.server.containers .delta ∧
    (OFFLineBackward.mergePair env p (a, b)).server.db =
      p.server.db.reindex env (relocate a (records.flat rs).length ts) := by
  have hserver := @server_mergePair env p a b rs ts ha hb hholds
  generalize OFFLineBackward.mergePair env p (a, b) = p' at hserver ⊢
  rw [hserver]
  refine ⟨fun n => ?_, rfl, rfl⟩
  dsimp only
  rw [lookup_erase_if]
  split
  · rfl
  · exact lookup_eq_if

/-! ## All pairs -/

/-- The containers and the index after pairs were merged: `p` before, `p'`
after. -/
structure Merged (env : Env) (B : ContainerName → Option (List Record)) (p p' : Pass)
    (l : List (ContainerName × ContainerName)) : Prop where
  first : ∀ q ∈ l, (p'.server.containers .base).lookup q.1 =
    some (records.flat (recordsOf B q.1 ++ movedRecords B q))
  second : ∀ q ∈ l, (p'.server.containers .base).lookup q.2 = none
  others : ∀ n, (∀ q ∈ l, n ≠ q.1 ∧ n ≠ q.2) →
    (p'.server.containers .base).lookup n = (p.server.containers .base).lookup n
  delta : p'.server.containers .delta = p.server.containers .delta
  index : p'.server.db = p.server.db.reindex env (l.flatMap (movedRecords B))

/-- One pair after the other. `B` describes the containers of the pairs that
are still to come. -/
theorem merged_foldl (l : List (ContainerName × ContainerName)) {p : Pass}
    (hnd : (l.flatMap fun q => [q.1, q.2]).Nodup)
    (hholds : ∀ n rs, B n = some rs → Holds n (records.flat rs) rs)
    (hB : ∀ q ∈ l, ∀ n ∈ [q.1, q.2], (B n).isSome ∧
      (p.server.containers .base).lookup n = (B n).map records.flat) :
    Merged env B p (l.foldl (OFFLineBackward.mergePair env) p) l := by
  induction l generalizing p with
  | nil =>
      exact
        { first := fun q hq => by cases hq
          second := fun q hq => by cases hq
          others := fun n _ => rfl
          delta := rfl
          index := rfl }
  | cons q l ih =>
      obtain ⟨a, b⟩ := q
      obtain ⟨ha, hlooka⟩ := hB (a, b) (List.mem_cons_self ..) a (by simp)
      obtain ⟨hb, hlookb⟩ := hB (a, b) (List.mem_cons_self ..) b (by simp)
      obtain ⟨rs, hrs⟩ := Option.isSome_iff_exists.mp ha
      obtain ⟨ts, hts⟩ := Option.isSome_iff_exists.mp hb
      rw [hrs] at hlooka
      rw [hts] at hlookb
      rw [List.flatMap_cons] at hnd
      obtain ⟨hab, hl, hapart⟩ := List.nodup_append.mp hnd
      have hne : a ≠ b := by simpa using hab
      obtain ⟨hbase, hdelta, hdb⟩ :=
        @mergePair_effect env p a b rs ts hlooka hlookb (hholds b ts hts)
      -- the containers of the other pairs are still the same
      have hfar : ∀ q ∈ l, ∀ n ∈ [q.1, q.2], n ≠ a ∧ n ≠ b := by
        intro q hq n hn
        have hmem : n ∈ l.flatMap fun q => [q.1, q.2] := List.mem_flatMap.mpr ⟨q, hq, hn⟩
        exact ⟨fun h => hapart a (by simp) n hmem h.symm, fun h => hapart b (by simp) n hmem h.symm⟩
      have hkeep : ∀ n, n ≠ a → n ≠ b →
          ((OFFLineBackward.mergePair env p (a, b)).server.containers .base).lookup n =
            (p.server.containers .base).lookup n := by
        intro n hna hnb
        rw [hbase, if_neg hnb, if_neg hna]
      have hrest := @ih (OFFLineBackward.mergePair env p (a, b)) hl (fun q hq n hn => by
        obtain ⟨hsome, hlook⟩ := hB q (List.mem_cons_of_mem _ hq) n hn
        obtain ⟨hna, hnb⟩ := hfar q hq n hn
        exact ⟨hsome, (hkeep n hna hnb).trans hlook⟩)
      rw [List.foldl_cons]
      generalize OFFLineBackward.mergePair env p (a, b) = p₁ at hbase hdelta hdb hkeep hrest
      generalize l.foldl (OFFLineBackward.mergePair env) p₁ = p' at hrest ⊢
      have hmoved : movedRecords B (a, b) = relocate a (records.flat rs).length ts := by
        have hmap := @relocate_eq_map a 0 (records.flat rs).length ts (hholds b ts hts).tiles
        rw [Nat.zero_add] at hmap
        rw [hmap, movedRecords, recordsOf, recordsOf, hrs, hts]
        rfl
      constructor
      · intro q hq
        rcases List.mem_cons.mp hq with rfl | hq
        · rw [hrest.others a (fun q hq => ⟨((hfar q hq q.1 (by simp)).1).symm,
            ((hfar q hq q.2 (by simp)).1).symm⟩), hbase, if_neg hne, if_pos rfl, hmoved, recordsOf, hrs]
          rfl
        · exact hrest.first q hq
      · intro q hq
        rcases List.mem_cons.mp hq with rfl | hq
        · rw [hrest.others b (fun q hq => ⟨((hfar q hq q.1 (by simp)).2).symm,
            ((hfar q hq q.2 (by simp)).2).symm⟩), hbase, if_pos rfl]
        · exact hrest.second q hq
      · intro n hn
        obtain ⟨hna, hnb⟩ := hn (a, b) (List.mem_cons_self ..)
        rw [hrest.others n fun q hq => hn q (List.mem_cons_of_mem _ hq)]
        exact hkeep n hna hnb
      · exact hrest.delta.trans hdelta
      · rw [hrest.index, hdb, List.flatMap_cons, hmoved, InMemoryDatabase.reindex_append]

/-! ## The merge of a store -/

/-- The pairs of a store. -/
def mergePairsOf (s : Server) : List (ContainerName × ContainerName) :=
  OFFLineBackward.getMergePairs (fun n => (OFFLineBackward.baseFile s n).length) (baseContainerList s)

/-- What `MergeContainer` does to a store whose base containers have the
records `B`. -/
structure Merges (env : Env) (B : ContainerName → Option (List Record)) (p : Pass) : Prop where
  ends : ∀ jobDoneFlag fuel, (mergePairsOf p.server).length < fuel →
    OFFLineBackward.mergeLoop env fuel (OFFLineBackward.ocallGetMergeContainer ⟨p, [], jobDoneFlag⟩) =
      ⟨OFFLineBackward.mergeContainer env p, [], true⟩
  /-- In the round of a pair the walk over the records stops at the size of the
  second container. -/
  walked : ∀ us q vs, mergePairsOf p.server = us ++ q :: vs →
    (OFFLineBackward.mergeWalk env (us.foldl (OFFLineBackward.mergePair env) p) q).saveset =
      (OFFLineBackward.baseFile p.server q.2).length
  names : (baseContainerList p.server).Perm (p.server.containers .base).keys
  sorted : (baseContainerList p.server).Pairwise fun a b => InMemoryDatabase.nameLe a b = true
  disjoint : ((mergePairsOf p.server).flatMap fun q => [q.1, q.2]).Nodup
  adjacent : ∀ q ∈ mergePairsOf p.server, [q.1, q.2] <:+: baseContainerList p.server
  fit : ∀ q ∈ mergePairsOf p.server, (OFFLineBackward.baseFile p.server q.1).length +
    (OFFLineBackward.baseFile p.server q.2).length < MAX_CONTAINER_SIZE
  merged : Merged env B p (OFFLineBackward.mergeContainer env p) (mergePairsOf p.server)
  tiled : ∀ q ∈ mergePairsOf p.server, Holds q.1
    (records.flat (recordsOf B q.1 ++ movedRecords B q)) (recordsOf B q.1 ++ movedRecords B q)
  updated : ∀ us r vs, (mergePairsOf p.server).flatMap (movedRecords B) = us ++ r :: vs →
    (∀ s ∈ vs, s.fp ≠ r.fp) →
    (OFFLineBackward.mergeContainer env p).server.db.queryBuffer r.fp = some (env.encEntry r.entry)
  unchanged : ∀ f, (∀ r ∈ (mergePairsOf p.server).flatMap (movedRecords B), r.fp ≠ f) →
    (OFFLineBackward.mergeContainer env p).server.db.queryBuffer f = p.server.db.queryBuffer f

theorem BaseTiled.length_baseFile {s : Server} (h : BaseTiled B s) (n : ContainerName) :
    (OFFLineBackward.baseFile s n).length = (records.flat (recordsOf B n)).length := by
  rw [OFFLineBackward.baseFile, h.lookup, recordsOf]
  cases B n <;> rfl

/-- The containers of the pairs are there. -/
theorem BaseTiled.isSome {s : Server} (h : BaseTiled B s) {q : ContainerName × ContainerName}
    (hq : q ∈ mergePairsOf s) {n : ContainerName} (hn : n ∈ [q.1, q.2]) : (B n).isSome := by
  have hsub := (getMergePairs_spec (fun n => (OFFLineBackward.baseFile s n).length)
    (baseContainerList s)).1
  have hmem := (baseContainerList_perm s).mem_iff.mp
    (hsub.subset (List.mem_flatMap.mpr ⟨q, hq, hn⟩))
  have hlook := AList.lookup_isSome.mpr (AList.mem_keys.mpr hmem)
  rw [h.lookup, Option.isSome_map] at hlook
  exact hlook

/-- **Merging base containers loses and misplaces nothing.** -/
theorem mergeContainer_merges (env : Env) (p : Pass) (hB : BaseTiled B p.server) : Merges env B p := by
  obtain ⟨hsub, hfit⟩ := getMergePairs_spec (fun n => (OFFLineBackward.baseFile p.server n).length)
    (baseContainerList p.server)
  have hnd : ((mergePairsOf p.server).flatMap fun q => [q.1, q.2]).Nodup :=
    ((baseContainerList_perm p.server).nodup_iff.mpr (AList.keys_nodup _)).sublist hsub
  have hpresent : ∀ q ∈ mergePairsOf p.server, ∀ n ∈ [q.1, q.2], (B n).isSome ∧
      (p.server.containers .base).lookup n = (B n).map records.flat :=
    fun q hq n hn => ⟨hB.isSome hq hn, hB.lookup n⟩
  have hmerged := @merged_foldl env B (mergePairsOf p.server) p hnd hB.holds hpresent
  constructor
  · exact fun jobDoneFlag fuel hfuel => OFFLineBackward.mergeLoop_mergeContainer p jobDoneFlag hfuel
  · intro us q vs hsplit
    rw [hsplit] at hnd hpresent
    rw [List.flatMap_append, List.flatMap_cons] at hnd
    obtain ⟨hus, -, hapart⟩ := List.nodup_append.mp hnd
    have hbefore := @merged_foldl env B us p hus hB.holds
      (fun q hq => hpresent q (List.mem_append_left _ hq))
    have hother : ∀ q' ∈ us, q.2 ≠ q'.1 ∧ q.2 ≠ q'.2 := by
      intro q' hq'
      have hq : q.2 ∈ [q.1, q.2] ++ vs.flatMap fun q => [q.1, q.2] := by simp
      exact ⟨fun heq => hapart q'.1 (List.mem_flatMap.mpr ⟨q', hq', by simp⟩) q.2 hq heq.symm,
        fun heq => hapart q'.2 (List.mem_flatMap.mpr ⟨q', hq', by simp⟩) q.2 hq heq.symm⟩
    obtain ⟨ts, hts⟩ := Option.isSome_iff_exists.mp
      (hpresent q (by simp) q.2 (by simp)).1
    have hlook : (p.server.containers .base).lookup q.2 = some (records.flat ts) := by
      rw [hB.lookup, hts]
      rfl
    have hkeep := hbefore.others q.2 hother
    have hfile : OFFLineBackward.baseFile p.server q.2 =
        OFFLineBackward.baseFile (us.foldl (OFFLineBackward.mergePair env) p).server q.2 := by
      rw [OFFLineBackward.baseFile, OFFLineBackward.baseFile, hkeep]
    rw [hfile]
    exact mergeWalk_saveset (hkeep.trans hlook) (hB.holds q.2 ts hts)
  · exact baseContainerList_perm _
  · exact baseContainerList_sorted _
  · exact hnd
  · exact getMergePairs_infix _ _
  · exact hfit
  · exact hmerged
  · intro q hq
    obtain ⟨rs, hrs⟩ := Option.isSome_iff_exists.mp (hpresent q hq q.1 (by simp)).1
    obtain ⟨ts, hts⟩ := Option.isSome_iff_exists.mp (hpresent q hq q.2 (by simp)).1
    have hsmall : (records.flat rs).length + (records.flat ts).length < MAX_CONTAINER_SIZE := by
      have hlt := hfit q hq
      rw [hB.length_baseFile, hB.length_baseFile, recordsOf, recordsOf, hrs, hts] at hlt
      exact hlt
    have hrel := (hB.holds q.1 rs hrs).append_relocate (hB.holds q.2 ts hts).placed hsmall
    have hmap := @relocate_eq_map q.1 0 (records.flat rs).length ts (hB.holds q.2 ts hts).tiles
    rw [Nat.zero_add] at hmap
    rw [hmap] at hrel
    rw [movedRecords, recordsOf, recordsOf, hrs, hts, Layout.flat_append]
    exact hrel
  · intro us r vs hsplit hlast
    rw [show OFFLineBackward.mergeContainer env p =
      (mergePairsOf p.server).foldl (OFFLineBackward.mergePair env) p from rfl, hmerged.index, hsplit]
    exact queryBuffer_reindex_last _ us r hlast
  · intro f hne
    rw [show OFFLineBackward.mergeContainer env p =
      (mergePairsOf p.server).foldl (OFFLineBackward.mergePair env) p from rfl, hmerged.index]
    exact queryBuffer_reindex_of_ne _ hne

/-- A chunk of one byte, at `off` of a container. -/
def oneByteRecord (name : ContainerName) (off : Nat) (b : UInt8) : Record where
  entry := ⟨name, NO_DELTA, UInt32.ofNat off, 1, BytesN.ofBytes 32 [], BytesN.ofBytes 96 []⟩
  fp := BytesN.ofBytes 32 [b]
  sf := BytesN.ofBytes 96 []
  payload := [b]
  iv := BytesN.ofBytes 16 []

/-- The records of a base container with a single chunk, and of one with two. -/
def firstSmall : List Record := [oneByteRecord (containerName 0) 0 5]

def secondSmall : List Record :=
  [oneByteRecord (containerName 1) 0 7,
    oneByteRecord (containerName 1) (oneByteRecord (containerName 1) 0 7).toBytes.length 8]

def twoSmall (n : ContainerName) : Option (List Record) :=
  if n = containerName 0 then some firstSmall
  else if n = containerName 1 then some secondSmall
  else none

def twoSmallPass : Pass :=
  Pass.start (((Server.boot .plain ⟨[], fun _ => []⟩).saveToFile .base (containerName 1)
    (records.flat secondSmall)).saveToFile .base (containerName 0) (records.flat firstSmall))
    ⟨zeroCipher, 0, [], []⟩

theorem holds_firstSmall : Holds (containerName 0) (records.flat firstSmall) firstSmall where
  bytes := rfl
  tiles := ⟨rfl, trivial⟩
  placed := fun r hr => by
    rw [List.mem_singleton.mp hr]
    exact ⟨rfl, rfl⟩
  small := by decide +kernel

theorem holds_secondSmall : Holds (containerName 1) (records.flat secondSmall) secondSmall where
  bytes := rfl
  tiles := ⟨rfl, by decide +kernel, trivial⟩
  placed := fun r hr => by
    rw [secondSmall, List.mem_cons, List.mem_singleton] at hr
    rcases hr with rfl | rfl <;> exact ⟨rfl, rfl⟩
  small := by decide +kernel

theorem baseTiled_twoSmall : BaseTiled twoSmall twoSmallPass.server where
  holds := by
    intro n rs hrs
    unfold twoSmall at hrs
    split at hrs
    · rename_i hn
      obtain rfl := Option.some.inj hrs
      exact hn ▸ holds_firstSmall
    · split at hrs
      · rename_i hn
        obtain rfl := Option.some.inj hrs
        exact hn ▸ holds_secondSmall
      · cases hrs
  lookup := by
    intro n
    have hone : ∀ m : UMap ContainerName Bytes, ∀ a b x y,
        ((m.insert a x).insert b y).lookup n = if n = b then some y else
          if n = a then some x else m.lookup n := by
      intro m a b x y
      rw [lookup_eq_if, lookup_eq_if]
    refine (hone ∅ _ _ _ _).trans ?_
    unfold twoSmall
    split
    · rfl
    · split
      · rfl
      · rfl

theorem mergeContainer_merges_twoSmall :
    mergePairsOf twoSmallPass.server = [(containerName 0, containerName 1)] ∧
      Merges .plain twoSmall twoSmallPass :=
  ⟨by decide +kernel, mergeContainer_merges .plain twoSmallPass baseTiled_twoSmall⟩

end ShieldReduce

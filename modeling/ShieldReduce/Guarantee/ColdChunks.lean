import ShieldReduce.Guarantee.Merging

/-!
# Compaction of cold chunks

The chunks that a pass moved away are cold: their ranges wait in the cold
maps. `Easy_update` fetches the ranges of one container after the other,
each reply before it works on the last one, and rewrites the container
without them. Whatever records were named, and in whatever order, every
container with a cold record is visited once, with all of its ranges,
and is left with the other records, one after the other.
-/

namespace ShieldReduce

open ByteLib UMapLib LoopLib TilingLib CatalogLib

variable {env : Env} {p : Pass}

/-! ## The loop over the cold containers -/

/-- What `Ocall_GetCold` writes to `_out_buffer` besides the number of containers. -/
abbrev ColdReply := ContainerName × List (Nat × Nat)

/-- The bytes of a reply, the number of containers in front included. -/
def coldReplySize : Option ColdReply → Nat
  | none => 4
  | some reply => 4 + (CONTAINER_ID_LENGTH + 4 + 8 * reply.2.length)

/-- `_cold_map` and `_cold_container_vector` with other values. -/
def InMemoryDatabase.withCold (coldMap : MultiMap ContainerName (Nat × Nat))
    (coldContainerVector : List ContainerName) (db : InMemoryDatabase) : InMemoryDatabase :=
  { db with coldMap := coldMap, coldContainerVector := coldContainerVector }

namespace InMemoryDatabase

theorem getCold_nil {db : InMemoryDatabase} (h : db.coldContainerVector = []) :
    db.getCold = (none, db) := by
  unfold getCold
  rw [h]
  rfl

theorem getCold_concat {db : InMemoryDatabase} {left : List ContainerName} {n : ContainerName}
    (h : db.coldContainerVector = left ++ [n]) :
    db.getCold = (some (n, (getList db.coldMap n).reverse),
      db.withCold (db.coldMap.erase n) left) := by
  unfold getCold
  rw [h, List.getLast?_append, List.dropLast_concat]
  rfl

/-- The reply, and what is left afterwards, are a matter of the cold maps alone. -/
theorem getCold_congr (db : InMemoryDatabase) : ∃ reply cm cv, ∀ db' : InMemoryDatabase,
    db'.coldMap = db.coldMap → db'.coldContainerVector = db.coldContainerVector →
      db'.getCold = (reply, db'.withCold cm cv) := by
  rcases List.eq_nil_or_concat db.coldContainerVector with hnil | ⟨left, n, hleft⟩
  · refine ⟨none, db.coldMap, [], fun db' hmap hvec => ?_⟩
    rw [getCold_nil (hvec.trans hnil), ← hmap, ← hnil, ← hvec]
    rfl
  · rw [List.concat_eq_append] at hleft
    refine ⟨some (n, (getList db.coldMap n).reverse), db.coldMap.erase n, left,
      fun db' hmap hvec => ?_⟩
    rw [getCold_concat (hvec.trans hleft), hmap]

end InMemoryDatabase

namespace OFFLineBackward

/-- The loop of `Easy_update`: the next reply is fetched before the container of
the last one is rewritten. The result lists the containers it visits. -/
def coldLoop (env : Env) : (fuel : Nat) → Option ColdReply → Pass → List ColdReply × Pass
  | 0, _, p => ([], p)
  | _ + 1, none, p => ([], p)
  | fuel + 1, some reply, p =>
      let (next, db) := p.server.db.getCold
      let (visits, p) := coldLoop env fuel next
        (updateColdContainer env (p.mapDb fun _ => db) reply.1 reply.2)
      (reply :: visits, p)

/-- The loop after the first call of `Ocall_GetCold`. -/
def easyUpdateCold (env : Env) (fuel : Nat) (p : Pass) : List ColdReply × Pass :=
  let (reply, db) := p.server.db.getCold
  coldLoop env fuel reply (p.mapDb fun _ => db)

/-- The replies, one call after the other. -/
def coldReplies : (fuel : Nat) → InMemoryDatabase → List ColdReply
  | 0, _ => []
  | fuel + 1, db =>
      match db.getCold with
      | (none, _) => []
      | (some reply, db) => reply :: coldReplies fuel db

theorem coldReplies_congr (fuel : Nat) {db db' : InMemoryDatabase} (hmap : db'.coldMap = db.coldMap)
    (hvec : db'.coldContainerVector = db.coldContainerVector) :
    coldReplies fuel db' = coldReplies fuel db := by
  induction fuel generalizing db db' with
  | zero => rfl
  | succ fuel ih =>
      obtain ⟨reply, cm, cv, hget⟩ := db.getCold_congr
      rw [coldReplies, coldReplies, hget db' hmap hvec, hget db rfl rfl]
      cases reply with
      | none => rfl
      | some reply => exact congrArg (reply :: ·) (ih rfl rfl)

/-! ### Rewriting a container leaves the cold maps alone -/

section WithCold

variable (cm : MultiMap ContainerName (Nat × Nat)) (cv : List ContainerName)

/-- The copying loop with other cold maps in its index. -/
def movingWith (m : Moving) : Moving := { m with db := m.db.withCold cm cv }

theorem moveUpTo_movingWith (change : RecipeEntry → RecipeEntry) (container : Bytes) (limit : Nat)
    (m : Moving) : moveUpTo env change container limit (movingWith cm cv m) =
      movingWith cm cv (moveUpTo env change container limit m) :=
  @whileLoop_comm Moving (fun m => decide (m.saveset < limit)) (moveRecord env change container)
    (movingWith cm cv) (fun _ => rfl) (fun _ => rfl) limit m

theorem foldl_skipCold_movingWith (container : Bytes) (ranges : List (Nat × Nat)) (coldset : Nat)
    (m : Moving) : ranges.foldl (skipCold env container) (coldset, movingWith cm cv m) =
      ((ranges.foldl (skipCold env container) (coldset, m)).1,
        movingWith cm cv (ranges.foldl (skipCold env container) (coldset, m)).2) := by
  induction ranges generalizing coldset m with
  | nil => rfl
  | cons range ranges ih =>
      have hstep : skipCold env container (coldset, movingWith cm cv m) range =
          ((skipCold env container (coldset, m) range).1,
            movingWith cm cv (skipCold env container (coldset, m) range).2) := by
        unfold skipCold
        dsimp only
        rw [moveUpTo_movingWith]
        rfl
      rw [List.foldl_cons, List.foldl_cons, hstep]
      exact ih _ _

/-- The rewriting of a container neither reads nor changes what `Ocall_GetCold`
changes, so the next reply may be fetched before it. -/
theorem updateColdContainer_withCold (p : Pass) (n : ContainerName) (ranges : List (Nat × Nat)) :
    updateColdContainer env (p.mapDb (InMemoryDatabase.withCold cm cv)) n ranges =
      (updateColdContainer env p n ranges).mapDb (InMemoryDatabase.withCold cm cv) := by
  have hone : ((p.mapDb (InMemoryDatabase.withCold cm cv)).askFor n).oneColdContainer n =
      (((p.askFor n).oneColdContainer n).1,
        ((p.askFor n).oneColdContainer n).2.mapDb (InMemoryDatabase.withCold cm cv)) := by
    unfold Pass.oneColdContainer Pass.askFor Pass.mapDb
    dsimp only
    split
    · rfl
    · split <;> rfl
  unfold updateColdContainer
  rw [hone]
  generalize (p.askFor n).oneColdContainer n = found
  obtain ⟨dir, q⟩ := found
  have hstart : (⟨0, [], (q.mapDb (InMemoryDatabase.withCold cm cv)).server.db⟩ : Moving) =
      movingWith cm cv ⟨0, [], q.server.db⟩ := rfl
  have hcontainer : (q.mapDb (InMemoryDatabase.withCold cm cv)).server.tmpOcallcontainer =
      q.server.tmpOcallcontainer := rfl
  have hsize : (q.mapDb (InMemoryDatabase.withCold cm cv)).containersize = q.containersize := rfl
  dsimp only
  rw [hstart, hcontainer, hsize, foldl_skipCold_movingWith]
  dsimp only
  rw [moveUpTo_movingWith]
  rfl

end WithCold

/-- So it leaves them as they are. -/
theorem withCold_updateColdContainer (p : Pass) (n : ContainerName) (ranges : List (Nat × Nat)) :
    (updateColdContainer env p n ranges).server.db.coldMap = p.server.db.coldMap ∧
      (updateColdContainer env p n ranges).server.db.coldContainerVector =
        p.server.db.coldContainerVector := by
  have hsame := @updateColdContainer_withCold env p.server.db.coldMap
    p.server.db.coldContainerVector p n ranges
  rw [show p.mapDb (InMemoryDatabase.withCold p.server.db.coldMap
    p.server.db.coldContainerVector) = p from rfl] at hsame
  rw [hsame]
  exact ⟨rfl, rfl⟩

/-- The two ways to run the loop agree. -/
theorem easyUpdateCold_eq (fuel : Nat) {p : Pass}
    (hfuel : p.server.db.coldContainerVector.length < fuel) :
    easyUpdateCold env fuel p = (coldReplies fuel p.server.db, updateCold env fuel p) := by
  induction fuel generalizing p with
  | zero => exact absurd hfuel (Nat.not_lt_zero _)
  | succ fuel ih =>
      unfold easyUpdateCold
      rw [coldReplies, updateCold]
      rcases List.eq_nil_or_concat p.server.db.coldContainerVector with hnil | ⟨left, n, hleft⟩
      · rw [InMemoryDatabase.getCold_nil hnil]
        rfl
      · rw [List.concat_eq_append] at hleft
        rw [hleft, List.length_append, List.length_singleton] at hfuel
        rw [InMemoryDatabase.getCold_concat hleft]
        dsimp only
        generalize (getList p.server.db.coldMap n).reverse = ranges
        generalize hq : (p.mapDb fun _ => p.server.db.withCold (p.server.db.coldMap.erase n) left) = q
        have hvector : q.server.db.coldContainerVector = left := by
          rw [← hq]
          rfl
        have hdb : p.server.db.withCold (p.server.db.coldMap.erase n) left = q.server.db := by
          rw [← hq]
          rfl
        rw [hdb]
        -- the rewritten container answers the next call in the same way
        obtain ⟨hmap, hvec⟩ := @withCold_updateColdContainer env q n ranges
        obtain ⟨reply, cm, cv, hget⟩ := InMemoryDatabase.getCold_congr q.server.db
        have hnext := hget q.server.db rfl rfl
        have hnext' := hget (updateColdContainer env q n ranges).server.db hmap hvec
        have hrest := @ih (updateColdContainer env q n ranges) (by rw [hvec, hvector]; omega)
        unfold easyUpdateCold at hrest
        rw [hnext'] at hrest
        dsimp only at hrest
        rw [coldLoop, hnext]
        dsimp only
        have hcomm := @updateColdContainer_withCold env cm cv q n ranges
        have hmapDb : (q.mapDb fun _ => q.server.db.withCold cm cv) =
            q.mapDb (InMemoryDatabase.withCold cm cv) := rfl
        have hmapDb' : ((updateColdContainer env q n ranges).mapDb fun _ =>
            (updateColdContainer env q n ranges).server.db.withCold cm cv) =
            (updateColdContainer env q n ranges).mapDb (InMemoryDatabase.withCold cm cv) := rfl
        rw [hmapDb'] at hrest
        rw [hmapDb, hcomm, hrest, coldReplies_congr fuel hmap hvec]

/-- A round more than there are containers changes nothing. -/
theorem updateCold_enough (fuel : Nat) {p : Pass}
    (hfuel : p.server.db.coldContainerVector.length ≤ fuel) :
    updateCold env fuel p = updateCold env p.server.db.coldContainerVector.length p := by
  induction fuel generalizing p with
  | zero => rw [Nat.le_zero.mp hfuel]
  | succ fuel ih =>
      rcases List.eq_nil_or_concat p.server.db.coldContainerVector with hnil | ⟨left, n, hleft⟩
      · rw [updateCold, InMemoryDatabase.getCold_nil hnil, hnil]
        rfl
      · rw [List.concat_eq_append] at hleft
        rw [hleft, List.length_append, List.length_singleton] at hfuel ⊢
        rw [updateCold, updateCold, InMemoryDatabase.getCold_concat hleft]
        dsimp only
        generalize (getList p.server.db.coldMap n).reverse = ranges
        obtain ⟨-, hvec⟩ := @withCold_updateColdContainer env
          (p.mapDb fun _ => p.server.db.withCold (p.server.db.coldMap.erase n) left) n ranges
        have hlen : (updateColdContainer env (p.mapDb fun _ =>
            p.server.db.withCold (p.server.db.coldMap.erase n) left) n ranges).server.db.coldContainerVector.length =
              left.length := congrArg List.length hvec
        rw [ih (by rw [hlen]; omega), hlen]

end OFFLineBackward

deriving instance DecidableEq for Record

/-! ## The cold records -/

/-- Containers, each in one directory and with its records. -/
abbrev ContainerSet := ContainerName → Option (Dir × List Record)

/-- The files of the containers. -/
def ContainerSet.files (C : ContainerSet) : Containers := fun q =>
  (C q.2).bind fun c => if c.1 = q.1 then some c.2 else none

/-- The container files of the server are the containers `C`, all of them tiled. -/
structure Stored (C : ContainerSet) (s : Server) : Prop where
  holds : ∀ n d rs, C n = some (d, rs) → Holds n (records.flat rs) rs
  view : s.view = viewOf C.files

/-- The calls of `Ocall_ColdInsert` for records of containers. -/
def InMemoryDatabase.coldInserts (db : InMemoryDatabase) (l : List (ContainerName × Record)) :
    InMemoryDatabase :=
  l.foldl (fun db q => db.coldInsert q.1 q.2.range.1 q.2.range.2) db

/-- The records of a container that are not cold. -/
def survivors (l : List (ContainerName × Record)) (n : ContainerName) (rs : List Record) :
    List Record :=
  rs.filter fun r => !decide ((n, r) ∈ l)

/-- The containers, those in `done` without their cold records. -/
def ContainerSet.compact (C : ContainerSet) (l : List (ContainerName × Record))
    (done : List ContainerName) : ContainerSet :=
  fun n => if n ∈ done then (C n).map fun c => (c.1, relocate n 0 (survivors l n c.2)) else C n

/-- The records of a container that stay, at their new place. -/
def ContainerSet.moved (C : ContainerSet) (l : List (ContainerName × Record)) (n : ContainerName) :
    List Record :=
  ((C n).map fun c => relocate n 0 (survivors l n c.2)).getD []

namespace InMemoryDatabase

theorem coldInserts_concat (db : InMemoryDatabase) (l : List (ContainerName × Record))
    (q : ContainerName × Record) :
    db.coldInserts (l ++ [q]) = (db.coldInserts l).coldInsert q.1 q.2.range.1 q.2.range.2 := by
  unfold coldInserts
  rw [List.foldl_append]
  rfl

/-- The ranges of a container, in the order of the calls. -/
theorem getList_coldInserts (db : InMemoryDatabase) (l : List (ContainerName × Record))
    (n : ContainerName) : getList (db.coldInserts l).coldMap n =
      getList db.coldMap n ++ (l.filter fun q => q.1 = n).map fun q => q.2.range := by
  induction l using List.reverseRecOn with
  | nil => simp [coldInserts]
  | append_singleton l q ih =>
      rw [coldInserts_concat, List.filter_append, List.map_append, ← List.append_assoc, ← ih]
      refine (getList_pushBack _ _ _ _).trans ?_
      by_cases hn : q.1 = n
      · rw [if_pos hn.symm, List.filter_cons_of_pos (by simpa using hn), hn]
        rfl
      · rw [if_neg (Ne.symm hn), List.filter_cons_of_neg (by simpa using hn)]
        simp

/-- The set of containers with a cold record. -/
theorem coldContainerSet_coldInserts {db : InMemoryDatabase} (hset : db.coldContainerSet = [])
    (l : List (ContainerName × Record)) : (db.coldInserts l).coldContainerSet.Nodup ∧
      ∀ n, n ∈ (db.coldInserts l).coldContainerSet ↔ n ∈ l.map Prod.fst := by
  induction l using List.reverseRecOn with
  | nil =>
      rw [show (db.coldInserts []).coldContainerSet = [] from hset]
      exact ⟨List.nodup_nil, fun n => by simp⟩
  | append_singleton l q ih =>
      obtain ⟨hnd, hmem⟩ := ih
      rw [coldInserts_concat]
      unfold coldInsert
      dsimp only
      split
      · rename_i hq
        refine ⟨hnd, fun n => ?_⟩
        rw [hmem] at hq ⊢
        simp only [List.map_append, List.mem_append]
        refine ⟨Or.inl, fun h => h.elim id fun h => ?_⟩
        rw [List.mem_singleton.mp h]
        exact hq
      · rename_i hq
        refine ⟨List.nodup_cons.mpr ⟨hq, hnd⟩, fun n => ?_⟩
        rw [List.mem_cons, hmem, List.map_append, List.mem_append]
        simp only [List.map_cons, List.map_nil, List.mem_singleton]
        exact or_comm

/-- The calls change the cold maps alone. -/
theorem coldInserts_eq (db : InMemoryDatabase) (l : List (ContainerName × Record)) :
    db.coldInserts l = { db with
      coldMap := (db.coldInserts l).coldMap
      coldContainerSet := (db.coldInserts l).coldContainerSet } := by
  induction l using List.reverseRecOn with
  | nil => rfl
  | append_singleton l q ih =>
      rw [coldInserts_concat]
      conv_lhs => rw [ih]
      rfl

end InMemoryDatabase

/-- The ranges of the cold records of a container. -/
def coldRanges (l : List (ContainerName × Record)) (n : ContainerName) : List (Nat × Nat) :=
  (l.filter fun q => q.1 = n).map fun q => q.2.range

/-- Different records were named, and every one of them exists. -/
structure NamesRecords (C : ContainerSet) (l : List (ContainerName × Record)) : Prop where
  nodup : l.Nodup
  exist : ∀ q ∈ l, ∃ d rs, C q.1 = some (d, rs) ∧ q.2 ∈ rs

section Run

variable {C : ContainerSet} {l : List (ContainerName × Record)} {n : ContainerName} {d : Dir}
  {rs : List Record}

theorem mem_coldRanges (hl : NamesRecords C l) (hn : C n = some (d, rs)) (x : Nat × Nat) :
    x ∈ coldRanges l n ↔ ∃ r ∈ rs, decide ((n, r) ∈ l) = true ∧ x = r.range := by
  rw [coldRanges, List.mem_map]
  constructor
  · rintro ⟨⟨m, r⟩, hq, rfl⟩
    obtain ⟨hmem, hm⟩ := List.mem_filter.mp hq
    obtain rfl := of_decide_eq_true hm
    obtain ⟨d', ts, hts, hr⟩ := hl.exist _ hmem
    obtain ⟨-, rfl⟩ := Prod.mk.injEq .. |>.mp (Option.some.inj (hts.symm.trans hn))
    exact ⟨r, hr, decide_eq_true hmem, rfl⟩
  · rintro ⟨r, hr, hcold, rfl⟩
    exact ⟨(n, r), List.mem_filter.mpr ⟨of_decide_eq_true hcold, decide_eq_true rfl⟩, rfl⟩

/-- The cold records of a container, as they were named and as they stand there. -/
theorem coldRecords_perm (hl : NamesRecords C l) (hn : C n = some (d, rs))
    (htiles : records.Tiles 0 rs) : ((l.filter fun q => q.1 = n).map Prod.snd).Perm
      (rs.filter fun r => decide ((n, r) ∈ l)) := by
  have hnd : ((l.filter fun q => q.1 = n).map Prod.snd).Nodup := by
    refine (hl.nodup.filter _).map_on ?_
    rintro ⟨a, r⟩ ha ⟨b, s⟩ hb rfl
    have hna := of_decide_eq_true (List.mem_filter.mp ha).2
    have hnb := of_decide_eq_true (List.mem_filter.mp hb).2
    exact Prod.ext (hna.trans hnb.symm) rfl
  have hnd' : rs.Nodup := List.Nodup.of_map _ htiles.start_nodup
  refine (List.perm_ext_iff_of_nodup hnd (hnd'.filter _)).mpr fun r => ?_
  rw [List.mem_map, List.mem_filter]
  constructor
  · rintro ⟨⟨m, r⟩, hq, rfl⟩
    obtain ⟨hmem, hm⟩ := List.mem_filter.mp hq
    obtain rfl := of_decide_eq_true hm
    obtain ⟨d', ts, hts, hr⟩ := hl.exist _ hmem
    obtain ⟨-, rfl⟩ := Prod.mk.injEq .. |>.mp (Option.some.inj (hts.symm.trans hn))
    exact ⟨hr, decide_eq_true hmem⟩
  · rintro ⟨hr, hcold⟩
    exact ⟨(n, r), List.mem_filter.mpr ⟨of_decide_eq_true hcold, decide_eq_true rfl⟩, rfl⟩

theorem coldRanges_perm (hl : NamesRecords C l) (hn : C n = some (d, rs))
    (htiles : records.Tiles 0 rs) : (coldRanges l n).Perm
      ((rs.filter fun r => decide ((n, r) ∈ l)).map Record.range) := by
  have hperm := (coldRecords_perm hl hn htiles).map Record.range
  rwa [List.map_map] at hperm

theorem coldRanges_nodup (hl : NamesRecords C l) (hn : C n = some (d, rs))
    (htiles : records.Tiles 0 rs) : (coldRanges l n).Nodup := by
  refine (coldRanges_perm hl hn htiles).nodup_iff.mpr (List.Nodup.of_map Prod.fst ?_)
  rw [List.map_map]
  exact htiles.start_nodup.sublist (List.filter_sublist.map _)

theorem files_eq_some (hn : C n = some (d, rs)) : C.files (d, n) = some rs := by
  unfold ContainerSet.files
  rw [hn]
  exact if_pos rfl

theorem files_apart (C : ContainerSet) (n : ContainerName) :
    C.files (.base, n) = none ∨ C.files (.delta, n) = none := by
  unfold ContainerSet.files
  dsimp only
  cases hn : C n with
  | none => exact Or.inl rfl
  | some c =>
      obtain ⟨d, rs⟩ := c
      cases d with
      | base => exact Or.inr rfl
      | delta => exact Or.inl rfl

/-- One more container is compacted. -/
theorem files_compact_cons {done : List ContainerName} (hn : C n = some (d, rs)) :
    (C.compact l (n :: done)).files = Function.update (C.compact l done).files (d, n)
      (some (relocate n 0 (survivors l n rs))) := by
  funext q
  obtain ⟨d', m⟩ := q
  by_cases hm : m = n
  · subst hm
    have hnew : C.compact l (m :: done) m = some (d, relocate m 0 (survivors l m rs)) := by
      rw [ContainerSet.compact, if_pos (List.mem_cons_self ..), hn]
      rfl
    by_cases hd : d' = d
    · subst hd
      rw [Function.update_self]
      exact files_eq_some hnew
    · rw [Function.update_of_ne (fun h => hd (congrArg Prod.fst h))]
      have hold : ∃ ts, C.compact l done m = some (d, ts) := by
        rw [ContainerSet.compact, hn]
        split
        · exact ⟨_, rfl⟩
        · exact ⟨_, rfl⟩
      obtain ⟨ts, hts⟩ := hold
      unfold ContainerSet.files
      dsimp only
      rw [hnew, hts]
      exact (if_neg (Ne.symm hd)).trans (if_neg (Ne.symm hd)).symm
  · rw [Function.update_of_ne (fun h => hm (congrArg Prod.snd h))]
    unfold ContainerSet.files ContainerSet.compact
    simp only [List.mem_cons, hm, false_or]

/-- The containers in `done` were compacted, those in `left` are still to come. -/
structure ColdLoop (C : ContainerSet) (l : List (ContainerName × Record))
    (left done : List ContainerName) (p : Pass) : Prop where
  view : p.server.view = viewOf (C.compact l done).files
  vector : p.server.db.coldContainerVector = left
  ranges : ∀ n ∈ left, getList p.server.db.coldMap n = coldRanges l n

/-- What the rest of the loop does to the index. -/
structure ColdLoopEnd (env : Env) (C : ContainerSet) (l : List (ContainerName × Record))
    (left : List ContainerName) (db db' : InMemoryDatabase) : Prop where
  rest : db' = { db.reindex env (left.reverse.flatMap (C.moved l)) with
    coldMap := db'.coldMap
    coldContainerVector := [] }
  coldMap : ∀ n, getList db'.coldMap n = if n ∈ left then [] else getList db.coldMap n

theorem ColdLoopEnd.nil {db : InMemoryDatabase} (h : db.coldContainerVector = []) :
    ColdLoopEnd env C l [] db db where
  rest := by
    obtain ⟨indexObj, sfObj, deltaIndex, localTmpMap, localMap, skipMap, coldMap, vector, set⟩ := db
    subst h
    rfl
  coldMap := fun _ => rfl

/-- One container is rewritten. -/
theorem ColdLoop.step (hC : ∀ n d rs, C n = some (d, rs) → Holds n (records.flat rs) rs)
    (hl : NamesRecords C l) {left done : List ContainerName} (hnew : n ∉ done) (hn : n ∉ left)
    (hcold : n ∈ l.map Prod.fst) (h : ColdLoop C l (left ++ [n]) done p) :
    let p' := OFFLineBackward.updateColdContainer env
      (p.mapDb (InMemoryDatabase.withCold (p.server.db.coldMap.erase n) left)) n (coldRanges l n).reverse
    ColdLoop C l left (n :: done) p' ∧
      p'.server.db = (p.server.db.reindex env (C.moved l n)).withCold (p.server.db.coldMap.erase n) left := by
  intro p'
  have hin : ∃ d rs, C n = some (d, rs) := by
    obtain ⟨q, hq, rfl⟩ := List.mem_map.mp hcold
    obtain ⟨d, rs, hrs, -⟩ := hl.exist q hq
    exact ⟨d, rs, hrs⟩
  obtain ⟨d, rs, hrs⟩ := hin
  have hholds := hC n d rs hrs
  have hhere : C.compact l done n = some (d, rs) := by
    rw [ContainerSet.compact, if_neg hnew, hrs]
  obtain ⟨b, hserver⟩ := @server_updateColdContainer env (C.compact l done).files
    (p.mapDb (InMemoryDatabase.withCold (p.server.db.coldMap.erase n) left)) d n rs (files_apart _ n)
    h.view (files_eq_some hhere) hholds (fun r => decide ((n, r) ∈ l)) (coldRanges l n).reverse
    (List.nodup_reverse.mpr (coldRanges_nodup hl hrs hholds.tiles))
    (fun x => by rw [List.mem_reverse]; exact mem_coldRanges hl hrs x)
  change p'.server = _ at hserver
  have hmoved : C.moved l n = relocate n 0 (survivors l n rs) := by
    rw [ContainerSet.moved, hrs]
    rfl
  have hdb : p'.server.db =
      (p.server.db.reindex env (C.moved l n)).withCold (p.server.db.coldMap.erase n) left := by
    rw [hserver, hmoved]
    rfl
  refine ⟨⟨?_, ?_, fun m hm => ?_⟩, hdb⟩
  · rw [hserver, files_compact_cons hrs]
    exact view_replaced h.view d n (survivors l n rs |> relocate n 0)
  · rw [hdb]
    rfl
  · rw [hdb]
    refine (getList_erase _ _ _).trans ?_
    rw [if_neg (by rintro rfl; exact hn hm)]
    exact h.ranges m (List.mem_append_left _ hm)

/-- The whole loop. -/
theorem ColdLoop.run (hC : ∀ n d rs, C n = some (d, rs) → Holds n (records.flat rs) rs)
    (hl : NamesRecords C l) (fuel : Nat) {left done : List ContainerName} {p : Pass}
    (hfuel : left.length ≤ fuel) (hnd : left.Nodup) (hnew : ∀ n ∈ left, n ∉ done)
    (hcold : ∀ n ∈ left, n ∈ l.map Prod.fst) (h : ColdLoop C l left done p) :
    OFFLineBackward.coldReplies fuel p.server.db =
        left.reverse.map (fun n => (n, (coldRanges l n).reverse)) ∧
      ColdLoop C l [] (left ++ done) (OFFLineBackward.updateCold env fuel p) ∧
      ColdLoopEnd env C l left p.server.db (OFFLineBackward.updateCold env fuel p).server.db := by
  induction fuel generalizing left done p with
  | zero =>
      obtain rfl := List.length_eq_zero_iff.mp (Nat.le_zero.mp hfuel)
      exact ⟨rfl, h, .nil h.vector⟩
  | succ fuel ih =>
      rw [OFFLineBackward.coldReplies, OFFLineBackward.updateCold]
      rcases List.eq_nil_or_concat left with rfl | ⟨left, n, rfl⟩
      · rw [InMemoryDatabase.getCold_nil h.vector]
        exact ⟨rfl, h, .nil h.vector⟩
      · rw [List.concat_eq_append] at h hfuel hnd hnew hcold ⊢
        rw [List.length_append, List.length_singleton] at hfuel
        obtain ⟨hleft, -, hapart⟩ := List.nodup_append.mp hnd
        have hn : n ∉ left := fun hmem => hapart n hmem n (by simp) rfl
        rw [InMemoryDatabase.getCold_concat h.vector, h.ranges n (by simp)]
        dsimp only
        obtain ⟨hnext, hdb⟩ := @ColdLoop.step env p C l n hC hl left done (hnew n (by simp)) hn
          (hcold n (by simp)) h
        rw [show (p.mapDb fun _ => p.server.db.withCold (p.server.db.coldMap.erase n) left) =
          p.mapDb (InMemoryDatabase.withCold (p.server.db.coldMap.erase n) left) from rfl]
        generalize OFFLineBackward.updateColdContainer env
          (p.mapDb (InMemoryDatabase.withCold (p.server.db.coldMap.erase n) left)) n
          (coldRanges l n).reverse = p₁ at hnext hdb ⊢
        have hnew' : ∀ m ∈ left, m ∉ n :: done := by
          intro m hm hmem
          rcases List.mem_cons.mp hmem with rfl | hmem
          · exact hn hm
          · exact hnew m (List.mem_append_left _ hm) hmem
        obtain ⟨hreplies, hloop, hend⟩ := @ih left (n :: done) p₁ (by omega) hleft hnew'
          (fun m hm => hcold m (List.mem_append_left _ hm)) hnext
        refine ⟨?_, ?_, ?_, fun m => ?_⟩
        · have hsame : OFFLineBackward.coldReplies fuel p₁.server.db = OFFLineBackward.coldReplies fuel
              (p.server.db.withCold (p.server.db.coldMap.erase n) left) :=
            OFFLineBackward.coldReplies_congr fuel (by rw [hdb]; rfl) (by rw [hdb]; rfl)
          rw [← hsame, hreplies]
          simp
        · rw [List.append_assoc]
          exact hloop
        · rw [hend.rest]
          dsimp only
          rw [hdb, List.reverse_append, List.reverse_singleton, List.singleton_append,
            List.flatMap_cons, InMemoryDatabase.reindex_append]
          rfl
        · rw [hend.coldMap, hdb]
          refine Eq.trans (congrArg (fun x => if m ∈ left then [] else x) (getList_erase _ _ _)) ?_
          by_cases hm : m ∈ left
          · rw [if_pos hm, if_pos (List.mem_append_left _ hm)]
          · by_cases hmn : m = n
            · rw [if_neg hm, if_pos hmn, if_pos (by simp [hmn])]
            · rw [if_neg hm, if_neg hmn, if_neg (by simp [hm, hmn])]

end Run

/-! ## The compaction of a store -/

/-- The cold records are named, and `Ocall_Coldrevise` is called. -/
def Pass.coldStart (p : Pass) (l : List (ContainerName × Record)) : Pass :=
  p.mapDb fun db => (db.coldInserts l).coldrevise

/-- What the loop over the cold containers does to a store with the containers
`C`, when the records `l` are cold: `visits` are the containers it works on,
with the ranges it is told. -/
structure CompactsCold (env : Env) (C : ContainerSet) (l : List (ContainerName × Record)) (p : Pass)
    (visits : List ColdReply) (p' : Pass) : Prop where
  once : (visits.map Prod.fst).Nodup
  affected : ∀ n, n ∈ visits.map Prod.fst ↔ n ∈ l.map Prod.fst
  ranges : ∀ v ∈ visits, v.2.Perm (coldRanges l v.1)
  replies : ∀ reply ∈ none :: visits.map some, coldReplySize reply ≤ 4000 * CHUNK_HASH_SIZE
  /-- The containers with a cold record hold the others, in their order, at the
  offsets that their entries name; the rest of the containers are as before. -/
  stored : Stored (C.compact l (l.map Prod.fst)) p'.server
  sizes : ∀ n d rs, C n = some (d, rs) →
    (records.flat (relocate n 0 (survivors l n rs))).length =
      (records.flat rs).length - ((coldRanges l n).map Prod.snd).sum
  index : p'.server.db = { p.server.db.reindex env (visits.flatMap fun v => C.moved l v.1) with
    coldMap := ∅
    coldContainerVector := []
    coldContainerSet := [] }
  updated : ∀ us r vs, (visits.flatMap fun v => C.moved l v.1) = us ++ r :: vs →
    (∀ s ∈ vs, s.fp ≠ r.fp) → p'.server.db.queryBuffer r.fp = some (env.encEntry r.entry)
  unchanged : ∀ f, (∀ r ∈ visits.flatMap fun v => C.moved l v.1, r.fp ≠ f) →
    p'.server.db.queryBuffer f = p.server.db.queryBuffer f

theorem length_flat_filter (f : Record → Bool) (rs : List Record) :
    (records.flat (rs.filter fun r => !f r)).length + (records.flat (rs.filter f)).length =
      (records.flat rs).length := by
  induction rs with
  | nil => rfl
  | cons r rs ih =>
      cases hr : f r with
      | true =>
          rw [List.filter_cons_of_neg (by simp [hr]), List.filter_cons_of_pos hr]
          simp only [Layout.flat_cons, List.length_append]
          omega
      | false =>
          rw [List.filter_cons_of_pos (by simp [hr]), List.filter_cons_of_neg (by simp [hr])]
          simp only [Layout.flat_cons, List.length_append]
          omega

theorem sum_ranges (rs : List Record) :
    ((rs.map Record.range).map Prod.snd).sum = (records.flat rs).length := by
  induction rs with
  | nil => rfl
  | cons r rs ih =>
      rw [Layout.flat_cons, List.length_append, ← ih]
      rfl

/-- A record takes at least 288 bytes. -/
theorem length_mul_le_flat (rs : List Record) : 288 * rs.length ≤ (records.flat rs).length := by
  induction rs with
  | nil => exact Nat.le_refl _
  | cons r rs ih =>
      have hr : 288 ≤ r.toBytes.length := by
        rw [r.length_toBytes]
        exact Nat.le_add_left _ _
      rw [Layout.flat_cons, List.length_append, List.length_cons, records_bytes]
      omega

section Store

variable {C : ContainerSet} {l : List (ContainerName × Record)}

theorem Stored.sizes {s : Server} (hC : Stored C s) (hl : NamesRecords C l) {n : ContainerName}
    {d : Dir} {rs : List Record} (hn : C n = some (d, rs)) :
    (records.flat (relocate n 0 (survivors l n rs))).length =
      (records.flat rs).length - ((coldRanges l n).map Prod.snd).sum := by
  have hsum := ((coldRanges_perm hl hn (hC.holds n d rs hn).tiles).map Prod.snd).sum_eq
  rw [hsum, sum_ranges, length_flat_relocate, survivors]
  have hsplit := length_flat_filter (fun r => decide ((n, r) ∈ l)) rs
  omega

/-- The ranges of a container fit into `_out_buffer`. -/
theorem Stored.reply_le {s : Server} (hC : Stored C s) (hl : NamesRecords C l) {n : ContainerName}
    (hn : n ∈ l.map Prod.fst) :
    coldReplySize (some (n, (coldRanges l n).reverse)) ≤ 4000 * CHUNK_HASH_SIZE := by
  obtain ⟨q, hq, rfl⟩ := List.mem_map.mp hn
  obtain ⟨d, rs, hrs, -⟩ := hl.exist q hq
  have hholds := hC.holds q.1 d rs hrs
  have hlen := (coldRanges_perm hl hrs hholds.tiles).length_eq
  have hfilter := List.length_filter_le (fun r => decide ((q.1, r) ∈ l)) rs
  have hmul := length_mul_le_flat rs
  have hsmall := hholds.small
  rw [List.length_map] at hlen
  simp only [coldReplySize, List.length_reverse, hlen, CONTAINER_ID_LENGTH, CHUNK_HASH_SIZE]
  simp only [MAX_CONTAINER_SIZE] at hsmall
  omega

theorem Stored.compact_holds {s : Server} (hC : Stored C s) (n : ContainerName) (d : Dir)
    (rs : List Record) (done : List ContainerName) (hn : C.compact l done n = some (d, rs)) :
    Holds n (records.flat rs) rs := by
  unfold ContainerSet.compact at hn
  split at hn
  · obtain ⟨⟨d', ts⟩, hts, heq⟩ := Option.map_eq_some_iff.mp hn
    obtain ⟨-, rfl⟩ := Prod.mk.injEq .. |>.mp heq
    have hholds := hC.holds n d' ts hts
    have hsub : (survivors l n ts).Sublist ts := List.filter_sublist
    have hsplit := length_flat_filter (fun r => decide ((n, r) ∈ l)) ts
    have hrel := (Holds.nil n).append_relocate (fun r hr => hholds.placed r (hsub.subset hr))
      (by
        have hsmall := hholds.small
        rw [List.length_nil, Nat.zero_add]
        exact Nat.lt_of_le_of_lt (by rw [survivors]; omega) hsmall)
    rwa [List.nil_append, List.nil_append] at hrel
  · exact hC.holds n d rs hn

end Store

/-- **Cold compaction removes exactly the cold records.** The loop is the one that
fetches replies ahead, and that is the one `easyUpdate` runs. -/
theorem updateCold_compacts (env : Env) {C : ContainerSet} {l : List (ContainerName × Record)}
    {p : Pass} (hC : Stored C p.server) (hl : NamesRecords C l) (hmap : p.server.db.coldMap = ∅)
    (hvector : p.server.db.coldContainerVector = []) (hset : p.server.db.coldContainerSet = []) :
    let q := p.coldStart l
    ∀ fuel, q.server.db.coldContainerVector.length < fuel →
      (OFFLineBackward.easyUpdateCold env fuel q).2 =
          OFFLineBackward.updateCold env q.server.db.coldContainerVector.length q ∧
        CompactsCold env C l p (OFFLineBackward.easyUpdateCold env fuel q).1
          (OFFLineBackward.easyUpdateCold env fuel q).2 := by
  intro q fuel hfuel
  obtain ⟨hnodup, hmem⟩ := InMemoryDatabase.coldContainerSet_coldInserts hset l
  -- the vector is the set of the containers with a cold record
  have hperm := List.mergeSort_perm (p.server.db.coldInserts l).coldContainerSet
    InMemoryDatabase.nameLe
  have hq : q.server.db = { p.server.db with
      coldMap := (p.server.db.coldInserts l).coldMap
      coldContainerVector := (p.server.db.coldInserts l).coldContainerSet.mergeSort
        InMemoryDatabase.nameLe
      coldContainerSet := [] } := by
    show (p.server.db.coldInserts l).coldrevise = _
    unfold InMemoryDatabase.coldrevise
    rw [show (p.server.db.coldInserts l).coldContainerVector = [] by
      rw [InMemoryDatabase.coldInserts_eq]; exact hvector, List.nil_append]
    conv_lhs => rw [InMemoryDatabase.coldInserts_eq]
  generalize (p.server.db.coldInserts l).coldContainerSet.mergeSort
    InMemoryDatabase.nameLe = left at hperm hq
  have hleft : q.server.db.coldContainerVector = left := by rw [hq]
  have hnd : left.Nodup := hperm.nodup_iff.mpr hnodup
  have hcold : ∀ n, n ∈ left ↔ n ∈ l.map Prod.fst := fun n => hperm.mem_iff.trans (hmem n)
  have hranges : ∀ n, getList q.server.db.coldMap n = coldRanges l n := by
    intro n
    rw [hq]
    refine (InMemoryDatabase.getList_coldInserts p.server.db l n).trans ?_
    rw [hmap]
    rfl
  have hstart : ColdLoop C l left [] q := by
    refine ⟨?_, hleft, fun n _ => hranges n⟩
    have hnone : C.compact l [] = C := funext fun n => if_neg (List.not_mem_nil)
    rw [hnone]
    exact hC.view
  rw [hleft] at hfuel
  have hrun : _ ∧ _ ∧ ColdLoopEnd env C l left q.server.db _ := ColdLoop.run hC.holds hl fuel
    (Nat.le_of_lt hfuel) hnd (fun n _ => List.not_mem_nil) (fun n hn => (hcold n).mp hn) hstart
  obtain ⟨hreplies, hloop, hend⟩ := hrun
  rw [OFFLineBackward.easyUpdateCold_eq fuel (by rw [hleft]; exact hfuel)]
  refine ⟨OFFLineBackward.updateCold_enough fuel (by rw [hleft]; exact Nat.le_of_lt hfuel), ?_⟩
  generalize OFFLineBackward.updateCold env fuel q = p' at hloop hend
  dsimp only
  have hvisits : (OFFLineBackward.coldReplies fuel q.server.db).map Prod.fst = left.reverse := by
    rw [hreplies, List.map_map]
    exact List.map_id _
  have hvisit : ∀ v ∈ OFFLineBackward.coldReplies fuel q.server.db, v.1 ∈ l.map Prod.fst ∧
      v.2 = (coldRanges l v.1).reverse := by
    intro v hv
    rw [hreplies] at hv
    obtain ⟨n, hn, rfl⟩ := List.mem_map.mp hv
    exact ⟨(hcold n).mp (List.mem_reverse.mp hn), rfl⟩
  have hmoved : ((OFFLineBackward.coldReplies fuel q.server.db).flatMap fun v => C.moved l v.1) =
      left.reverse.flatMap (C.moved l) := by
    rw [hreplies, List.flatMap_map]
  have hempty : p'.server.db.coldMap = ∅ := by
    refine eq_empty_of_lookup fun n => lookup_eq_none_iff_getList.mpr ?_
    rw [hend.coldMap, hranges]
    split
    · rfl
    · rename_i hn
      rw [coldRanges, List.map_eq_nil_iff, List.filter_eq_nil_iff]
      intro q' hq' heq
      exact hn ((hcold n).mpr (List.mem_map.mpr ⟨q', hq', of_decide_eq_true heq⟩))
  have hindex : p'.server.db = { p.server.db.reindex env (left.reverse.flatMap (C.moved l)) with
      coldMap := ∅
      coldContainerVector := []
      coldContainerSet := [] } := by
    rw [hend.rest, hempty, hq]
    rfl
  rw [← hmoved] at hindex
  have hquery : p'.server.db.queryBuffer = (p.server.db.reindex env
      ((OFFLineBackward.coldReplies fuel q.server.db).flatMap fun v => C.moved l v.1)).queryBuffer := by
    rw [hindex]
    rfl
  constructor
  · rw [hvisits]
    exact List.nodup_reverse.mpr hnd
  · intro n
    rw [hvisits, List.mem_reverse]
    exact hcold n
  · intro v hv
    rw [(hvisit v hv).2]
    exact List.reverse_perm _
  · intro reply hreply
    rcases List.mem_cons.mp hreply with rfl | hreply
    · decide
    · obtain ⟨v, hv, rfl⟩ := List.mem_map.mp hreply
      obtain ⟨hn, hv2⟩ := hvisit v hv
      rw [show v = (v.1, (coldRanges l v.1).reverse) from Prod.ext rfl hv2]
      exact hC.reply_le hl hn
  · refine ⟨fun n d rs hn => hC.compact_holds n d rs _ hn, ?_⟩
    rw [hloop.view, List.append_nil]
    have hsame : C.compact l left = C.compact l (l.map Prod.fst) := by
      funext n
      unfold ContainerSet.compact
      simp only [hcold n]
    rw [hsame]
  · exact fun n d rs hn => hC.sizes hl hn
  · exact hindex
  · intro us r vs hsplit hlast
    rw [hquery, hsplit]
    exact queryBuffer_reindex_last _ us r hlast
  · intro f hne
    rw [hquery]
    exact queryBuffer_reindex_of_ne _ hne

/-- A base container with two chunks. -/
def twoChunks : List Record :=
  [oneByteRecord (containerName 0) 0 7, oneByteRecord (containerName 0) 289 8]

def oneContainer (n : ContainerName) : Option (Dir × List Record) :=
  if n = containerName 0 then some (.base, twoChunks) else none

def oneContainerPass : Pass :=
  Pass.start ((Server.boot .plain ⟨[], fun _ => []⟩).saveToFile .base (containerName 0)
    (records.flat twoChunks)) ⟨zeroCipher, 0, [], []⟩

theorem stored_oneContainer : Stored oneContainer oneContainerPass.server where
  holds := by
    intro n d rs hrs
    unfold oneContainer at hrs
    split at hrs
    · rename_i hn
      obtain ⟨rfl, rfl⟩ := Prod.mk.injEq .. |>.mp (Option.some.inj hrs)
      subst hn
      refine ⟨rfl, ⟨rfl, by decide +kernel, trivial⟩, fun r hr => ?_, by decide +kernel⟩
      rcases List.mem_cons.mp hr with rfl | hr
      · exact ⟨rfl, rfl⟩
      · rw [List.mem_singleton.mp hr]
        exact ⟨rfl, rfl⟩
    · cases hrs
  view := by
    funext d n
    refine (view_saveToFile (Server.boot .plain ⟨[], fun _ => []⟩) .base (containerName 0)
      (records.flat twoChunks) d n).trans ?_
    unfold viewOf ContainerSet.files oneContainer
    dsimp only
    by_cases hn : n = containerName 0
    · rw [if_pos hn]
      cases d with
      | base => exact if_pos ⟨rfl, hn⟩
      | delta => exact if_neg (fun h => by cases h.1)
    · rw [if_neg hn]
      exact if_neg (fun h => hn h.2)

/-- The first of the two chunks is cold. -/
theorem updateCold_compacts_oneContainer :
    CompactsCold .plain oneContainer [(containerName 0, oneByteRecord (containerName 0) 0 7)]
      oneContainerPass
      (OFFLineBackward.easyUpdateCold .plain 2
        (oneContainerPass.coldStart [(containerName 0, oneByteRecord (containerName 0) 0 7)])).1
      (OFFLineBackward.easyUpdateCold .plain 2
        (oneContainerPass.coldStart [(containerName 0, oneByteRecord (containerName 0) 0 7)])).2 :=
  (updateCold_compacts .plain stored_oneContainer
    ⟨List.nodup_singleton _, fun q hq => by
      rw [List.mem_singleton.mp hq]
      exact ⟨.base, twoChunks, rfl, List.mem_cons_self ..⟩⟩ rfl rfl rfl 2 (by decide +kernel)).2

end ShieldReduce

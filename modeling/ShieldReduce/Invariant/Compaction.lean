import ShieldReduce.Invariant.Rebase

/-!
# Copying records

The second part of an offline pass: the containers that chunks were moved
out of are compacted, and small base containers are merged. Both copy
records one after the other, change the entry in front of each, and make
the index follow (`moveUpTo_spec`). `updateColdContainer` then is
`Rep.compact` and `mergePair` is `Rep.merge`.
-/

namespace ShieldReduce

open ByteLib UMapLib LoopLib TilingLib CatalogLib

variable {env : Env} {F : Containers} {abs abs' : Fp → Option Content}

/-! ## The copying loop -/

/-- The index leads to all of the records. -/
def InMemoryDatabase.reindex (env : Env) (db : InMemoryDatabase) (rs : List Record) :
    InMemoryDatabase :=
  { db with indexObj := rs.foldl (fun m r => m.insert r.fp (env.encEntry r.entry)) db.indexObj }

theorem InMemoryDatabase.reindex_append (env : Env) (db : InMemoryDatabase) (rs ts : List Record) :
    db.reindex env (rs ++ ts) = (db.reindex env rs).reindex env ts := by
  unfold InMemoryDatabase.reindex
  rw [List.foldl_append]

theorem InMemoryDatabase.queryBuffer_reindex (env : Env) (rs : List Record) (db : InMemoryDatabase) :
    (db.reindex env rs).queryBuffer = (scheme env).reindex db.queryBuffer rs := by
  induction rs generalizing db with
  | nil => rfl
  | cons r rs ih =>
      refine (ih (db.insertBothBuffer r.fp (env.encEntry r.entry))).trans ?_
      rw [InMemoryDatabase.queryBuffer_insertBothBuffer]
      rfl

/-- The index leads to the last of the records that has the fingerprint. -/
theorem queryBuffer_reindex_last (db : InMemoryDatabase) (us : List Record) (r : Record)
    {vs : List Record} (hlast : ∀ s ∈ vs, s.fp ≠ r.fp) :
    (db.reindex env (us ++ r :: vs)).queryBuffer r.fp = some (env.encEntry r.entry) := by
  have hnot : r.fp ∉ vs.map (scheme env).key := by
    intro hmem
    obtain ⟨s, hs, heq⟩ := List.mem_map.mp hmem
    exact hlast s hs heq
  rw [InMemoryDatabase.reindex_append, InMemoryDatabase.queryBuffer_reindex]
  exact (Scheme.reindex_of_notMem hnot).trans (Function.update_self ..)

theorem queryBuffer_reindex_of_ne (db : InMemoryDatabase) {rs : List Record} {f : Fp}
    (hne : ∀ r ∈ rs, r.fp ≠ f) : (db.reindex env rs).queryBuffer f = db.queryBuffer f := by
  rw [InMemoryDatabase.queryBuffer_reindex]
  refine Scheme.reindex_of_notMem fun hmem => ?_
  obtain ⟨r, hr, heq⟩ := List.mem_map.mp hmem
  exact hne r hr heq

/-- One record is copied. -/
theorem moveRecord_eq {change : RecipeEntry → RecipeEntry} {container : Bytes} {m : Moving}
    {r : Record} (hstart : r.start = m.saveset) (hfound : r.FoundIn container)
    (hlen : r.entry.length.toNat = r.payload.length)
    (hsame : (change r.entry).length = r.entry.length) :
    moveRecord env change container m =
      { saveset := m.saveset + r.toBytes.length
        out := m.out ++ ({ r with entry := change r.entry } : Record).toBytes
        db := m.db.insertBothBuffer r.fp (env.encEntry (change r.entry)) } := by
  have hentry : RecipeEntry.ofBytes (container.drop m.saveset) = r.entry := by
    rw [← hstart]
    exact hfound.entry
  have hfp : (BytesN.ofBytes 32 (container.drop (m.saveset + sizeofRecipeEntry)) : Fp) = r.fp := by
    have h := hfound.getChunkFP
    rwa [getChunkFP, show r.entry.offset.toNat = m.saveset from hstart] at h
  have hsize : r.entry.length.toNat + 4 * CHUNK_HASH_SIZE + CRYPTO_BLOCK_SIZE =
      (r.fp.1 ++ (r.sf.1 ++ (r.payload ++ r.iv.1))).length := by
    rw [hlen]
    simp only [List.length_append, r.fp.2, r.sf.2, r.iv.2, CHUNK_HASH_SIZE, CRYPTO_BLOCK_SIZE]
    omega
  have hbody : slice (memOf container) (m.saveset + sizeofRecipeEntry)
      (r.entry.length.toNat + 4 * CHUNK_HASH_SIZE + CRYPTO_BLOCK_SIZE) =
        r.fp.1 ++ (r.sf.1 ++ (r.payload ++ r.iv.1)) := by
    obtain ⟨rest, hrest⟩ := hfound.drop
    rw [hstart] at hrest
    have hall : container.drop (m.saveset + sizeofRecipeEntry) =
        (r.fp.1 ++ (r.sf.1 ++ (r.payload ++ r.iv.1))) ++ rest := by
      rw [hrest]
      simp only [List.append_assoc]
    have hlength := congrArg List.length hall
    rw [List.length_drop, List.length_append] at hlength
    rw [hsize, slice_memOf, hall, List.take_left]
    have hpos := r.iv.2
    simp only [List.length_append] at hlength ⊢
    omega
  unfold moveRecord
  dsimp only
  rw [hentry, hfp, hsame, hbody]
  congr 1
  rw [Record.length_toBytes, hlen, recordOverhead]
  omega

/-- **A block of records is copied**, from `off` on under another name. -/
theorem moveUpTo_spec {change : RecipeEntry → RecipeEntry} {container : Bytes} {name : ContainerName}
    (us : List Record) {fuel off limit : Nat} {m : Moving} (htiles : records.Tiles m.saveset us)
    (hfound : ∀ r ∈ us, r.FoundIn container)
    (hlen : ∀ r ∈ us, r.entry.length.toNat = r.payload.length)
    (hchange : ∀ r ∈ us, ∀ off', r.start + off = off' + m.saveset →
      change r.entry = (r.moveTo name off').entry)
    (hlimit : limit = m.saveset + (records.flat us).length) (hfuel : us.length ≤ fuel) :
    whileLoop (fun m => decide (m.saveset < limit)) (moveRecord env change container) fuel m =
      { saveset := limit
        out := m.out ++ records.flat (relocate name off us)
        db := m.db.reindex env (relocate name off us) } := by
  induction us generalizing fuel off m with
  | nil =>
      obtain ⟨saveset, out, db⟩ := m
      simp only [Layout.flat_nil, List.length_nil, Nat.add_zero] at hlimit
      subst hlimit
      have hstop : whileLoop (fun m => decide (m.saveset < limit)) (moveRecord env change container)
          fuel ⟨limit, out, db⟩ = ⟨limit, out, db⟩ := by
        cases fuel with
        | zero => rfl
        | succ fuel => simp [whileLoop]
      rw [hstop]
      simp [relocate, InMemoryDatabase.reindex]
  | cons r us ih =>
      obtain ⟨hstart, htiles⟩ := htiles
      rw [records_start] at hstart
      rw [records_bytes] at htiles
      rw [Layout.flat_cons, List.length_append, records_bytes] at hlimit
      have hpos : 0 < r.toBytes.length := records.bytes_pos r
      obtain ⟨fuel, rfl⟩ : ∃ n, fuel = n + 1 := ⟨fuel - 1, by rw [List.length_cons] at hfuel; omega⟩
      have hentry := hchange r (List.mem_cons_self ..) off (by omega)
      have hmove := @moveRecord_eq env change container m r hstart (hfound r (List.mem_cons_self ..))
        (hlen r (List.mem_cons_self ..)) (by rw [hentry]; rfl)
      rw [hentry] at hmove
      rw [whileLoop, if_pos (by simp only [decide_eq_true_eq]; omega), hmove]
      have hrest : ∀ s ∈ us, ∀ off', s.start + (off + r.toBytes.length) =
          off' + (m.saveset + r.toBytes.length) → change s.entry = (s.moveTo name off').entry :=
        fun s hs off' hoff => hchange s (List.mem_cons_of_mem _ hs) off' (by omega)
      rw [ih htiles (fun s hs => hfound s (List.mem_cons_of_mem _ hs))
        (fun s hs => hlen s (List.mem_cons_of_mem _ hs)) hrest (by dsimp only; omega)
        (by rw [List.length_cons] at hfuel; omega)]
      rw [relocate, Layout.flat_cons, records_bytes, List.append_assoc]
      rfl

/-- A loop that is given its limit as the number of rounds has enough of them. -/
theorem length_le_flat (us : List Record) : us.length ≤ (records.flat us).length := by
  induction us with
  | nil => exact le_refl _
  | cons r us ih =>
      have hpos := records.bytes_pos r
      rw [Layout.flat_cons, List.length_append, List.length_cons]
      omega

theorem relocate_append (name : ContainerName) (rs ts : List Record) (off : Nat) :
    relocate name off (rs ++ ts) =
      relocate name off rs ++ relocate name (off + (records.flat rs).length) ts := by
  induction rs generalizing off with
  | nil => rfl
  | cons r rs ih =>
      rw [List.cons_append, relocate, ih, relocate, List.cons_append, Layout.flat_cons,
        List.length_append, records_bytes, Nat.add_assoc]

/-! ## Compaction -/

open OFFLineBackward

/-- The entry of a record that moves up by what was skipped. -/
theorem shiftUp_entry {r : Record} {name : ContainerName} (hname : r.entry.containerName = name)
    {coldset off : Nat} (hstart : r.start = off + coldset) :
    { r.entry with offset := r.entry.offset - UInt32.ofNat coldset } = (r.moveTo name off).entry := by
  have hoff : r.entry.offset = UInt32.ofNat off + UInt32.ofNat coldset := by
    rw [← UInt32.ofNat_add, ← hstart, Record.start, UInt32.ofNat_toNat]
  rw [hoff, UInt32.add_sub_cancel, Record.moveTo, ← hname]

/-- **Compaction of one container.** The records that are cold are skipped, the
others move up. `pre` are the records between the last one that was skipped
and `us`. -/
theorem skipColds_spec {container : Bytes} {name : ContainerName} {cold : Record → Bool}
    (us : List Record) {pre : List Record} {coldset : Nat} {m : Moving}
    (htiles : records.Tiles m.saveset (pre ++ us)) (hfound : ∀ r ∈ pre ++ us, r.FoundIn container)
    (hplaced : ∀ r ∈ pre ++ us, r.PlacedIn name) (hpre : ∀ r ∈ pre, cold r = false)
    (hset : m.saveset = m.out.length + coldset) :
    ∃ st, ((us.filter cold).map Record.range).foldl (skipCold env container) (coldset, m) = st ∧
      moveUpTo env (fun e => { e with offset := e.offset - UInt32.ofNat st.1 }) container
          (m.saveset + (records.flat (pre ++ us)).length) st.2 =
        { saveset := m.saveset + (records.flat (pre ++ us)).length
          out := m.out ++ records.flat (relocate name m.out.length
            ((pre ++ us).filter fun r => !cold r))
          db := m.db.reindex env (relocate name m.out.length
            ((pre ++ us).filter fun r => !cold r)) } ∧
      m.saveset + (records.flat (pre ++ us)).length =
        (m.out ++ records.flat (relocate name m.out.length
          ((pre ++ us).filter fun r => !cold r))).length + st.1 := by
  induction us generalizing pre coldset m with
  | nil =>
      rw [List.append_nil] at htiles hfound hplaced ⊢
      have hkeep : (pre.filter fun r => !cold r) = pre :=
        List.filter_eq_self.mpr fun r hr => by rw [hpre r hr]; rfl
      refine ⟨(coldset, m), rfl, ?_, ?_⟩
      · rw [hkeep]
        show moveUpTo env (fun e => { e with offset := e.offset - UInt32.ofNat coldset }) container _ m = _
        refine moveUpTo_spec pre htiles hfound (fun r hr => (hplaced r hr).2) ?_ rfl ?_
        · exact fun r hr off' hoff => shiftUp_entry (hplaced r hr).1 (by omega)
        · exact le_trans (length_le_flat pre) (Nat.le_add_left _ _)
      · rw [hkeep, List.length_append, length_flat_relocate]
        omega
  | cons d us ih =>
      cases hd : cold d with
      | false =>
          -- one more record of the block
          have hassoc : pre ++ d :: us = (pre ++ [d]) ++ us := by simp
          rw [List.filter_cons_of_neg (by simp [hd]), hassoc]
          rw [hassoc] at htiles hfound hplaced
          refine ih htiles hfound hplaced (fun r hr => ?_) hset
          rcases List.mem_append.mp hr with hr | hr
          · exact hpre r hr
          · rw [List.mem_singleton.mp hr]
            exact hd
      | true =>
          -- the block before it is copied, then it is skipped
          have hkeep : (pre.filter fun r => !cold r) = pre :=
            List.filter_eq_self.mpr fun r hr => by rw [hpre r hr]; rfl
          obtain ⟨htpre, hstart, htus⟩ := tiles_append.mp htiles
          rw [records_start] at hstart
          rw [records_bytes] at htus
          have hblock : moveUpTo env (fun e => { e with offset := e.offset - UInt32.ofNat coldset })
              container d.start m =
              { saveset := d.start
                out := m.out ++ records.flat (relocate name m.out.length pre)
                db := m.db.reindex env (relocate name m.out.length pre) } := by
            refine moveUpTo_spec pre htpre (fun r hr => hfound r (List.mem_append_left _ hr))
              (fun r hr => (hplaced r (List.mem_append_left _ hr)).2) ?_ hstart ?_
            · exact fun r hr off' hoff =>
                shiftUp_entry (hplaced r (List.mem_append_left _ hr)).1 (by omega)
            · rw [hstart]
              exact le_trans (length_le_flat pre) (Nat.le_add_left _ _)
          have hfirst : skipCold env container (coldset, m) d.range =
              (coldset + d.toBytes.length,
                { saveset := d.start + d.toBytes.length
                  out := m.out ++ records.flat (relocate name m.out.length pre)
                  db := m.db.reindex env (relocate name m.out.length pre) }) := by
            unfold skipCold Record.range
            dsimp only
            rw [hblock]
          rw [List.filter_cons_of_pos hd, List.map_cons, List.foldl_cons, hfirst]
          have hus : ∀ r ∈ us, r ∈ pre ++ d :: us := fun r hr =>
            List.mem_append_right _ (List.mem_cons_of_mem _ hr)
          obtain ⟨st, hst, hmoved, hlength⟩ := @ih [] (coldset + d.toBytes.length)
            ({ saveset := d.start + d.toBytes.length
               out := m.out ++ records.flat (relocate name m.out.length pre)
               db := m.db.reindex env (relocate name m.out.length pre) } : Moving)
            (by rw [hstart]; exact htus) (fun r hr => hfound r (hus r hr))
            (fun r hr => hplaced r (hus r hr)) (fun r hr => by cases hr)
            (by simp only [List.length_append, length_flat_relocate]; omega)
          have hlimit : d.start + d.toBytes.length + (records.flat ([] ++ us)).length =
              m.saveset + (records.flat (pre ++ d :: us)).length := by
            simp only [Layout.flat_append, Layout.flat_cons, records_bytes, List.length_append,
              List.nil_append, hstart]
            omega
          have hfilter : ((pre ++ d :: us).filter fun r => !cold r) =
              pre ++ us.filter fun r => !cold r := by
            rw [List.filter_append, hkeep, List.filter_cons_of_neg (by simp [hd])]
          dsimp only at hmoved hlength
          rw [hlimit] at hmoved hlength
          simp only [List.nil_append, List.length_append, length_flat_relocate] at hmoved hlength
          refine ⟨st, hst, ?_, ?_⟩
          · rw [hmoved, hfilter, relocate_append, InMemoryDatabase.reindex_append,
              Layout.flat_append (relocate name m.out.length pre), List.append_assoc]
          · simp only [hfilter, List.length_append, length_flat_relocate, Layout.flat_append] at hlength ⊢
            omega

/-- The ranges of the cold records, sorted, stand in the order of the records. -/
theorem sorted_ranges {rs : List Record} (htiles : records.Tiles 0 rs) {cold : Record → Bool}
    {l : List (Nat × Nat)} (hnd : l.Nodup)
    (hmem : ∀ x, x ∈ l ↔ ∃ r ∈ rs, cold r = true ∧ x = r.range) :
    l.insertionSort (fun a b => a.1 ≤ b.1) = (rs.filter cold).map Record.range := by
  have htotal : Std.Total fun a b : Nat × Nat => a.1 ≤ b.1 := ⟨fun a b => Nat.le_total a.1 b.1⟩
  have htrans : IsTrans (Nat × Nat) fun a b => a.1 ≤ b.1 := ⟨fun _ _ _ => Nat.le_trans⟩
  have hmem' : ∀ x, x ∈ (rs.filter cold).map Record.range ↔ x ∈ l := by
    intro x
    rw [hmem, List.mem_map]
    constructor
    · rintro ⟨r, hr, rfl⟩
      obtain ⟨hr, hcold⟩ := List.mem_filter.mp hr
      exact ⟨r, hr, hcold, rfl⟩
    · rintro ⟨r, hr, hcold, rfl⟩
      exact ⟨r, List.mem_filter.mpr ⟨hr, hcold⟩, rfl⟩
  have hnd' : ((rs.filter cold).map Record.range).Nodup := by
    refine List.Nodup.of_map Prod.fst ?_
    rw [List.map_map]
    exact htiles.start_nodup.sublist ((List.filter_sublist).map _)
  have hsorted : ((rs.filter cold).map Record.range).Pairwise fun a b => a.1 ≤ b.1 := by
    rw [List.pairwise_map]
    exact (htiles.pairwise_start).filter _
  have hperm : (l.insertionSort fun a b => a.1 ≤ b.1).Perm ((rs.filter cold).map Record.range) :=
    (List.perm_insertionSort _ l).trans
      ((List.perm_ext_iff_of_nodup hnd hnd').mpr fun x => (hmem' x).symm)
  refine hperm.eq_of_pairwise ?_ (List.pairwise_insertionSort _ l) hsorted
  intro x y hx hy hxy hyx
  obtain ⟨r, hr, -, rfl⟩ := (hmem x).mp ((List.mem_insertionSort _).mp hx)
  obtain ⟨s, hs, -, rfl⟩ := (hmem y).mp ((hmem' y).mp hy)
  rw [htiles.eq_of_start hr hs (le_antisymm hxy hyx)]

/-- What holds while containers are compacted, those in `left` still to come:
the files are all containers, and nobody waits for a base. -/
structure Compacting (env : Env) (s₀ : Server) (abs₀ : Fp → Option Content) (left : List ContainerName)
    (p : Pass) (F : Containers) (abs : Fp → Option Content) : Prop where
  rep : Rep env F p.server.db.queryBuffer abs
  cold : Cold env F p.server.db.queryBuffer (getList p.server.db.coldMap)
  named : ∀ {d n}, F (d, n) ≠ none → Named p.server.created n
  view : p.server.view = viewOf F
  contents : ∀ f c, abs f = some c → c.Ok env f
  linked : Linked p.server.db abs fun _ => False
  localTmpMap : p.server.db.localTmpMap = ∅
  skipMap : p.server.db.skipMap = ∅
  localMap : p.server.db.localMap = []
  vector : p.server.db.coldContainerVector = left
  present : ∀ n ∈ left, ∃ d, F (d, n) ≠ none
  listed : ∀ n, getList p.server.db.coldMap n ≠ [] → n ∈ left
  coldSet : p.server.db.coldContainerSet = []
  enclave : SameEnclave s₀ p.server
  chunks : SameChunks env abs₀ abs

variable {s₀ : Server} {abs₀ : Fp → Option Content} {left : List ContainerName} {p : Pass}

/-- A container is found in its own directory. -/
theorem oneColdContainer_eq {d : Dir} {n : ContainerName} {rs : List Record}
    (hapart : F (.base, n) = none ∨ F (.delta, n) = none) (hview : p.server.view = viewOf F)
    (hrs : F (d, n) = some rs) :
    p.oneColdContainer n = (d, { p with
      server := p.server.readContainer (records.flat rs)
      containersize := (records.flat rs).length }) := by
  have hfile : ∀ d', (p.server.containers d').lookup n = (F (d', n)).map records.flat :=
    fun d' => congrFun (congrFun hview d') n
  have hdelta := hfile .delta
  unfold Pass.oneColdContainer
  cases d with
  | delta =>
      rw [hrs] at hdelta
      rw [hdelta]
      rfl
  | base =>
      have hbase := hfile .base
      have hnone : F (.delta, n) = none := by
        rcases hapart with hb | hd
        · rw [hrs] at hb
          cases hb
        · exact hd
      rw [hnone] at hdelta
      rw [hrs] at hbase
      rw [hdelta, hbase]
      rfl

/-- What `Update_cold_container` makes of a container whose cold ranges it is
given. -/
theorem server_updateColdContainer {d : Dir} {n : ContainerName} {rs : List Record}
    (hapart : F (.base, n) = none ∨ F (.delta, n) = none) (hview : p.server.view = viewOf F)
    (hrs : F (d, n) = some rs) (hholds : Holds n (records.flat rs) rs) {cold : Record → Bool}
    {l : List (Nat × Nat)} (hnd : l.Nodup)
    (hmem : ∀ x, x ∈ l ↔ ∃ r ∈ rs, cold r = true ∧ x = r.range) :
    ∃ b, (updateColdContainer env p n l).server =
      { p.server.saveToFile d n (records.flat (relocate n 0 (rs.filter fun r => !cold r))) with
        db := p.server.db.reindex env (relocate n 0 (rs.filter fun r => !cold r))
        tmpOcallcontainer := b } := by
  have hone := @oneColdContainer_eq F (p.askFor n) d n rs hapart hview hrs
  unfold updateColdContainer
  rw [hone, sorted_ranges hholds.tiles hnd hmem]
  dsimp only
  have hfound : ∀ r ∈ rs, r.FoundIn
      (((p.askFor n).server.readContainer (records.flat rs)).tmpOcallcontainer) :=
    fun r hr => hholds.found hr (prefix_writeAt _ _)
  obtain ⟨st, hst, hmoved, hlength⟩ := @skipColds_spec env _ n cold rs [] 0
    ⟨0, [], p.server.db⟩ hholds.tiles hfound hholds.placed (fun r hr => by cases hr) rfl
  simp only [List.nil_append, Nat.zero_add, List.length_nil] at hmoved hlength
  refine ⟨writeAt p.server.tmpOcallcontainer 0 (records.flat rs), ?_⟩
  rw [show ((p.askFor n).server.readContainer (records.flat rs)).db = p.server.db from rfl, hst, hmoved]
  have hslice : slice (memOf (writeAt p.mergeNewContainer 0
        (records.flat (relocate n 0 (rs.filter fun r => !cold r))))) 0
      ((records.flat rs).length - st.1) =
        records.flat (relocate n 0 (rs.filter fun r => !cold r)) := by
    obtain ⟨t, ht⟩ := prefix_writeAt p.mergeNewContainer
      (records.flat (relocate n 0 (rs.filter fun r => !cold r)))
    rw [← ht, hlength, Nat.add_sub_cancel, slice_memOf (by simp), List.drop_zero, List.take_left]
  rw [show (p.askFor n).mergeNewContainer = p.mergeNewContainer from rfl, hslice]
  rfl

/-- A container's records are replaced. -/
theorem view_replaced {s : Server} (hview : s.view = viewOf F) (d : Dir) (n : ContainerName)
    (ts : List Record) : (s.saveToFile d n (records.flat ts)).view =
      viewOf (Function.update F (d, n) (some ts)) := by
  funext d' n'
  rw [view_saveToFile, viewOf, hview]
  by_cases heq : (d', n') = (d, n)
  · obtain ⟨rfl, rfl⟩ := Prod.mk.injEq .. |>.mp heq
    rw [if_pos ⟨rfl, rfl⟩, Function.update_self]
    rfl
  · rw [if_neg (fun h => heq (by rw [h.1, h.2])), Function.update_of_ne heq]
    rfl

theorem named_replaced {created : Nat} (hnamed : ∀ {d n}, F (d, n) ≠ none → Named created n)
    {d : Dir} {n : ContainerName} (hn : F (d, n) ≠ none) (ts : List Record) {d' : Dir}
    {n' : ContainerName} (h : Function.update F (d, n) (some ts) (d', n') ≠ none) : Named created n' := by
  by_cases heq : (d', n') = (d, n)
  · obtain ⟨rfl, rfl⟩ := Prod.mk.injEq .. |>.mp heq
    exact hnamed hn
  · rw [Function.update_of_ne heq] at h
    exact hnamed h

/-- The index leads elsewhere. -/
def isCold (env : Env) (idx : Fp → Option Cipher) (r : Record) : Bool :=
  decide (idx r.fp ≠ some (env.encEntry r.entry))

theorem isCold_iff {idx : Fp → Option Cipher} {r : Record} :
    isCold env idx r = true ↔ ¬ Live env idx r := by
  rw [isCold, decide_eq_true_eq]
  rfl

theorem not_isCold_iff {idx : Fp → Option Cipher} {r : Record} :
    (!isCold env idx r) = true ↔ Live env idx r := by
  rw [Bool.not_eq_true', ← Bool.not_eq_true, isCold_iff, not_not]

/-- The files are all containers, behind the index; `cold` are the ranges of the
records that were left behind. -/
structure ServerFiled (env : Env) (s : Server) (cold : ContainerName → List (Nat × Nat))
    (F : Containers) (abs : Fp → Option Content) : Prop where
  rep : Rep env F s.db.queryBuffer abs
  cold : Cold env F s.db.queryBuffer cold
  named : ∀ {d n}, F (d, n) ≠ none → Named s.created n
  view : s.view = viewOf F

/-- One container is compacted. -/
theorem ServerFiled.updateColdContainer (henv : env.Lawful) {cold : ContainerName → List (Nat × Nat)}
    (h : ServerFiled env p.server cold F abs) {d : Dir} {n : ContainerName} {rs : List Record}
    (hrs : F (d, n) = some rs) {l : List (Nat × Nat)} (hl : l.Perm (cold n)) :
    ∃ b ts, (updateColdContainer env p n l).server =
        { p.server.saveToFile d n (records.flat (relocate n 0 ts)) with
          db := p.server.db.reindex env (relocate n 0 ts)
          tmpOcallcontainer := b } ∧
      ServerFiled env (updateColdContainer env p n l).server (Function.update cold n [])
        (Function.update F (d, n) (some (relocate n 0 ts))) abs := by
  have hsub : (rs.filter fun r => !isCold env p.server.db.queryBuffer r).Sublist rs := List.filter_sublist
  have hlive : ∀ r ∈ rs, r ∈ rs.filter (fun r => !isCold env p.server.db.queryBuffer r) ↔
      Live env p.server.db.queryBuffer r := by
    intro r hr
    rw [List.mem_filter, not_isCold_iff]
    exact and_iff_right hr
  have hranges : ∀ x, x ∈ l ↔
      ∃ r ∈ rs, isCold env p.server.db.queryBuffer r = true ∧ x = r.range := by
    intro x
    rw [hl.mem_iff, h.cold.mem_iff]
    constructor
    · rintro ⟨d', r, ⟨us, hus, hr⟩, hdead, rfl⟩
      obtain rfl := h.rep.dir_unique hus hrs
      obtain rfl := Option.some.inj (hus.symm.trans hrs)
      exact ⟨r, hr, isCold_iff.mpr hdead, rfl⟩
    · rintro ⟨r, hr, hdead, rfl⟩
      exact ⟨d, r, ⟨rs, hrs, hr⟩, isCold_iff.mp hdead, rfl⟩
  obtain ⟨b, hserver⟩ := @server_updateColdContainer env F p d n rs (h.rep.apart n) h.view hrs
    (h.rep.holds hrs) _ _ (hl.nodup_iff.mpr (h.cold.nodup n)) hranges
  generalize rs.filter (fun r => !isCold env p.server.db.queryBuffer r) = ts at hserver hsub hlive
  refine ⟨b, ts, hserver, ?_⟩
  generalize OFFLineBackward.updateColdContainer env p n l = p' at hserver ⊢
  have hidx : p'.server.db.queryBuffer =
      (scheme env).reindex p.server.db.queryBuffer (relocate n 0 ts) := by
    rw [← InMemoryDatabase.queryBuffer_reindex, hserver]
  constructor
  · rw [hidx]
    exact h.rep.compact henv hrs hsub hlive
  · rw [hidx]
    exact h.cold.compact henv h.rep hrs hsub hlive
  · intro d' n' hn'
    rw [hserver]
    exact named_replaced h.named (by rw [hrs]; simp) _ hn'
  · rw [hserver]
    exact view_replaced h.view d n _

namespace Compacting

theorem filed (h : Compacting env s₀ abs₀ left p F abs) :
    ServerFiled env p.server (getList p.server.db.coldMap) F abs := ⟨h.rep, h.cold, h.named, h.view⟩

/-- The last container of the vector is compacted. -/
theorem updateColdContainer (henv : env.Lawful) {n : ContainerName}
    (h : Compacting env s₀ abs₀ (left ++ [n]) p F abs) :
    ∃ F', Compacting env s₀ abs₀ left (updateColdContainer env
      (p.mapDb fun db => { db with coldMap := db.coldMap.erase n, coldContainerVector := left }) n
      (getList p.server.db.coldMap n).reverse) F' abs := by
  obtain ⟨d, hd⟩ := h.present n (by simp)
  obtain ⟨rs, hrs⟩ := Option.ne_none_iff_exists'.mp hd
  have hfiled : ServerFiled env (p.mapDb fun db => { db with
      coldMap := db.coldMap.erase n, coldContainerVector := left }).server
      (getList p.server.db.coldMap) F abs := ⟨h.rep, h.cold, h.named, h.view⟩
  obtain ⟨b, ts, hserver, hrep, hcompact, hnamed, hview⟩ :=
    hfiled.updateColdContainer henv hrs (List.reverse_perm _)
  generalize OFFLineBackward.updateColdContainer env _ n _ = p' at hserver hrep hcompact hnamed hview ⊢
  have hdb : p'.server.db = { p.server.db.reindex env (relocate n 0 ts) with
      coldMap := p.server.db.coldMap.erase n
      coldContainerVector := left } := by
    rw [hserver]
    rfl
  have hcold : getList p'.server.db.coldMap = Function.update (getList p.server.db.coldMap) n [] := by
    rw [hdb]
    funext m
    rw [getList_erase, Function.update_apply]
  refine ⟨Function.update F (d, n) (some (relocate n 0 ts)), ?_⟩
  constructor
  · exact hrep
  · rw [hcold]
    exact hcompact
  · exact hnamed
  · exact hview
  · exact h.contents
  · exact h.linked.congr (by rw [hdb]; rfl) (by rw [hdb]; rfl) fun _ hf => hf
  · rw [hdb]
    exact h.localTmpMap
  · rw [hdb]
    exact h.skipMap
  · rw [hdb]
    exact h.localMap
  · rw [hdb]
  · intro m hm
    obtain ⟨d', hd'⟩ := h.present m (List.mem_append_left _ hm)
    refine ⟨d', ?_⟩
    by_cases heq : (d', m) = (d, n)
    · rw [heq, Function.update_self]
      simp
    · rwa [Function.update_of_ne heq]
  · intro m hm
    rw [hcold] at hm
    have hne : m ≠ n := by
      rintro rfl
      rw [Function.update_self] at hm
      exact hm rfl
    rw [Function.update_of_ne hne] at hm
    have hleft := h.listed m hm
    simpa [hne] using hleft
  · rw [hdb]
    exact h.coldSet
  · rw [hserver]
    exact h.enclave.trans ⟨rfl, rfl, rfl⟩
  · exact h.chunks

/-- **The cold containers are compacted**, and no record is left behind. -/
theorem updateCold (henv : env.Lawful) (fuel : Nat) {left : List ContainerName} {p : Pass}
    {F : Containers} (h : Compacting env s₀ abs₀ left p F abs) (hfuel : left.length ≤ fuel) :
    ∃ F', Compacting env s₀ abs₀ [] (updateCold env fuel p) F' abs := by
  induction fuel generalizing left p F with
  | zero =>
      rw [List.length_eq_zero_iff.mp (Nat.le_zero.mp hfuel)] at h
      exact ⟨F, h⟩
  | succ fuel ih =>
      rw [OFFLineBackward.updateCold, InMemoryDatabase.getCold, h.vector]
      rcases List.eq_nil_or_concat left with rfl | ⟨left, n, rfl⟩
      · exact ⟨F, h⟩
      · rw [List.concat_eq_append] at h hfuel ⊢
        obtain ⟨F₁, h₁⟩ := h.updateColdContainer henv
        rw [List.getLast?_append, List.dropLast_concat]
        exact ih h₁ (by rw [List.length_append, List.length_singleton] at hfuel; omega)

end Compacting

/-! ## Merging -/

/-- The entry of a record that moves behind the records of another container. -/
theorem shiftDown_entry {r : Record} {name : ContainerName} {len off : Nat}
    (hstart : r.start + len = off) :
    { r.entry with offset := r.entry.offset + UInt32.ofNat len, containerName := name } =
      (r.moveTo name off).entry := by
  have hoff : r.entry.offset + UInt32.ofNat len = UInt32.ofNat off := by
    rw [← hstart, UInt32.ofNat_add, Record.start, UInt32.ofNat_toNat]
  rw [hoff]
  rfl

/-- What the merge of two base containers makes of the server. -/
theorem server_mergePair {a b : ContainerName} {rs ts : List Record}
    (ha : (p.server.containers .base).lookup a = some (records.flat rs))
    (hb : (p.server.containers .base).lookup b = some (records.flat ts))
    (hholds : Holds b (records.flat ts) ts) :
    (mergePair env p (a, b)).server =
      { p.server.saveToFile .base a
          (records.flat (rs ++ relocate a (records.flat rs).length ts)) with
        db := p.server.db.reindex env (relocate a (records.flat rs).length ts)
        containers := fun d => match d with
          | .base => ((p.server.saveToFile .base a
              (records.flat (rs ++ relocate a (records.flat rs).length ts))).containers .base).erase b
          | .delta => (p.server.saveToFile .base a
              (records.flat (rs ++ relocate a (records.flat rs).length ts))).containers .delta } := by
  have hfile : ∀ n us, (p.server.containers .base).lookup n = some (records.flat us) →
      baseFile p.server n = records.flat us := by
    intro n us hus
    rw [baseFile, hus]
    rfl
  have hfound : ∀ r ∈ ts, r.FoundIn (writeAt p.mergeContainer 0 (records.flat ts)) :=
    fun r hr => hholds.found hr (prefix_writeAt _ _)
  have hmoved := @moveUpTo_spec env (fun e => { e with
      offset := e.offset + UInt32.ofNat (records.flat rs).length, containerName := a })
    (writeAt p.mergeContainer 0 (records.flat ts)) a ts (records.flat ts).length
    (records.flat rs).length (records.flat ts).length ⟨0, [], p.server.db⟩ hholds.tiles hfound
    (fun r hr => (hholds.placed r hr).2) (fun r hr off' hoff => shiftDown_entry (by simpa using hoff))
    (by simp) (length_le_flat ts)
  rw [List.nil_append] at hmoved
  have hslice : slice (memOf (writeAt p.mergeNewContainer 0
        (records.flat (relocate a (records.flat rs).length ts)))) 0 (records.flat ts).length =
        records.flat (relocate a (records.flat rs).length ts) := by
    obtain ⟨t, ht⟩ := prefix_writeAt p.mergeNewContainer
      (records.flat (relocate a (records.flat rs).length ts))
    rw [← ht, ← length_flat_relocate a (records.flat rs).length ts, slice_memOf (by simp),
      List.drop_zero, List.take_left]
  unfold mergePair
  dsimp only
  rw [hfile a rs ha, hfile b ts hb]
  unfold moveUpTo
  rw [hmoved]
  dsimp only
  rewrite [hslice, Layout.flat_append]
  congr 1

/-- The containers after the containers `a` and `b` became one. -/
def mergedFiles (F : Containers) (a b : ContainerName) (rs ts : List Record) : Containers :=
  Function.update (Function.update F (.base, a)
    (some (rs ++ relocate a (records.flat rs).length ts))) (.base, b) none

theorem merged_ne (F : Containers) {a b : ContainerName} (rs ts : List Record) (n : ContainerName)
    (hna : n ≠ a) (hnb : n ≠ b) : mergedFiles F a b rs ts (.base, n) = F (.base, n) := by
  rw [mergedFiles, Function.update_of_ne (by simp [hnb]), Function.update_of_ne (by simp [hna])]

namespace ServerFiled

theorem nothing {s : Server} {cold : ContainerName → List (Nat × Nat)}
    (h : ServerFiled env s cold F abs) (hnil : ∀ n, cold n = []) :
    ServerFiled env s (fun _ => []) F abs := by
  obtain rfl : cold = fun _ => [] := funext hnil
  exact h

/-- Two base containers become one. -/
theorem mergePair (henv : env.Lawful) (h : ServerFiled env p.server (fun _ => []) F abs)
    {a b : ContainerName} (hne : a ≠ b) {rs ts : List Record} (ha : F (.base, a) = some rs)
    (hb : F (.base, b) = some ts)
    (hsmall : (records.flat rs).length + (records.flat ts).length < MAX_CONTAINER_SIZE) :
    (mergePair env p (a, b)).server =
        { p.server.saveToFile .base a
            (records.flat (rs ++ relocate a (records.flat rs).length ts)) with
          db := p.server.db.reindex env (relocate a (records.flat rs).length ts)
          containers := fun d => match d with
            | .base => ((p.server.saveToFile .base a
                (records.flat (rs ++ relocate a (records.flat rs).length ts))).containers .base).erase b
            | .delta => (p.server.saveToFile .base a
                (records.flat (rs ++ relocate a (records.flat rs).length ts))).containers .delta } ∧
      ServerFiled env (mergePair env p (a, b)).server (fun _ => []) (mergedFiles F a b rs ts) abs := by
  have hlook : ∀ n us, F (.base, n) = some us →
      (p.server.containers .base).lookup n = some (records.flat us) := by
    intro n us hus
    have hview : (p.server.containers .base).lookup n = (F (.base, n)).map records.flat :=
      congrFun (congrFun h.view .base) n
    rw [hview, hus]
    rfl
  have hserver := @server_mergePair env p a b rs ts (hlook a rs ha) (hlook b ts hb) (h.rep.holds hb)
  refine ⟨hserver, ?_⟩
  generalize OFFLineBackward.mergePair env p (a, b) = p' at hserver ⊢
  have hlive := h.cold.allLive fun _ => rfl
  have hidx : p'.server.db.queryBuffer = (scheme env).reindex p.server.db.queryBuffer
      (relocate a (records.flat rs).length ts) := by
    rw [← InMemoryDatabase.queryBuffer_reindex, hserver]
  constructor
  · rw [hidx]
    exact h.rep.merge henv hne ha hb (fun r hr => hlive _ r ⟨ts, hb, hr⟩) hsmall
  · rw [hidx]
    exact (hlive.merge henv h.rep ha hb).cold
  · intro d n hn
    rw [hserver]
    rw [mergedFiles] at hn
    by_cases hq : (d, n) = (.base, b)
    · rw [hq, Function.update_self] at hn
      exact absurd rfl hn
    · rw [Function.update_of_ne hq] at hn
      exact named_replaced h.named (by rw [ha]; simp) _ hn
  · funext d n
    rw [hserver]
    have hsaved := congrFun (congrFun (view_replaced h.view .base a
      (rs ++ relocate a (records.flat rs).length ts)) d) n
    rw [viewOf] at hsaved ⊢
    rw [mergedFiles]
    by_cases hq : (d, n) = (.base, b)
    · obtain ⟨rfl, rfl⟩ := Prod.mk.injEq .. |>.mp hq
      rw [Function.update_self]
      exact AList.lookup_erase _ _
    · rw [Function.update_of_ne hq, ← hsaved]
      cases d with
      | base => exact AList.lookup_erase_ne fun hn => hq (by rw [hn])
      | delta => rfl

end ServerFiled

namespace Compacting

/-- No record was left behind. -/
theorem nothing (h : Compacting env s₀ abs₀ [] p F abs) (n : ContainerName) :
    getList p.server.db.coldMap n = [] := by
  by_contra hne
  cases h.listed n hne

theorem allLive (h : Compacting env s₀ abs₀ [] p F abs) : AllLive env F p.server.db.queryBuffer :=
  h.cold.allLive h.nothing

/-- Two base containers become one. -/
theorem mergePair (henv : env.Lawful) (h : Compacting env s₀ abs₀ [] p F abs) {a b : ContainerName}
    (hne : a ≠ b) {rs ts : List Record} (ha : F (.base, a) = some rs) (hb : F (.base, b) = some ts)
    (hsmall : (records.flat rs).length + (records.flat ts).length < MAX_CONTAINER_SIZE) :
    ∃ F', Compacting env s₀ abs₀ [] (mergePair env p (a, b)) F' abs ∧
      ∀ n, n ≠ a → n ≠ b → F' (.base, n) = F (.base, n) := by
  obtain ⟨hserver, hrep, hcold, hnamed, hview⟩ :=
    (h.filed.nothing fun n => h.nothing n).mergePair henv hne ha hb hsmall
  generalize OFFLineBackward.mergePair env p (a, b) = p' at hserver hrep hcold hnamed hview ⊢
  have hdb : p'.server.db = p.server.db.reindex env (relocate a (records.flat rs).length ts) := by
    rw [hserver]
  have hcoldMap : getList p'.server.db.coldMap = fun _ => [] := by
    rw [hdb]
    exact funext h.nothing
  refine ⟨_, ?_, merged_ne F rs ts⟩
  constructor
  · exact hrep
  · rw [hcoldMap]
    exact hcold
  · exact hnamed
  · exact hview
  · exact h.contents
  · exact h.linked.congr (by rw [hdb]; rfl) (by rw [hdb]; rfl) fun _ hf => hf
  · rw [hdb]
    exact h.localTmpMap
  · rw [hdb]
    exact h.skipMap
  · rw [hdb]
    exact h.localMap
  · rw [hdb]
    exact h.vector
  · intro n hn
    cases hn
  · intro n hn
    rw [hcoldMap] at hn
    exact absurd rfl hn
  · rw [hdb]
    exact h.coldSet
  · rw [hserver]
    exact h.enclave.trans ⟨rfl, rfl, rfl⟩
  · exact h.chunks

end Compacting

/-- The pairs are neighbours, no container is in two of them, and they fit. -/
theorem getMergePairs_spec (size : ContainerName → Nat) (l : List ContainerName) :
    ((getMergePairs size l).flatMap fun q => [q.1, q.2]).Sublist l ∧
      ∀ q ∈ getMergePairs size l, size q.1 + size q.2 < MAX_CONTAINER_SIZE := by
  induction l using getMergePairs.induct size with
  | case1 first second rest hsmall ih =>
      rw [getMergePairs, if_pos hsmall]
      refine ⟨(ih.1.cons_cons second).cons_cons first, fun q hq => ?_⟩
      rcases List.mem_cons.mp hq with rfl | hq
      · have hlt : size first + size second < MAX_CONTAINER_SIZE - 1 := hsmall
        show size first + size second < MAX_CONTAINER_SIZE
        omega
      · exact ih.2 q hq
  | case2 first second rest hlarge ih =>
      rw [getMergePairs, if_neg hlarge]
      exact ⟨ih.1.cons first, ih.2⟩
  | case3 l hl =>
      have hnil : getMergePairs size l = [] := by
        unfold getMergePairs
        split
        · rename_i first second rest
          exact absurd rfl (hl first second rest)
        · rfl
      rw [hnil]
      exact ⟨List.nil_sublist _, fun q hq => by cases hq⟩

/-- What the merge of two containers preserves holds after all merges. -/
theorem mergePairs_inv {Q : Pass → Containers → Prop}
    (hstep : ∀ p F a b rs ts, Q p F → a ≠ b → F (.base, a) = some rs → F (.base, b) = some ts →
      (records.flat rs).length + (records.flat ts).length < MAX_CONTAINER_SIZE →
      ∃ F', Q (mergePair env p (a, b)) F' ∧ ∀ n, n ≠ a → n ≠ b → F' (.base, n) = F (.base, n))
    (l : List (ContainerName × ContainerName)) {p : Pass} {F : Containers}
    (hnd : (l.flatMap fun q => [q.1, q.2]).Nodup)
    (hfit : ∀ q ∈ l, ∃ rs ts, F (.base, q.1) = some rs ∧ F (.base, q.2) = some ts ∧
      (records.flat rs).length + (records.flat ts).length < MAX_CONTAINER_SIZE) (h : Q p F) :
    ∃ F', Q (l.foldl (mergePair env) p) F' := by
  induction l generalizing p F with
  | nil => exact ⟨F, h⟩
  | cons q l ih =>
      obtain ⟨a, b⟩ := q
      obtain ⟨rs, ts, ha, hb, hsmall⟩ := hfit (a, b) (List.mem_cons_self ..)
      rw [List.flatMap_cons] at hnd
      obtain ⟨hab, hl, hapart⟩ := List.nodup_append.mp hnd
      have hne : a ≠ b := by simpa using hab
      obtain ⟨F₁, h₁, hkeep⟩ := hstep p F a b rs ts h hne ha hb hsmall
      refine ih hl (fun q hq => ?_) h₁
      have hother : ∀ n ∈ [q.1, q.2], F₁ (.base, n) = F (.base, n) := by
        intro n hn
        have hmem : n ∈ l.flatMap fun q => [q.1, q.2] := List.mem_flatMap.mpr ⟨q, hq, hn⟩
        refine hkeep n ?_ ?_
        · rintro rfl
          exact hapart n (by simp) n hmem rfl
        · rintro rfl
          exact hapart n (by simp) n hmem rfl
      obtain ⟨us, vs, hus, hvs, hsum⟩ := hfit q (List.mem_cons_of_mem _ hq)
      exact ⟨us, vs, (hother q.1 (by simp)).trans hus, (hother q.2 (by simp)).trans hvs, hsum⟩

theorem mergeContainer_inv {Q : Pass → Containers → Prop}
    (hstep : ∀ p F a b rs ts, Q p F → a ≠ b → F (.base, a) = some rs → F (.base, b) = some ts →
      (records.flat rs).length + (records.flat ts).length < MAX_CONTAINER_SIZE →
      ∃ F', Q (mergePair env p (a, b)) F' ∧ ∀ n, n ≠ a → n ≠ b → F' (.base, n) = F (.base, n))
    (hview : p.server.view = viewOf F) (h : Q p F) : ∃ F', Q (mergeContainer env p) F' := by
  have hlook : ∀ n, (p.server.containers .base).lookup n = (F (.base, n)).map records.flat :=
    fun n => congrFun (congrFun hview .base) n
  have hperm := List.perm_insertionSort (fun a b => InMemoryDatabase.nameLe a b = true)
    (p.server.containers .base).keys
  obtain ⟨hsub, hsmall⟩ := getMergePairs_spec (fun n => (baseFile p.server n).length)
    ((p.server.containers .base).keys.insertionSort fun a b => InMemoryDatabase.nameLe a b = true)
  have hfile : ∀ n ∈ (p.server.containers .base).keys.insertionSort
      (fun a b => InMemoryDatabase.nameLe a b = true), ∃ rs, F (.base, n) = some rs ∧
        (baseFile p.server n).length = (records.flat rs).length := by
    intro n hn
    have hmem : n ∈ p.server.containers .base := AList.mem_keys.mpr (hperm.mem_iff.mp hn)
    obtain ⟨file, hf⟩ := Option.isSome_iff_exists.mp (AList.lookup_isSome.mpr hmem)
    have hf' := hlook n
    rw [hf] at hf'
    obtain ⟨rs, hrs, rfl⟩ := Option.map_eq_some_iff.mp hf'.symm
    refine ⟨rs, hrs, ?_⟩
    rw [baseFile, hf]
    rfl
  refine mergePairs_inv hstep _ ?_ (fun q hq => ?_) h
  · exact (hperm.nodup_iff.mpr (AList.keys_nodup _)).sublist hsub
  · obtain ⟨rs, hrs, hlenrs⟩ := hfile q.1 (hsub.subset (List.mem_flatMap.mpr ⟨q, hq, by simp⟩))
    obtain ⟨ts, hts, hlents⟩ := hfile q.2 (hsub.subset (List.mem_flatMap.mpr ⟨q, hq, by simp⟩))
    refine ⟨rs, ts, hrs, hts, ?_⟩
    rw [← hlenrs, ← hlents]
    exact hsmall q hq

/-- **Small base containers are merged.** -/
theorem ServerFiled.mergeContainer (henv : env.Lawful)
    (h : ServerFiled env p.server (fun _ => []) F abs) :
    ∃ F', ServerFiled env (mergeContainer env p).server (fun _ => []) F' abs := by
  refine mergeContainer_inv (Q := fun p F => ServerFiled env p.server (fun _ => []) F abs) ?_ h.view h
  intro p F a b rs ts h hne ha hb hsmall
  exact ⟨_, (h.mergePair henv hne ha hb hsmall).2, merged_ne F rs ts⟩

theorem Compacting.mergeContainer (henv : env.Lawful) (h : Compacting env s₀ abs₀ [] p F abs) :
    ∃ F', Compacting env s₀ abs₀ [] (mergeContainer env p) F' abs := by
  refine mergeContainer_inv (Q := fun p F => Compacting env s₀ abs₀ [] p F abs) ?_ h.view h
  intro p F a b rs ts h hne ha hb hsmall
  exact h.mergePair henv hne ha hb hsmall

end ShieldReduce

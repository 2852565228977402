import ShieldReduce.Guarantee.InOrder
import ShieldReduce.Guarantee.RoundTrip
import ShieldReduce.System.DataSender

/-!
# Batches of chunks in both directions

A client sends a file in full batches and what is left over, and a server
answers a restore in messages that it fills the same way. Either receiver
goes by the number of items in the header and the size in front of each
chunk, and finds the chunks that were sent, in order (`framing_both`). The
header counts bytes in a 32-bit word: a batch of `2^32` bytes counts as
empty (`framing_overflow`).
-/

namespace ShieldReduce

open ByteLib Restore

namespace DataSender

variable {env : Env} {sessionKey : Key}

theorem parseChunks_frameChunks (cs : List Chunk) :
    (parseChunks (frameChunks (cs.map Subtype.val)) cs.length 0).map Prod.snd =
      cs.map Subtype.val := by
  have hparse := (parseChunks_frame cs []).1
  rwa [List.nil_append, List.length_nil] at hparse

theorem exists_chunks {ps : List Bytes} (h : ∀ p ∈ ps, 0 < p.length ∧ p.length ≤ MAX_CHUNK_SIZE) :
    ∃ cs : List Chunk, ps = cs.map Subtype.val :=
  ⟨ps.attachWith _ h, (List.attachWith_map_subtype_val h).symm⟩

/-- The server finds the chunks of a message. -/
theorem receivedChunks_message (hdec : ∀ k x, env.sessionKeyDec k (env.sessionKeyEnc k x) = x)
    {cs : List Chunk} (hnum : cs.length < 2 ^ 32) :
    receivedChunks env sessionKey [chunkMessage env sessionKey (cs.map Subtype.val)] =
      cs.map Subtype.val := by
  have hcount : (UInt32.ofNat (cs.map Subtype.val).length).toNat = cs.length := by
    rw [UInt32.toNat_ofNat', List.length_map]
    exact Nat.mod_eq_of_lt hnum
  rw [receivedChunks, List.flatMap_singleton, chunkMessage]
  dsimp only
  rw [hdec, hcount, parseChunks_frameChunks]

theorem receivedChunks_append (msgs msgs' : List NetworkMessage) :
    receivedChunks env sessionKey (msgs ++ msgs') =
      receivedChunks env sessionKey msgs ++ receivedChunks env sessionKey msgs' :=
  List.flatMap_append

theorem receivedChunks_messages (hdec : ∀ k x, env.sessionKeyDec k (env.sessionKeyEnc k x) = x)
    {groups : List (List Chunk)} (hnum : ∀ g ∈ groups, g.length < 2 ^ 32) :
    receivedChunks env sessionKey
        (groups.map fun g => chunkMessage env sessionKey (g.map Subtype.val)) =
      groups.flatten.map Subtype.val := by
  induction groups with
  | nil => rfl
  | cons g groups ih =>
      obtain ⟨hg, hgs⟩ := List.forall_mem_cons.mp hnum
      rw [List.map_cons, ← List.singleton_append, receivedChunks_append,
        receivedChunks_message hdec hg, ih hgs, List.flatten_cons, List.map_append]

/-- The counts of a message within the bounds are those of its chunks. -/
theorem message_counts (hdec : ∀ k x, env.sessionKeyDec k (env.sessionKeyEnc k x) = x)
    (hfit : env.sendChunkBatchSize * sizeofChunk < 2 ^ 32) {cs : List Chunk}
    (hcs : cs.length ≤ env.sendChunkBatchSize) :
    (chunkMessage env sessionKey (cs.map Subtype.val)).currentItemNum.toNat ≤ env.sendChunkBatchSize ∧
      (chunkMessage env sessionKey (cs.map Subtype.val)).dataSize.toNat ≤
        env.sendChunkBatchSize * sizeofChunk ∧
      (env.sessionKeyDec sessionKey (chunkMessage env sessionKey (cs.map Subtype.val)).data).length =
        (chunkMessage env sessionKey (cs.map Subtype.val)).dataSize.toNat := by
  have hbytes := length_frameChunks_le cs
  have hbound : cs.length * sizeofChunk ≤ env.sendChunkBatchSize * sizeofChunk :=
    Nat.mul_le_mul_right _ hcs
  have hnum : (UInt32.ofNat (cs.map Subtype.val).length).toNat ≤ cs.length := by
    rw [UInt32.toNat_ofNat', List.length_map]
    exact Nat.mod_le _ _
  have hsize : (UInt32.ofNat (frameChunks (cs.map Subtype.val)).length).toNat =
      (frameChunks (cs.map Subtype.val)).length := by
    rw [UInt32.toNat_ofNat']
    exact Nat.mod_eq_of_lt (by omega)
  rw [chunkMessage]
  dsimp only
  rw [hdec, hsize]
  exact ⟨hnum.trans hcs, hbytes.trans hbound, rfl⟩

end DataSender

open DataSender

/-- **Framing in both directions.** A file of any number of chunks goes out in full
batches, what is left over once before the head of the recipe, and the server finds its
chunks in order; and a client finds the chunks of a restore in the messages of the
server, whatever calls the recipe comes in. No message holds more than
`sendChunkBatchSize_` chunks, or more bytes than these need. -/
theorem framing_both {env : Env} (hdec : ∀ k x, env.sessionKeyDec k (env.sessionKeyEnc k x) = x)
    (hn : 1 ≤ env.sendChunkBatchSize) (hfit : env.sendChunkBatchSize * sizeofChunk < 2 ^ 32) :
    (∀ (sessionKey : Key) (chunks : List Chunk) (recipeHead : BytesN 16),
      ∃ (full : List (List Chunk)) (rest : List Chunk) (num : UInt32),
        full.flatten ++ rest = chunks ∧ (∀ g ∈ full, g.length = env.sendChunkBatchSize) ∧
        rest.length < env.sendChunkBatchSize ∧
        (run env sessionKey (chunks.map Subtype.val) recipeHead).sent =
          full.map (fun g => chunkMessage env sessionKey (g.map Subtype.val)) ++
            (if rest = [] then [] else [chunkMessage env sessionKey (rest.map Subtype.val)]) ++
            [⟨.clientUploadRecipeEnd, 16, num, recipeHead.1⟩] ∧
        receivedChunks env sessionKey (run env sessionKey (chunks.map Subtype.val) recipeHead).sent =
          chunks.map Subtype.val ∧
        ∀ m ∈ (run env sessionKey (chunks.map Subtype.val) recipeHead).sent,
          m.messageType = .clientUploadChunk →
            m.currentItemNum.toNat ≤ env.sendChunkBatchSize ∧
            m.dataSize.toNat ≤ env.sendChunkBatchSize * sizeofChunk ∧
            (env.sessionKeyDec sessionKey m.data).length = m.dataSize.toNat) ∧
    ∀ (s : Server) (l : RestoreLogin), Evicts l → ∀ bufs : List Bytes,
      (∀ buf ∈ bufs, ∀ f ∈ recipeKeys env l buf, Readable env s f) →
      ∃ (r : Restore) (ps : List Bytes),
        ((Restore.start l).procRecipeBatches env s l bufs).bind (procRecipeTailBatch env s l) =
          some r ∧
        PlainOf env s (bufs.flatMap (recipeKeys env l)) ps ∧
        ((∀ p ∈ ps, 0 < p.length ∧ p.length ≤ MAX_CHUNK_SIZE) →
          restoredChunks env l.sessionKey r.sent = ps ∧
          ∀ m ∈ r.sent, m.currentItemNum ≤ env.sendChunkBatchSize ∧
            (env.sessionKeyDec l.sessionKey m.data).length ≤
              env.sendChunkBatchSize * sizeofChunk) := by
  constructor
  · intro sessionKey chunks recipeHead
    obtain ⟨full, rest, hall, hfull, hrest, hpending⟩ :=
      foldl_processChunk env sessionKey hn hfit chunks
    obtain ⟨num, hsent⟩ := hpending.processRecipeEnd env sessionKey recipeHead
    have hnum : env.sendChunkBatchSize ≤ env.sendChunkBatchSize * sizeofChunk :=
      Nat.le_mul_of_pos_right _ (by decide)
    have hleft : (if rest.map Subtype.val = [] then []
        else [chunkMessage env sessionKey (rest.map Subtype.val)]) =
        if rest = [] then [] else [chunkMessage env sessionKey (rest.map Subtype.val)] :=
      if_congr List.map_eq_nil_iff rfl rfl
    rw [hleft] at hsent
    have hrun : (run env sessionKey (chunks.map Subtype.val) recipeHead).sent = _ := hsent
    refine ⟨full, rest, num, hall, hfull, hrest, hrun, ?_, fun m hm htype => ?_⟩
    · have hlast : receivedChunks env sessionKey
          (if rest = [] then [] else [chunkMessage env sessionKey (rest.map Subtype.val)]) =
          rest.map Subtype.val := by
        split
        · rename_i hnil
          rw [hnil]
          rfl
        · exact receivedChunks_message hdec (by omega)
      rw [hrun, receivedChunks_append, receivedChunks_append, hlast,
        receivedChunks_messages hdec fun g hg => by rw [hfull g hg]; omega]
      rw [← List.map_append, hall]
      exact List.append_nil _
    · rw [hrun] at hm
      rcases List.mem_append.mp hm with hm | hm
      · rcases List.mem_append.mp hm with hm | hm
        · obtain ⟨g, hg, rfl⟩ := List.mem_map.mp hm
          exact message_counts hdec hfit (hfull g hg).le
        · split at hm
          · cases hm
          · rw [List.mem_singleton.mp hm]
            exact message_counts hdec hfit hrest.le
      · rw [List.mem_singleton.mp hm] at htype
        cases htype
  · intro s l hl bufs hread
    obtain ⟨r, hbatches, hr⟩ := (restoreOk_start env s l).procRecipeBatches hl bufs hread
    obtain ⟨r', ps, htail, hps, groups, last, hsent, hall, hcount⟩ := hr.procRecipeTailBatch hl
    refine ⟨r', ps, by rw [hbatches]; exact htail, hps, fun hsizes => ?_⟩
    have hflat : (groups ++ [last]).flatten = ps := by
      rw [List.flatten_append, List.flatten_singleton, hall]
    obtain ⟨cs, rfl⟩ := exists_chunks hsizes
    constructor
    · refine restoredChunks_messages hdec l.sessionKey (groups ++ [last]) ?_ hflat
      rw [hsent]
      refine List.rel_append (List.forall₂_map_left_iff.mpr ?_) (.cons ⟨true, rfl⟩ .nil)
      exact List.forall₂_same.mpr fun g _ => ⟨false, rfl⟩
    · intro m hm
      obtain ⟨final, g, hg, rfl⟩ : ∃ final g, g ∈ groups ++ [last] ∧
          m = Restore.message env l.sessionKey final g := by
        rw [hsent] at hm
        rcases List.mem_append.mp hm with hm | hm
        · obtain ⟨g, hg, rfl⟩ := List.mem_map.mp hm
          exact ⟨false, g, List.mem_append_left _ hg, rfl⟩
        · rw [List.mem_singleton.mp hm]
          exact ⟨true, last, List.mem_append_right _ (List.mem_singleton.mpr rfl), rfl⟩
      have hlen := hcount hn g hg
      obtain ⟨gs, rfl⟩ := exists_chunks fun p hp => hsizes p (hflat ▸ List.mem_flatten.mpr ⟨g, hg, hp⟩)
      have hbytes := length_frameChunks_le gs
      rw [List.length_map] at hlen
      rw [Restore.message]
      dsimp only
      rw [hdec, List.length_map]
      exact ⟨hlen, hbytes.trans (Nat.mul_le_mul_right _ hlen)⟩

/-- Three chunks in batches of two one way, a base and its delta the other way. -/
theorem framing_both_threeChunks :
    receivedChunks .plain (BytesN.ofBytes 32 [4]) (run .plain (BytesN.ofBytes 32 [4])
      (([⟨[1, 2], by decide⟩, ⟨[3], by decide⟩, ⟨[1], by decide⟩] : List Chunk).map Subtype.val)
      (BytesN.ofBytes 16 [])).sent = [[1, 2], [3], [1]] ∧
    ∃ r, ((Restore.start plainLogin).procRecipeBatches .plain baseAndDelta plainLogin
        baseAndDeltaRecipe).bind (procRecipeTailBatch .plain baseAndDelta plainLogin) = some r ∧
      restoredChunks .plain plainLogin.sessionKey r.sent =
        [List.replicate 24 7 ++ [8], List.replicate 24 7 ++ [9]] := by
  have hboth := framing_both (fun _ _ => rfl) (by decide)
    (by decide : Env.plain.sendChunkBatchSize * sizeofChunk < 2 ^ 32)
  constructor
  · obtain ⟨-, -, -, -, -, -, -, hreceived, -⟩ := hboth.1 (BytesN.ofBytes 32 [4])
      [⟨[1, 2], by decide⟩, ⟨[3], by decide⟩, ⟨[1], by decide⟩] (BytesN.ofBytes 16 [])
    exact hreceived
  · obtain ⟨r, ps, hrun, hplain, hchunks⟩ := hboth.2 baseAndDelta plainLogin (fun _ _ _ h => h)
      baseAndDeltaRecipe readable_baseAndDeltaRecipe
    have hps : ps = [List.replicate 24 7 ++ [8], List.replicate 24 7 ++ [9]] := by
      have hvalues : PlainOf .plain baseAndDelta [BytesN.ofBytes 32 [1], BytesN.ofBytes 32 [2]]
          [List.replicate 24 7 ++ [8], List.replicate 24 7 ++ [9]] :=
        .cons (by decide +kernel) (.cons (by decide +kernel) .nil)
      exact Relator.RightUnique.forall₂ (fun _ _ _ h h' => Option.some.inj (h.symm.trans h'))
        hplain hvalues
    subst hps
    exact ⟨r, hrun, (hchunks (by decide)).1⟩

theorem length_frameChunks_replicate (k : Nat) (c : Bytes) :
    (frameChunks (List.replicate k c)).length = k * (4 + c.length) := by
  induction k with
  | zero => rw [Nat.zero_mul]; rfl
  | succ k ih =>
      rw [List.replicate_succ', length_frameChunks_snoc, ih, Nat.succ_mul, Nat.add_assoc]

/-- The last chunk of a batch of `2^32` bytes: the message has no bytes. -/
theorem sent_overflow {env : Env} (sessionKey : Key) {k : Nat}
    (hn : env.sendChunkBatchSize = k + 1) (hk : k + 1 = 2 ^ 18) {c : Bytes} (hc : c.length = 16380)
    (recipeHead : BytesN 16) :
    ∃ num last, (run env sessionKey (List.replicate (k + 1) c) recipeHead).sent =
        [⟨.clientUploadChunk, 0, num, env.sessionKeyEnc sessionKey []⟩, last] ∧
      num.toNat = k + 1 ∧ last.messageType = .clientUploadRecipeEnd := by
  have hframes := length_frameChunks_replicate k c
  have hless : (List.replicate k c).length < env.sendChunkBatchSize := by
    rw [List.length_replicate]
    omega
  have hpending := pending_foldl env sessionKey (by omega) hless (by rw [hframes, hc]; omega)
  have hsize := hpending.dataSize
  have hnum := hpending.itemNum
  rw [hframes, hc] at hsize
  rw [List.length_replicate] at hnum
  have hrun : run env sessionKey (List.replicate (k + 1) c) recipeHead =
      (((List.replicate k c).foldl (processChunk env sessionKey) start).processChunk env sessionKey
        c).processRecipeEnd env sessionKey recipeHead := by
    rw [run, List.replicate_succ', List.foldl_append]
    rfl
  rw [hrun]
  have hsent := hpending.sent
  generalize (List.replicate k c).foldl (processChunk env sessionKey) start = s at hsent hsize hnum ⊢
  have hzero : (s.put c).dataSize = 0 := by
    rw [← UInt32.toNat_inj]
    change (s.dataSize + 4 + UInt32.ofNat c.length).toNat = 0
    rw [UInt32.toNat_add, UInt32.toNat_add, hsize, hc]
    change ((k * 16384 + 4) % 2 ^ 32 + 16380) % 2 ^ 32 = 0
    omega
  have hitem : (s.put c).currentItemNum.toNat = k + 1 := by
    change (s.currentItemNum + 1).toNat = _
    rw [UInt32.toNat_add, hnum]
    change (k + 1) % 2 ^ 32 = _
    omega
  have hfull : s.processChunk env sessionKey c = (s.put c).sendChunks env sessionKey := by
    rw [processChunk, hitem, hn, Nat.mod_self, if_pos rfl]
  refine ⟨(s.put c).currentItemNum, ⟨.clientUploadRecipeEnd, 16, 0,
    (writeAt (s.put c).dataBuffer 0 recipeHead.1).take 16⟩, ?_, hitem, rfl⟩
  rw [hfull]
  change s.sent ++ [⟨.clientUploadChunk, (s.put c).dataSize, (s.put c).currentItemNum,
    env.sessionKeyEnc sessionKey ((s.put c).dataBuffer.take (s.put c).dataSize.toNat)⟩] ++ _ = _
  rw [hsent, hzero]
  rfl

/-- Batches of `2^18` chunks. -/
def hugeBatches : Env := { Env.plain with sendChunkBatchSize := 2 ^ 18 }

/-- A batch of `2^18` chunks of 16380 bytes has `2^32` bytes with the sizes, which the
header counts as none: the server finds empty chunks. -/
theorem framing_overflow :
    ¬ ∀ (env : Env), (∀ k x, env.sessionKeyDec k (env.sessionKeyEnc k x) = x) →
      1 ≤ env.sendChunkBatchSize → ∀ (sessionKey : Key) (chunks : List Chunk)
        (recipeHead : BytesN 16),
        receivedChunks env sessionKey (run env sessionKey (chunks.map Subtype.val) recipeHead).sent =
          chunks.map Subtype.val := by
  intro hclaim
  obtain ⟨c, hc⟩ : ∃ c : Chunk, c.1.length = 16380 :=
    ⟨⟨List.replicate 16380 0, by rw [List.length_replicate]; decide⟩, List.length_replicate⟩
  obtain ⟨k, hk⟩ : ∃ k, k + 1 = 2 ^ 18 := ⟨2 ^ 18 - 1, rfl⟩
  have hreceived := hclaim hugeBatches (fun _ _ => rfl) (by decide) (BytesN.ofBytes 32 [])
    (List.replicate (k + 1) c) (BytesN.ofBytes 16 [])
  rw [List.map_replicate] at hreceived
  obtain ⟨num, last, hsent, hnum, hlast⟩ := @sent_overflow hugeBatches (BytesN.ofBytes 32 []) k
    hk.symm hk c.1 hc (BytesN.ofBytes 16 [])
  rw [hsent, receivedChunks, List.flatMap_cons, hnum, List.replicate_succ] at hreceived
  -- the first chunk that the server finds is empty
  have hfirst : [] = c.1 := (List.cons.inj hreceived).1
  rw [← hfirst] at hc
  cases hc

end ShieldReduce

import ShieldReduce.Invariant.Batch

/-!
# The sender of a client

`DataSender` puts every chunk behind its size into `sendChunkBuf_`, sends
the buffer when it holds `sendChunkBatchSize_` chunks, and at the end of the
recipe sends what is left before the head of the recipe. The header counts
bytes and chunks in 32-bit words; `Pending` says what the buffer holds
while neither count overflows.
-/

namespace ShieldReduce

open ByteLib

/-- `sizeof(Chunk_t)`. -/
def sizeofChunk : Nat := 4 + MAX_CHUNK_SIZE

inductive MessageType where
  | clientUploadChunk
  | clientUploadRecipeEnd
deriving DecidableEq

/-- A message with the counts of its header. -/
structure NetworkMessage where
  messageType : MessageType
  dataSize : UInt32
  currentItemNum : UInt32
  data : Bytes

/-- `sendChunkBuf_`, and the messages sent so far. -/
structure DataSender where
  dataBuffer : Bytes
  dataSize : UInt32
  currentItemNum : UInt32
  sent : List NetworkMessage

namespace DataSender

variable (env : Env) (sessionKey : Key)

def start : DataSender := ⟨[], 0, 0, []⟩

def sendChunks (s : DataSender) : DataSender :=
  { s with
    sent := s.sent ++ [⟨.clientUploadChunk, s.dataSize, s.currentItemNum,
      env.sessionKeyEnc sessionKey (s.dataBuffer.take s.dataSize.toNat)⟩]
    currentItemNum := 0
    dataSize := 0 }

/-- The two `memcpy` of `ProcessChunk`. -/
def put (s : DataSender) (inputChunk : Bytes) : DataSender :=
  let chunkSize := UInt32.ofNat inputChunk.length
  let dataBuffer := writeAt s.dataBuffer s.dataSize.toNat (le32 chunkSize)
  let dataSize := s.dataSize + 4
  { s with
    dataBuffer := writeAt dataBuffer dataSize.toNat inputChunk
    dataSize := dataSize + chunkSize
    currentItemNum := s.currentItemNum + 1 }

def processChunk (s : DataSender) (inputChunk : Bytes) : DataSender :=
  let s := s.put inputChunk
  if s.currentItemNum.toNat % env.sendChunkBatchSize = 0 then s.sendChunks env sessionKey else s

/-- The head of the recipe goes out as it is. -/
def processRecipeEnd (s : DataSender) (recipeHead : BytesN 16) : DataSender :=
  let s := if s.currentItemNum ≠ 0 then s.sendChunks env sessionKey else s
  let s := { s with dataSize := 16, dataBuffer := writeAt s.dataBuffer 0 recipeHead.1 }
  { s with sent := s.sent ++ [⟨.clientUploadRecipeEnd, s.dataSize, s.currentItemNum,
      s.dataBuffer.take s.dataSize.toNat⟩] }

/-- `Run` on the items of a file. -/
def run (chunks : List Bytes) (recipeHead : BytesN 16) : DataSender :=
  (chunks.foldl (processChunk env sessionKey) start).processRecipeEnd env sessionKey recipeHead

/-- What `ProcessOneBatch` of the server finds in the messages. -/
def receivedChunks (msgs : List NetworkMessage) : List Bytes :=
  msgs.flatMap fun m => match m.messageType with
    | .clientUploadChunk =>
        (parseChunks (env.sessionKeyDec sessionKey m.data) m.currentItemNum.toNat 0).map Prod.snd
    | .clientUploadRecipeEnd => []

/-! ## What the buffer holds -/

/-- The chunks `buf` are waiting, and `sent` went out before them. -/
structure Pending (s : DataSender) (sent : List NetworkMessage) (buf : List Bytes) : Prop where
  sent : s.sent = sent
  room : s.dataSize.toNat ≤ s.dataBuffer.length
  data : s.dataBuffer.take s.dataSize.toNat = frameChunks buf
  itemNum : s.currentItemNum.toNat = buf.length

theorem Pending.dataSize {s : DataSender} {sent : List NetworkMessage} {buf : List Bytes}
    (h : Pending s sent buf) : s.dataSize.toNat = (frameChunks buf).length := by
  rw [← h.data, List.length_take, Nat.min_eq_left h.room]

theorem pending_start : Pending start [] [] := ⟨rfl, Nat.zero_le _, rfl, rfl⟩

theorem length_frameChunks_snoc (buf : List Bytes) (c : Bytes) :
    (frameChunks (buf ++ [c])).length = (frameChunks buf).length + 4 + c.length := by
  rw [frameChunks, List.flatMap_append, List.length_append, List.flatMap_singleton,
    List.length_append, length_le32, Nat.add_assoc]
  rfl

/-- One more chunk behind the others, if the counts have room for it. -/
theorem Pending.put {s : DataSender} {sent : List NetworkMessage} {buf : List Bytes}
    (h : Pending s sent buf) {c : Bytes} (hsize : (frameChunks (buf ++ [c])).length < 2 ^ 32)
    (hnum : buf.length + 1 < 2 ^ 32) : Pending (s.put c) sent (buf ++ [c]) := by
  have hlen := length_frameChunks_snoc buf c
  have hold := h.dataSize
  have hchunk : (UInt32.ofNat c.length).toNat = c.length := by
    rw [UInt32.toNat_ofNat']
    omega
  have hfour : (s.dataSize + 4).toNat = s.dataSize.toNat + 4 := by
    rw [UInt32.toNat_add]
    exact Nat.mod_eq_of_lt (by change s.dataSize.toNat + 4 < 2 ^ 32; omega)
  have hnew : (s.put c).dataSize.toNat = s.dataSize.toNat + 4 + c.length := by
    change (s.dataSize + 4 + UInt32.ofNat c.length).toNat = _
    rw [UInt32.toNat_add, hfour, hchunk]
    exact Nat.mod_eq_of_lt (by omega)
  have hfront := take_writeAt (le32 (UInt32.ofNat c.length)) h.room
  have hroom : s.dataSize.toNat + 4 ≤
      (writeAt s.dataBuffer s.dataSize.toNat (le32 (UInt32.ofNat c.length))).length := by
    rw [length_writeAt _ h.room, length_le32]
    exact Nat.le_max_right _ _
  rw [length_le32, h.data] at hfront
  have hbuffer : (s.put c).dataBuffer =
      writeAt (writeAt s.dataBuffer s.dataSize.toNat (le32 (UInt32.ofNat c.length)))
        (s.dataSize.toNat + 4) c := by
    rw [← hfour]
    rfl
  refine ⟨h.sent, ?_, ?_, ?_⟩
  · rw [hnew, hbuffer, length_writeAt _ hroom]
    exact Nat.le_max_right _ _
  · rw [hnew, hbuffer, take_writeAt c hroom, hfront, frameChunks, frameChunks,
      List.flatMap_append, List.flatMap_singleton, List.append_assoc]
  · change (s.currentItemNum + 1).toNat = _
    rw [UInt32.toNat_add, h.itemNum, List.length_append]
    exact Nat.mod_eq_of_lt hnum

/-- The message with some chunks. -/
def chunkMessage (buf : List Bytes) : NetworkMessage :=
  ⟨.clientUploadChunk, UInt32.ofNat (frameChunks buf).length, UInt32.ofNat buf.length,
    env.sessionKeyEnc sessionKey (frameChunks buf)⟩

theorem Pending.sendChunks {s : DataSender} {sent : List NetworkMessage} {buf : List Bytes}
    (h : Pending s sent buf) :
    Pending (s.sendChunks env sessionKey) (sent ++ [chunkMessage env sessionKey buf]) [] := by
  refine ⟨?_, Nat.zero_le _, rfl, rfl⟩
  have hsize : s.dataSize = UInt32.ofNat (frameChunks buf).length := by
    rw [← h.dataSize, UInt32.ofNat_toNat]
  have hnum : s.currentItemNum = UInt32.ofNat buf.length := by
    rw [← h.itemNum, UInt32.ofNat_toNat]
  rw [DataSender.sendChunks, chunkMessage, ← hsize, ← hnum, ← h.data, h.sent]

/-! ## Whole files -/

theorem length_frameChunks_le (cs : List Chunk) :
    (frameChunks (cs.map Subtype.val)).length ≤ cs.length * sizeofChunk := by
  induction cs using List.reverseRecOn with
  | nil => exact Nat.le_refl 0
  | append_singleton cs c ih =>
      have hc := c.2.2
      rw [List.map_append, List.map_singleton, length_frameChunks_snoc, List.length_append,
        List.length_singleton, Nat.add_mul, Nat.one_mul]
      unfold sizeofChunk at ih ⊢
      omega

/-- A batch is full, or waits for more. -/
theorem Pending.processChunk {s : DataSender} {sent : List NetworkMessage} {buf : List Bytes}
    (h : Pending s sent buf) {c : Bytes} (hsize : (frameChunks (buf ++ [c])).length < 2 ^ 32)
    (hnum : buf.length + 1 < 2 ^ 32) (hroom : buf.length < env.sendChunkBatchSize) :
    (buf.length + 1 = env.sendChunkBatchSize ∧ Pending (s.processChunk env sessionKey c)
        (sent ++ [chunkMessage env sessionKey (buf ++ [c])]) []) ∨
      (buf.length + 1 < env.sendChunkBatchSize ∧
        Pending (s.processChunk env sessionKey c) sent (buf ++ [c])) := by
  have hput := h.put hsize hnum
  have hitem := hput.itemNum
  rw [List.length_append, List.length_singleton] at hitem
  rw [DataSender.processChunk, hitem]
  rcases Nat.lt_or_eq_of_le hroom with hlt | heq
  · have hmod : (buf.length + 1) % env.sendChunkBatchSize ≠ 0 := by
      rw [Nat.mod_eq_of_lt hlt]
      exact Nat.succ_ne_zero _
    rw [if_neg hmod]
    exact Or.inr ⟨hlt, hput⟩
  · have hmod : (buf.length + 1) % env.sendChunkBatchSize = 0 := by rw [← heq, Nat.mod_self]
    rw [if_pos hmod]
    exact Or.inl ⟨heq, hput.sendChunks env sessionKey⟩

/-- Fewer chunks than a batch all wait. -/
theorem pending_foldl (hn : env.sendChunkBatchSize ≤ 2 ^ 32) {cs : List Bytes}
    (hlt : cs.length < env.sendChunkBatchSize) (hsize : (frameChunks cs).length < 2 ^ 32) :
    Pending (cs.foldl (processChunk env sessionKey) start) [] cs := by
  induction cs using List.reverseRecOn with
  | nil => exact pending_start
  | append_singleton cs c ih =>
      rw [List.length_append, List.length_singleton] at hlt
      have hlen := length_frameChunks_snoc cs c
      have hpending := ih (by omega) (by omega)
      rw [List.foldl_append]
      rcases hpending.processChunk env sessionKey hsize (by omega) (by omega) with ⟨heq, -⟩ | ⟨-, h⟩
      · omega
      · exact h

/-- Full batches went out, and the rest waits. -/
theorem foldl_processChunk (hn : 1 ≤ env.sendChunkBatchSize)
    (hfit : env.sendChunkBatchSize * sizeofChunk < 2 ^ 32) (chunks : List Chunk) :
    ∃ (full : List (List Chunk)) (rest : List Chunk), full.flatten ++ rest = chunks ∧
      (∀ g ∈ full, g.length = env.sendChunkBatchSize) ∧ rest.length < env.sendChunkBatchSize ∧
      Pending ((chunks.map Subtype.val).foldl (processChunk env sessionKey) start)
        (full.map fun g => chunkMessage env sessionKey (g.map Subtype.val)) (rest.map Subtype.val) := by
  induction chunks using List.reverseRecOn with
  | nil => exact ⟨[], [], rfl, fun g hg => absurd hg List.not_mem_nil, hn, pending_start⟩
  | append_singleton chunks c ih =>
      obtain ⟨full, rest, hchunks, hfull, hrest, hpending⟩ := ih
      have hbound : (rest ++ [c]).length * sizeofChunk ≤ env.sendChunkBatchSize * sizeofChunk :=
        Nat.mul_le_mul_right _ (by rw [List.length_append]; exact hrest)
      have hsize := length_frameChunks_le (rest ++ [c])
      have hnum : env.sendChunkBatchSize ≤ env.sendChunkBatchSize * sizeofChunk :=
        Nat.le_mul_of_pos_right _ (by decide)
      rw [List.map_append, List.map_singleton] at hsize
      have hstep := hpending.processChunk env sessionKey (c := c.1) (by omega)
        (by rw [List.length_map]; omega) (by rw [List.length_map]; exact hrest)
      rw [List.length_map] at hstep
      rw [List.map_append, List.map_singleton, List.foldl_append, List.foldl_cons, List.foldl_nil]
      generalize (chunks.map Subtype.val).foldl (DataSender.processChunk env sessionKey) start = s
        at hstep ⊢
      rcases hstep with ⟨heq, hsent⟩ | ⟨hlt, hwaits⟩
      · refine ⟨full ++ [rest ++ [c]], [], by simp [← hchunks], fun g hg => ?_, hn, ?_⟩
        · rcases List.mem_append.mp hg with hg | hg
          · exact hfull g hg
          · rw [List.mem_singleton.mp hg, List.length_append]
            exact heq
        · rw [List.map_append, List.map_singleton, List.map_append, List.map_singleton]
          exact hsent
      · refine ⟨full, rest ++ [c], by simp [← hchunks], hfull, ?_, ?_⟩
        · rw [List.length_append]
          exact hlt
        · rw [List.map_append, List.map_singleton]
          exact hwaits

/-- What waits goes out once, before the head of the recipe. -/
theorem Pending.processRecipeEnd {s : DataSender} {sent : List NetworkMessage} {buf : List Bytes}
    (h : Pending s sent buf) (recipeHead : BytesN 16) :
    ∃ num, (s.processRecipeEnd env sessionKey recipeHead).sent =
      sent ++ (if buf = [] then [] else [chunkMessage env sessionKey buf]) ++
        [⟨.clientUploadRecipeEnd, 16, num, recipeHead.1⟩] := by
  have hhead : ∀ b : Bytes, (writeAt b 0 recipeHead.1).take 16 = recipeHead.1 := by
    intro b
    have htake := take_writeAt recipeHead.1 (Nat.zero_le b.length)
    rw [Nat.zero_add, recipeHead.2, List.take_zero, List.nil_append] at htake
    exact htake
  have hempty : s.currentItemNum = 0 ↔ buf = [] := by
    rw [← UInt32.toNat_inj, h.itemNum]
    exact List.length_eq_zero_iff
  unfold DataSender.processRecipeEnd
  by_cases hbuf : buf = []
  · rw [if_pos hbuf, if_neg (not_not.mpr (hempty.mpr hbuf)), List.append_nil]
    refine ⟨s.currentItemNum, ?_⟩
    change s.sent ++ [⟨.clientUploadRecipeEnd, 16, s.currentItemNum,
      (writeAt s.dataBuffer 0 recipeHead.1).take 16⟩] = _
    rw [hhead, h.sent]
  · rw [if_neg hbuf, if_pos (hempty.not.mpr hbuf)]
    refine ⟨0, ?_⟩
    change (s.sendChunks env sessionKey).sent ++ [⟨.clientUploadRecipeEnd, 16, 0,
      (writeAt s.dataBuffer 0 recipeHead.1).take 16⟩] = _
    rw [hhead, (h.sendChunks env sessionKey).sent]

theorem length_chunkMessage_le (hlength : ∀ k x, (env.sessionKeyEnc k x).length = x.length)
    {cs : List Chunk} (hcs : cs.length ≤ env.sendChunkBatchSize) :
    (chunkMessage env sessionKey (cs.map Subtype.val)).data.length ≤
      env.sendChunkBatchSize * sizeofChunk := by
  rw [chunkMessage, hlength]
  exact (length_frameChunks_le cs).trans (Nat.mul_le_mul_right _ hcs)

/-- No message is longer than a batch of the longest chunks. -/
theorem length_data_le (hlength : ∀ k x, (env.sessionKeyEnc k x).length = x.length)
    (hn : 1 ≤ env.sendChunkBatchSize) (hfit : env.sendChunkBatchSize * sizeofChunk < 2 ^ 32)
    (chunks : List Chunk) (recipeHead : BytesN 16) {m : NetworkMessage}
    (hm : m ∈ (run env sessionKey (chunks.map Subtype.val) recipeHead).sent) :
    m.data.length ≤ env.sendChunkBatchSize * sizeofChunk := by
  obtain ⟨full, rest, -, hfull, hrest, hpending⟩ :=
    foldl_processChunk env sessionKey hn hfit chunks
  obtain ⟨num, hsent⟩ := hpending.processRecipeEnd env sessionKey recipeHead
  rw [run, hsent, List.mem_append, List.mem_append, List.mem_singleton] at hm
  rcases hm with (hm | hm) | rfl
  · obtain ⟨g, hg, rfl⟩ := List.mem_map.mp hm
    exact length_chunkMessage_le env sessionKey hlength (hfull g hg).le
  · split at hm
    · cases hm
    · rw [List.mem_singleton.mp hm]
      exact length_chunkMessage_le env sessionKey hlength hrest.le
  · dsimp only
    rw [recipeHead.2]
    have hone : sizeofChunk ≤ env.sendChunkBatchSize * sizeofChunk := Nat.le_mul_of_pos_left _ hn
    have hhead : 16 ≤ sizeofChunk := by decide
    exact hhead.trans hone

end DataSender

end ShieldReduce

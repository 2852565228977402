import ShieldReduce.Client.Chunker

/-!
# Chunks do not depend on the buffer

`Cuts` cuts a file by `CutPoint` on the whole of what is left. The loops of
`FastCDC` make the same cuts from what their buffer holds: `CutPoint` looks
at the first `maxChunkSize` bytes only (`Sized.cutPoint_congr`), and the
inner loop calls it with fewer bytes only when the file has no more. A cut
is made in every round, since the buffer holds `maxChunkSize` bytes.

Sizes that do not fit are what the types leave out: `CutPoint` takes a
32-bit length, and a `Chunk_t` has room for `MAX_CHUNK_SIZE` bytes.
-/

namespace ShieldReduce

open ByteLib LoopLib

namespace CutRule

variable {r : CutRule}

/-- The chunks of a file, each cut off the whole of what is left of it. -/
inductive Cuts (r : CutRule) : Bytes → List Bytes → Prop
  | done : Cuts r [] []
  | cut {rest : Bytes} {chunks : List Bytes} (left : rest ≠ [])
      (next : Cuts r (rest.drop (r.cutPoint rest rest.length)) chunks) :
      Cuts r rest (rest.take (r.cutPoint rest rest.length) :: chunks)

theorem Sized.cutPoint_pos (h : Sized r) (src : Bytes) {len : Nat} (hlen : 0 < len) :
    0 < r.cutPoint src len := by
  have hb := (h.cutPoint_bounds src len).1
  have hpos := h.pos
  omega

theorem Sized.exists_cuts (h : Sized r) :
    ∀ (n : Nat) (file : Bytes), file.length ≤ n → ∃ chunks, Cuts r file chunks
  | _, [], _ => ⟨[], .done⟩
  | 0, _ :: _, hn => absurd hn (by simp)
  | n + 1, b :: file, hn => by
      have hpos := h.cutPoint_pos (b :: file) (List.length_pos_of_ne_nil (List.cons_ne_nil b file))
      obtain ⟨chunks, hnext⟩ := h.exists_cuts n
        ((b :: file).drop (r.cutPoint (b :: file) (b :: file).length))
        (by rw [List.length_drop]; omega)
      exact ⟨_, .cut (by simp) hnext⟩

theorem Cuts.flatten {file : Bytes} {chunks : List Bytes} (h : Cuts r file chunks) :
    chunks.flatten = file := by
  induction h with
  | done => rfl
  | cut _ _ ih => rw [List.flatten_cons, ih, List.take_append_drop]

theorem Cuts.ne_nil {file x : Bytes} {chunks : List Bytes} (h : Cuts r file (x :: chunks)) :
    file ≠ [] := by
  cases h with
  | cut left _ => exact left

theorem Sized.length_take (h : Sized r) (rest : Bytes) :
    (rest.take (r.cutPoint rest rest.length)).length = r.cutPoint rest rest.length := by
  have hb := (h.cutPoint_bounds rest rest.length).2
  rw [List.length_take]
  omega

theorem Cuts.sizes (h : Sized r) {file : Bytes} {chunks : List Bytes} (hc : Cuts r file chunks) :
    ∀ x ∈ chunks, 1 ≤ x.length ∧ x.length ≤ r.maxChunkSize := by
  induction hc with
  | done => intro x hx; cases hx
  | @cut rest chunks left _ ih =>
      refine List.forall_mem_cons.mpr ⟨?_, ih⟩
      have hb := (h.cutPoint_bounds rest rest.length).2
      rw [h.length_take]
      exact ⟨h.cutPoint_pos rest (List.length_pos_iff.mpr left), by omega⟩

/-- Only the last chunk can be shorter. -/
theorem Cuts.sizes_dropLast (h : Sized r) {file : Bytes} {chunks : List Bytes}
    (hc : Cuts r file chunks) : ∀ x ∈ chunks.dropLast, r.minChunkSize ≤ x.length := by
  induction hc with
  | done => intro x hx; cases hx
  | @cut rest chunks left next ih =>
      cases chunks with
      | nil => intro x hx; cases hx
      | cons y ys =>
          rw [List.dropLast_cons_cons]
          refine List.forall_mem_cons.mpr ⟨?_, ih⟩
          have hmore : r.cutPoint rest rest.length < rest.length := by
            have hnext := List.length_pos_iff.mpr next.ne_nil
            rw [List.length_drop] at hnext
            omega
          have hb := (h.cutPoint_bounds rest rest.length).1
          rw [h.length_take]
          omega

theorem Cuts.of_ne_nil {file : Bytes} {chunks : List Bytes} (h : Cuts r file chunks)
    (hfile : file ≠ []) : ∃ rest, chunks = file.take (r.cutPoint file file.length) :: rest ∧
      Cuts r (file.drop (r.cutPoint file file.length)) rest := by
  cases h with
  | done => exact absurd rfl hfile
  | cut _ next => exact ⟨_, rfl, next⟩

end CutRule

open CutRule

namespace Chunker

/-! ## What has been cut off -/

/-- `off` bytes of the file have been cut off; `all` are its chunks. -/
structure CutOff (r : CutRule) (file : Bytes) (all : List Bytes) (off fileSize chunkIDCnt : Nat)
    (outputMQ : List Data) : Prop where
  le : off ≤ file.length
  fileSize : fileSize = off
  chunks : ∃ (done : List ChunkData) (todo : List Bytes), outputMQ = done.map .dataChunk ∧
    chunkIDCnt = done.length ∧ done.map Subtype.val ++ todo = all ∧ Cuts r (file.drop off) todo

/-- The sizes fit: into a `Chunk_t`, and the length into its 32 bits. -/
structure Suits (c : Chunker) (file : Bytes) : Prop where
  sized : Sized c.toCutRule
  room : c.maxChunkSize ≤ MAX_CHUNK_SIZE
  lookahead : c.maxChunkSize ≤ c.readSize
  len : c.readSize < 2 ^ 32 ∨ file.length < 2 ^ 32

variable {c : Chunker} {file : Bytes} {all : List Bytes}

/-- What the buffer holds of a file with `off` bytes cut off before. -/
structure Buffered (c : Chunker) (file : Bytes) (off : Nat) (buf : Bytes) (len : Nat)
    (atEnd : Bool) : Prop where
  bytes : buf.take len = (file.drop off).take len
  held : len = min c.readSize (file.length - off)
  ended : atEnd = decide (len < c.readSize)

theorem Buffered.take {off len lo n : Nat} {buf : Bytes} {atEnd : Bool}
    (hbuf : Buffered c file off buf len atEnd) (hn : lo + n ≤ len) :
    (buf.drop lo).take n = (file.drop (off + lo)).take n := by
  have hcut : ∀ l : Bytes, (l.drop lo).take n = ((l.take len).drop lo).take n := fun l => by
    rw [List.drop_take, List.take_take, Nat.min_eq_left (by omega)]
  rw [hcut buf, hbuf.bytes, ← hcut, List.drop_drop]

theorem Suits.toUint32_eq (h : Suits c file) {off len : Nat} {buf : Bytes} {atEnd : Bool}
    (hbuf : Buffered c file off buf len atEnd) (lo : Nat) : toUint32 (len - lo) = len - lo := by
  have hlen := hbuf.held
  refine toUint32_of_lt ?_
  rcases h.len with hl | hl <;> omega

/-- The cut in the buffer is the cut in the file. -/
theorem Suits.cutPoint (h : Suits c file) {off len lo : Nat} {buf : Bytes} {atEnd : Bool}
    (hbuf : Buffered c file off buf len atEnd)
    (hmore : c.maxChunkSize ≤ len - lo ∨ (atEnd = true ∧ lo < len)) :
    c.cutPoint (buf.drop lo) (toUint32 (len - lo)) =
      c.cutPoint (file.drop (off + lo)) (file.drop (off + lo)).length := by
  have hlen := hbuf.held
  rw [h.toUint32_eq hbuf]
  refine h.sized.cutPoint_congr ?_ fun k hk => ?_
  · rw [List.length_drop]
    rcases hmore with hmore | ⟨hend, hlt⟩
    · omega
    · rw [hbuf.ended, decide_eq_true_eq] at hend
      omega
  · have hpos := h.sized.pos
    have hle := h.sized.le
    have hfront : lo + min c.maxChunkSize (len - lo) ≤ len := by
      rcases hmore with hmore | hmore <;> omega
    have htake := hbuf.take hfront
    have hbyte := congrArg (fun l : Bytes => l[k]?) htake
    simp only [List.getElem?_take_of_lt hk] at hbyte
    rw [List.getD_eq_getElem?_getD, List.getD_eq_getElem?_getD, hbyte]

/-! ## The loops -/

/-- A round of the inner loop. -/
theorem Suits.cutOne (h : Suits c file) {off len : Nat} {buf : Bytes} {atEnd : Bool}
    (hbuf : Buffered c file off buf len atEnd) {s : Cutting} (hlo : s.localOffset ≤ len)
    (hs : CutOff c.toCutRule file all (off + s.localOffset) s.fileSize s.chunkIDCnt s.outputMQ)
    (hmore : c.more len atEnd s = true) :
    ∃ t, c.cutOne buf len s = some t ∧ t.localOffset ≤ len ∧ s.localOffset < t.localOffset ∧
      CutOff c.toCutRule file all (off + t.localOffset) t.fileSize t.chunkIDCnt t.outputMQ := by
  have hmore' : c.maxChunkSize ≤ len - s.localOffset ∨ (atEnd = true ∧ s.localOffset < len) := by
    simpa [more] using hmore
  have hpos := h.sized.pos
  have hle := h.sized.le
  have hlt : s.localOffset < len := by
    rcases hmore' with hm | hm <;> omega
  have hheld := hbuf.held
  have hrest : file.drop (off + s.localOffset) ≠ [] := by
    rw [← List.length_pos_iff, List.length_drop]
    omega
  obtain ⟨done, todo, hmq, hcnt, hall, hcuts⟩ := hs.chunks
  obtain ⟨todo', rfl, hnext⟩ := hcuts.of_ne_nil hrest
  rw [← h.cutPoint hbuf hmore', h.toUint32_eq hbuf] at hall hnext
  rw [Chunker.cutOne, h.toUint32_eq hbuf]
  have hcp := h.sized.cutPoint_bounds (buf.drop s.localOffset) (len - s.localOffset)
  have hcppos := h.sized.cutPoint_pos (buf.drop s.localOffset)
    (show 0 < len - s.localOffset by omega)
  generalize c.cutPoint (buf.drop s.localOffset) (len - s.localOffset) = cp
    at hall hnext hcp hcppos ⊢
  have hroom := h.room
  have hfits : ((buf.drop s.localOffset).take cp).length ≤ MAX_CHUNK_SIZE := by
    rw [List.length_take]
    omega
  refine ⟨_, by rw [ChunkData.copy, dif_pos hfits]; rfl, ?_, ?_, ?_⟩
  · dsimp only
    omega
  · dsimp only
    omega
  · refine ⟨?_, ?_, done ++ [⟨_, hfits⟩], todo', ?_, ?_, ?_, ?_⟩
    · dsimp only
      omega
    · rw [hs.fileSize, Nat.add_assoc]
    · rw [hmq, List.map_append, List.map_singleton]
    · rw [hcnt, List.length_append, List.length_singleton]
    · rw [← hbuf.take (by omega)] at hall
      rw [List.map_append, List.append_assoc, ← hall]
      rfl
    · rw [List.drop_drop] at hnext
      rwa [← Nat.add_assoc]

/-- The inner loop cuts off all but fewer than `maxChunkSize` bytes, and
all of them at the end of the file. -/
theorem Suits.cutLoop (h : Suits c file) {off len fuel fileSize chunkIDCnt : Nat} {buf : Bytes}
    {atEnd : Bool} {mq : List Data} (hbuf : Buffered c file off buf len atEnd)
    (hs : CutOff c.toCutRule file all off fileSize chunkIDCnt mq) (hfuel : len < fuel) :
    ∃ t, whileRun (c.more len atEnd) (c.cutOne buf len) fuel ⟨0, fileSize, chunkIDCnt, mq⟩ = some t ∧
      t.localOffset ≤ len ∧
      CutOff c.toCutRule file all (off + t.localOffset) t.fileSize t.chunkIDCnt t.outputMQ ∧
      c.more len atEnd t = false := by
  obtain ⟨t, hrun, ⟨hle, hcut⟩, hexit⟩ := whileRun_total
    (I := fun t : Cutting => t.localOffset ≤ len ∧
      CutOff c.toCutRule file all (off + t.localOffset) t.fileSize t.chunkIDCnt t.outputMQ)
    (fun t => len - t.localOffset)
    (fun s ⟨hlo, hs⟩ hmore => by
      obtain ⟨t, hone, hle, hlt, hcut⟩ := h.cutOne hbuf hlo hs hmore
      exact ⟨t, hone, ⟨hle, hcut⟩, by omega⟩)
    fuel ⟨0, fileSize, chunkIDCnt, mq⟩ ⟨Nat.zero_le _, hs⟩ (by simpa using hfuel)
  exact ⟨t, hrun, hle, hcut, hexit⟩

/-- Between two rounds of the outer loop the file stands at the first byte
that is not cut off; after the last round all of them are. -/
structure AtRound (c : Chunker) (file : Bytes) (all : List Bytes) (s : Chunking) : Prop where
  cutOff : CutOff c.toCutRule file all s.totalOffset s.fileSize s.chunkIDCnt s.outputMQ
  next : s.atEnd = false → s.stop = false →
    s.chunkingFile.content = file ∧ s.chunkingFile.pos = s.totalOffset ∧
      s.chunkingFile.eofbit = false ∧ s.chunkingFile.failbit = false
  finished : (s.atEnd || s.stop) = true → s.totalOffset = file.length

/-- What a read gives. -/
theorem buffered_read (c : Chunker) {f : InputFile} (heof : f.eofbit = false)
    (hfail : f.failbit = false) :
    Buffered c f.content f.pos (f.read (List.replicate c.readSize 0)).1
      (f.read (List.replicate c.readSize 0)).2.gcount
      (f.read (List.replicate c.readSize 0)).2.eofbit := by
  have hgot : ((f.content.drop f.pos).take c.readSize).length =
      min c.readSize (f.content.length - f.pos) := by
    rw [List.length_take, List.length_drop]
  simp only [InputFile.read, heof, hfail, Bool.or_self, Bool.false_eq_true, if_false,
    List.length_replicate]
  refine ⟨?_, hgot, rfl⟩
  rw [List.take_left, hgot, ← List.length_drop]
  exact List.take_eq_take_min ..

/-- A round of the outer loop: the end, or at least one cut. -/
theorem Suits.readRound (h : Suits c file) {fuel : Nat} (hfuel : file.length < fuel)
    {s : Chunking} (hs : AtRound c file all s) (hend : s.atEnd = false) (hstop : s.stop = false) :
    ∃ s', c.readRound fuel s = some s' ∧ AtRound c file all s' ∧
      ((s'.atEnd || s'.stop) = false → s.totalOffset < s'.totalOffset) := by
  obtain ⟨hcontent, hposition, heof, hfail⟩ := hs.next hend hstop
  have hbuf := buffered_read c heof hfail
  rw [hcontent, hposition] at hbuf
  have hseek : (s.chunkingFile.read (List.replicate c.readSize 0)).2.failbit =
      (s.chunkingFile.read (List.replicate c.readSize 0)).2.eofbit := by
    simp only [InputFile.read, heof, hfail, Bool.or_self, Bool.false_eq_true, if_false]
  have hsame : (s.chunkingFile.read (List.replicate c.readSize 0)).2.content = file := by
    simp only [InputFile.read, heof, hfail, Bool.or_self, Bool.false_eq_true, if_false, hcontent]
  rw [Chunker.readRound]
  generalize s.chunkingFile.read (List.replicate c.readSize 0) = got at hbuf hseek hsame ⊢
  obtain ⟨buf, f⟩ := got
  dsimp only at hbuf hseek hsame ⊢
  have hheld := hbuf.held
  have hpos := h.sized.pos
  have hle := h.sized.le
  have hlook := h.lookahead
  have hoff := hs.cutOff.le
  split
  · rename_i hlen
    refine ⟨_, rfl, ⟨hs.cutOff, fun _ hcontra => (nomatch hcontra), fun _ => ?_⟩, fun hcontra => ?_⟩
    · dsimp only
      omega
    · simp at hcontra
  · rename_i hlen
    obtain ⟨t, hrun, hlo, hcut, hexit⟩ := h.cutLoop hbuf hs.cutOff (show f.gcount < fuel by omega)
    have hleft : f.gcount - t.localOffset < c.maxChunkSize ∧
        (f.eofbit = true → f.gcount ≤ t.localOffset) := by
      simpa [more] using hexit
    have hended := hbuf.ended
    rw [hrun]
    refine ⟨_, rfl, ⟨hcut, fun hcontra _ => ?_, fun hfin => ?_⟩, fun hgoes => ?_⟩
    · have hgoes : f.eofbit = false := hcontra
      dsimp only
      refine ⟨?_, ?_, ?_, ?_⟩ <;> simp [InputFile.seekg, hseek, hgoes, hsame]
    · have hfin' : f.eofbit = true := by simpa using hfin
      have hall := hleft.2 hfin'
      rw [hended, decide_eq_true_eq] at hfin'
      dsimp only
      omega
    · have hgoes' : f.eofbit = false := by simpa using hgoes
      rw [hended, decide_eq_false_iff_not] at hgoes'
      dsimp only
      omega

/-- The run on a file: its chunks and its head, whatever the buffer. -/
theorem Suits.fastCDC (h : Suits c file) {chunks : List ChunkData}
    (hcuts : Cuts c.toCutRule file (chunks.map Subtype.val)) {fuel : Nat}
    (hfuel : file.length + 1 < fuel) :
    c.fastCDC fuel file =
      some (chunks.map .dataChunk ++ [.recipeEnd ⟨file.length, chunks.length⟩]) := by
  have hround : ∀ s, AtRound c file (chunks.map Subtype.val) s →
      (!s.atEnd && !s.stop) = true → ∃ s', c.readRound fuel s = some s' ∧
        AtRound c file (chunks.map Subtype.val) s' ∧
        (if s'.atEnd || s'.stop then 0 else file.length - s'.totalOffset + 1) <
          (if s.atEnd || s.stop then 0 else file.length - s.totalOffset + 1) := by
    intro s hs hgo
    have hgo' : s.atEnd = false ∧ s.stop = false := by simpa using hgo
    obtain ⟨s', hround, hs', hmore⟩ :=
      h.readRound (show file.length < fuel by omega) hs hgo'.1 hgo'.2
    refine ⟨s', hround, hs', ?_⟩
    rw [hgo'.1, hgo'.2, Bool.or_self, if_neg Bool.false_ne_true]
    split
    · omega
    · rename_i hnot
      have hlt := hmore (by simpa using hnot)
      have hoff := hs'.cutOff.le
      omega
  have hstart : AtRound c file (chunks.map Subtype.val)
      ⟨.openFile file, 0, false, false, 0, 0, []⟩ :=
    ⟨⟨Nat.zero_le _, rfl, [], _, rfl, rfl, rfl, hcuts⟩, fun _ _ => ⟨rfl, rfl, rfl, rfl⟩,
      fun hcontra => nomatch hcontra⟩
  obtain ⟨s, hrun, hs, hexit⟩ := whileRun_total _ hround fuel _ hstart (by simpa using hfuel)
  have hfin : (s.atEnd || s.stop) = true := by
    cases hend : s.atEnd <;> cases hstop : s.stop <;> simp_all
  have hoff := hs.finished hfin
  obtain ⟨done, todo, hmq, hcnt, hall, htodo⟩ := hs.cutOff.chunks
  rw [hoff, List.drop_length] at htodo
  have hnil : todo = [] := by
    cases todo with
    | nil => rfl
    | cons x xs => exact absurd rfl htodo.ne_nil
  rw [hnil, List.append_nil] at hall
  obtain rfl := List.map_injective_iff.mpr Subtype.val_injective hall
  rw [Chunker.fastCDC, hrun]
  rw [← hoff, ← hs.cutOff.fileSize, ← hcnt, ← hmq]
  rfl

/-- The chunks are fixed by the rule and the file; every buffer of at least
`maxChunkSize` bytes gives them, within as many rounds as the file has bytes
and two more. -/
theorem fastCDC_cuts (r : CutRule) (file : Bytes) (hmin : 1 ≤ r.minChunkSize)
    (hmax : r.minChunkSize ≤ r.maxChunkSize) (hroom : r.maxChunkSize ≤ MAX_CHUNK_SIZE) :
    ∃ chunks : List ChunkData,
      Cuts r file (chunks.map Subtype.val) ∧
      (chunks.map Subtype.val).flatten = file ∧
      (∀ x ∈ chunks, 1 ≤ x.1.length ∧ x.1.length ≤ r.maxChunkSize) ∧
      (∀ x ∈ chunks.dropLast, r.minChunkSize ≤ x.1.length) ∧
      ∀ readSize, r.maxChunkSize ≤ readSize → (readSize < 2 ^ 32 ∨ file.length < 2 ^ 32) →
        ∀ fuel, file.length + 1 < fuel →
          (⟨r, readSize⟩ : Chunker).fastCDC fuel file =
            some (chunks.map .dataChunk ++ [.recipeEnd ⟨file.length, chunks.length⟩]) := by
  have hsized : Sized r := ⟨hmin, hmax, hroom.trans_lt (by decide)⟩
  obtain ⟨bytes, hcuts⟩ := hsized.exists_cuts file.length file (Nat.le_refl _)
  have hsizes := hcuts.sizes hsized
  have hshort := hcuts.sizes_dropLast hsized
  have hfits : ∀ x ∈ bytes, x.length ≤ MAX_CHUNK_SIZE := fun x hx => (hsizes x hx).2.trans hroom
  let chunks : List ChunkData := bytes.attachWith _ hfits
  have hval : chunks.map Subtype.val = bytes := List.attachWith_map_subtype_val ..
  rw [← hval] at hcuts hsizes hshort
  rw [← List.map_dropLast] at hshort
  refine ⟨chunks, hcuts, hcuts.flatten, fun x hx => hsizes x.1 (List.mem_map_of_mem hx),
    fun x hx => hshort x.1 (List.mem_map_of_mem hx), fun readSize hread hlen fuel hfuel => ?_⟩
  exact Suits.fastCDC (c := ⟨r, readSize⟩) ⟨hsized, hroom, hread, hlen⟩ hcuts hfuel

/-- Cuts by size alone. -/
def sizeRule (n : Nat) : CutRule := ⟨n, n, n, 0, 0, fun _ => 0⟩

theorem fastCDC_cuts_threeSizes : ∃ chunks : List ChunkData,
    (chunks.map Subtype.val).flatten = List.replicate 9 7 ∧
    ∀ readSize ∈ [4, 5, 8], (⟨sizeRule 4, readSize⟩ : Chunker).fastCDC 11 (List.replicate 9 7) =
      some (chunks.map .dataChunk ++ [.recipeEnd ⟨9, chunks.length⟩]) := by
  obtain ⟨chunks, _, hflat, _, _, hrun⟩ :=
    fastCDC_cuts (sizeRule 4) (List.replicate 9 7) (by decide) (by decide) (by decide)
  refine ⟨chunks, hflat, fun readSize hread => ?_⟩
  have hsize : 4 ≤ readSize ∧ readSize < 2 ^ 32 := by
    simp only [List.mem_cons, List.not_mem_nil, or_false] at hread
    omega
  exact hrun readSize hsize.1 (.inl hsize.2) 11 (by decide)

/-! ## Sizes that do not fit -/

/-- Without a first round there is no result. -/
theorem fastCDC_none (c : Chunker) (file : Bytes) (hne : file ≠ []) (hread : 0 < c.readSize)
    (h : ∀ buf len atEnd, Buffered c file 0 buf len atEnd → ∀ fuel,
      whileRun (c.more len atEnd) (c.cutOne buf len) fuel ⟨0, 0, 0, []⟩ = none) (fuel : Nat) :
    c.fastCDC fuel file = none := by
  rw [fastCDC]
  cases fuel with
  | zero => rfl
  | succ fuel =>
      have hbuf := buffered_read c (f := .openFile file) rfl rfl
      have hlen : ((InputFile.openFile file).read (List.replicate c.readSize 0)).2.gcount ≠ 0 := by
        have hheld := hbuf.held
        have hpos := List.length_pos_iff.mpr hne
        change _ = min c.readSize (file.length - 0) at hheld
        omega
      have hround : c.readRound (fuel + 1) ⟨.openFile file, 0, false, false, 0, 0, []⟩ = none := by
        rw [readRound]
        simp only [if_neg hlen]
        rw [h _ _ _ hbuf]
        rfl
      rw [whileRun, if_pos (by rfl), hround]
      rfl

theorem cutPoint_zero (r : CutRule) (src : Bytes) : r.cutPoint src 0 = 0 := by
  simp [cutPoint, rollTo]

/-- 4 GiB have the length 0 for `CutPoint`. -/
theorem fastCDC_none_of_length {n : Nat} (hn : n ≤ 2 ^ 32) {file : Bytes}
    (hfile : 2 ^ 32 ≤ file.length) (fuel : Nat) :
    (⟨sizeRule n, 2 ^ 32⟩ : Chunker).fastCDC fuel file = none := by
  have hne : file ≠ [] := List.length_pos_iff.mp (by omega)
  refine fastCDC_none _ file hne (Nat.two_pow_pos 32) (fun buf len atEnd hbuf => ?_) fuel
  have hlen : len = 2 ^ 32 := by
    have hheld := hbuf.held
    dsimp only at hheld
    omega
  refine fun fuel => whileRun_none (I := fun t : Cutting => t.localOffset = 0)
    (fun t ht => ⟨?_, fun t' hone => ?_⟩) fuel _ rfl
  · rw [more, ht, hlen, Bool.or_eq_true, decide_eq_true_eq]
    exact .inl hn
  · have hcp : (sizeRule n).cutPoint (buf.drop t.localOffset) (toUint32 (len - t.localOffset)) = 0 := by
      rw [ht, hlen]
      exact cutPoint_zero ..
    rw [cutOne, hcp] at hone
    obtain ⟨chunk, _, hone⟩ := Option.bind_eq_some_iff.mp hone
    obtain rfl := Option.some.inj hone
    exact ht

/-- A chunk that the array has no room for is not copied. -/
theorem fastCDC_none_of_room {n : Nat} (hroom : MAX_CHUNK_SIZE < n) (hn : n < 2 ^ 32)
    {file : Bytes} (hfile : file.length = n) (fuel : Nat) :
    (⟨sizeRule n, n⟩ : Chunker).fastCDC fuel file = none := by
  have hne : file ≠ [] := List.length_pos_iff.mp (by omega)
  refine fastCDC_none _ file hne (show 0 < n by omega) (fun buf len atEnd hbuf => ?_) fuel
  have hheld : len = n := by
    have hheld := hbuf.held
    dsimp only at hheld
    omega
  have htake := hbuf.take (show 0 + n ≤ len by omega)
  have hsized : Sized (sizeRule n) := ⟨show 1 ≤ n by omega, Nat.le_refl _, hn⟩
  have hcp : (sizeRule n).cutPoint (buf.drop 0) (toUint32 (len - 0)) = n := by
    rw [Nat.sub_zero, hheld, toUint32_of_lt hn]
    have hb := hsized.cutPoint_bounds (buf.drop 0) n
    dsimp only [sizeRule] at hb ⊢
    omega
  have hone : (⟨sizeRule n, n⟩ : Chunker).cutOne buf len ⟨0, 0, 0, []⟩ = none := by
    rw [cutOne]
    dsimp only
    rw [hcp, ChunkData.copy, dif_neg]
    · rfl
    · rw [htake, List.length_take, List.length_drop]
      omega
  intro fuel
  cases fuel with
  | zero => rfl
  | succ fuel =>
      have hmore : (⟨sizeRule n, n⟩ : Chunker).more len atEnd ⟨0, 0, 0, []⟩ = true := by
        rw [more, Bool.or_eq_true, decide_eq_true_eq, hheld]
        exact .inl (Nat.le_refl n)
      rw [whileRun, if_pos hmore, hone]
      rfl

/-- The length of a buffer of 4 GiB is 0 for `CutPoint`, whose chunk is then
empty, for ever; a chunk of 20000 bytes does not fit into a `Chunk_t`. -/
theorem fastCDC_noResult :
    (∀ fuel, (⟨sizeRule 16384, 2 ^ 32⟩ : Chunker).fastCDC fuel (List.replicate (2 ^ 32) 0) = none) ∧
    ∀ fuel, (⟨sizeRule 20000, 20000⟩ : Chunker).fastCDC fuel (List.replicate 20000 0) = none :=
  ⟨fastCDC_none_of_length (by decide) (Nat.le_of_eq List.length_replicate.symm),
    fastCDC_none_of_room (by decide) (by decide) List.length_replicate⟩

end Chunker

end ShieldReduce

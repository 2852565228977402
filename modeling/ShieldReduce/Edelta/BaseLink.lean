import Mathlib.Data.List.TakeWhile
import ShieldReduce.Edelta.RoundTrip

/-!
# Sub-chunks and the slots of `BaseLink`

The two gear chunkers of `edelta/util.cc` cut alike: the pieces tile the
buffer, each of them is between `STRMIN + 1` and `STRMAX + 1` bytes long
unless it ends the buffer, and a buffer of more than `STRMAX` bytes has
the same first piece in both.

`EDeltaEncode` keeps the pieces of its base in the array `BaseLink`. A
round of chunking takes as many slots as it was asked for, also for the
empty pieces behind the end of the base. What pays for a slot is the way
that `cursor_base` has gone: `STRMIN + 1` bytes a piece, as long as no
piece was empty. Matches only move the cursor on, and the round that
meets an empty piece is the last one, so that the array never runs out.
-/

namespace ShieldReduce.Edelta

open ByteLib LoopLib

/-! ## Pieces -/

/-- The array `cut` of `rolling_gear_v3(p, n, num, cut)`. -/
def gearCut (p : Mem) (n num : Nat) : List Nat := 0 :: rollingGearV3 p n num

/-- What `rolling_gear_v3` returns, `cut[count - 1]`. -/
def gearBytes (p : Mem) (n num : Nat) : Nat := (gearCut p n num).getLastD 0

/-- A piece of a buffer of `n` bytes, between two consecutive cuts. -/
structure Piece (n cut next : Nat) : Prop where
  le : cut ≤ next
  le_end : next ≤ n
  size : next ≠ n → STRMIN + 1 ≤ next - cut ∧ next - cut ≤ STRMAX + 1
  empty : cut = n → next = n

theorem isChain_replicate (n : Nat) : ∀ (num : Nat) {last : Nat}, last ≤ n →
    (last :: List.replicate num n).IsChain (Piece n)
  | 0, _, _ => List.IsChain.singleton _
  | num + 1, _, hlast =>
      List.IsChain.cons_cons ⟨hlast, le_refl n, fun h => absurd rfl h, fun _ => rfl⟩
        (isChain_replicate n num (le_refl n))

theorem rollingGearLoop_isChain {p : Mem} {n : Nat} :
    ∀ (fuel num last i : Nat) (fp : UInt32), last ≤ n → last + STRMIN + 1 ≤ i →
      i ≤ last + STRMAX + 1 → (last :: rollingGearLoop p n fuel num last i fp).IsChain (Piece n)
  | 0, _, _, _, _, _, _, _ => List.IsChain.singleton _
  | _ + 1, 0, _, _, _, _, _, _ => List.IsChain.singleton _
  | fuel + 1, num + 1, last, i, fp, hlast, hlo, hhi => by
      simp only [rollingGearLoop]
      split_ifs with h1 h2
      · exact rollingGearLoop_isChain fuel (num + 1) last (i + 1) _ hlast (by omega) (by omega)
      · refine List.IsChain.cons_cons ⟨by omega, by omega, fun _ => by omega, fun h => by omega⟩ ?_
        exact rollingGearLoop_isChain fuel num i (i + STRMIN + 1) 0 (by omega) (le_refl _)
          (by simp only [STRMIN, STRMAX]; omega)
      · exact isChain_replicate n (num + 1) hlast

theorem gearCut_isChain (p : Mem) (n num : Nat) : (gearCut p n num).IsChain (Piece n) :=
  rollingGearLoop_isChain _ _ _ _ _ (Nat.zero_le n) (by simp) (by decide)

/-- With the fuel that is left a cut is made for every number asked for. -/
theorem length_rollingGearLoop {p : Mem} {n : Nat} :
    ∀ (fuel num last i : Nat) (fp : UInt32), n < fuel + i → 0 < fuel →
      (rollingGearLoop p n fuel num last i fp).length = num
  | 0, _, _, _, _, _, hpos => absurd hpos (lt_irrefl 0)
  | _ + 1, 0, _, _, _, _, _ => rfl
  | fuel + 1, num + 1, last, i, fp, hfuel, _ => by
      simp only [rollingGearLoop]
      split_ifs with h1 h2
      · exact length_rollingGearLoop fuel (num + 1) last (i + 1) _ (by omega) (by omega)
      · rw [List.length_cons,
          length_rollingGearLoop fuel num i (i + STRMIN + 1) 0 (by omega) (by omega)]
      · exact List.length_replicate

theorem length_rollingGearV3 (p : Mem) (n num : Nat) : (rollingGearV3 p n num).length = num :=
  length_rollingGearLoop _ _ _ _ _ (by omega) (Nat.succ_pos n)

/-! ## Both chunkers find the same first piece -/

/-- From index `i` on, both loops stop at the same byte. `chunk_gear` also looks
at the byte at `n`, when it is the last one that it could cut before. -/
theorem rollingGearLoop_one {p q : Mem} {n : Nat} (hn : STRMAX < n) (hpq : ∀ i < n, q i = p i) :
    ∀ (k fuel fuel' i : Nat) (fp : UInt32), i + k = STRMAX + 1 → k ≤ fuel → k < fuel' →
      rollingGearLoop p n fuel' 1 0 i fp = [chunkGearLoop q n fuel i fp]
  | 0, fuel, fuel' + 1, i, fp, hi, _, _ => by
      have hgear : chunkGearLoop q n fuel i fp = i := by
        cases fuel with
        | zero => rfl
        | succ fuel => simp [chunkGearLoop, show ¬ i ≤ STRMAX by omega]
      rw [hgear]
      simp only [rollingGearLoop, Nat.zero_add]
      split_ifs with h1 h2
      · omega
      · cases fuel' <;> rfl
      · simp [show i = n by omega]
  | k + 1, fuel + 1, fuel' + 1, i, fp, hi, hf, hf' => by
      have hbyte : q i = p i := hpq i (by omega)
      simp only [rollingGearLoop, chunkGearLoop, Nat.zero_add, hbyte]
      rw [if_pos (show i < n by omega), if_pos (show i ≤ n by omega),
        if_pos (show i ≤ STRMAX by omega)]
      by_cases hcut : gearStep fp (p i) &&& STRAVG = 0
      · rw [if_neg (by simp [hcut]), if_pos hcut]
        cases fuel' <;> rfl
      · rw [if_pos ⟨by omega, hcut⟩, if_neg hcut]
        exact rollingGearLoop_one hn hpq k fuel fuel' (i + 1) _ (by omega) (by omega) (by omega)

theorem rollingGearV3_one {p q : Mem} {n : Nat} (hn : STRMAX < n) (hpq : ∀ i < n, q i = p i) :
    rollingGearV3 p n 1 = [chunkGear q n] := by
  rw [chunkGear, if_neg (by omega)]
  refine rollingGearLoop_one hn hpq (STRMAX - STRMIN) _ _ _ _ (by decide) ?_ ?_
  all_goals simp only [STRMIN, STRMAX] at hn ⊢; omega

/-! ## The slots of `BaseLink` -/

/-- What `BaseLink_` is allocated for, in records. -/
def BASE_LINK_SLOTS : Nat := MAX_CHUNK_SIZE / STRMIN + 50

/-- What a run has done to `BaseLink`: `numBase`, the indices it has written
to, and the records that it handed to the table. -/
structure BaseLink where
  numBase : Nat
  written : List Nat
  inserted : List DeltaRecord

namespace BaseLink

/-- The pieces of one round that are inserted: those before the first empty one,
at their offsets in the base. -/
def pieces (cursorBase : Nat) (recs : List DeltaRecord) : List DeltaRecord :=
  (recs.takeWhile fun r => r.nLength ≠ 0).map fun r => { r with nOffset := r.nOffset + cursorBase }

/-- One call of `Chunking_v3` with `BaseLink + numBase`, and the loop that
inserts what it found. -/
def chunked (cursorBase chunkNumber : Nat) (recs : List DeltaRecord) (b : BaseLink) : BaseLink where
  numBase := b.numBase + chunkNumber
  written := b.written ++ List.range' b.numBase recs.length
  inserted := b.inserted ++ pieces cursorBase recs

/-- The rounds of `chunkRounds`, as far as `BaseLink` goes. -/
def rounds (f : Job) (h : Heuristics) (link : List InputString) :
    Nat → (chunkNumber cursorBase : Nat) → Htable DeltaRecord → BaseLink → BaseLink
  | 0, _, _, _, b => b
  | n + 1, chunkNumber, cursorBase, t, b =>
      let (recs, numBytes) := chunkingV3 h.weakHash (fun i => f.baseBuf (cursorBase + i))
        (f.baseEnd - cursorBase) chunkNumber
      let b := b.chunked cursorBase chunkNumber recs
      let (t, flagChunk) := insertBase cursorBase recs t
      match findProbe t link with
      | some _ => b
      | none =>
          if flagChunk then
            rounds f h link n (chunkNumber * BASE_EXPAND) (cursorBase + numBytes) t b
          else b

end BaseLink

/-- The encoder together with its `BaseLink`. -/
structure Linked where
  enc : Enc
  link : BaseLink

namespace Linked

/-- One iteration of the main loop. -/
def step (f : Job) (h : Heuristics) (v : Linked) : Linked where
  enc := v.enc.step f h
  link :=
    if v.enc.flagChunk && h.pace v.enc.cursorInput f.newSize v.enc.cursorBase f.baseSize then
      v.link.rounds f h (inputLink f h INPUT_TRY v.enc.cursorInput) BASE_STEP BASE_BEGIN
        v.enc.cursorBase v.enc.psHTable
    else v.link

def mainLoop (f : Job) (h : Heuristics) (v : Linked) : Linked :=
  whileLoop (fun v => decide (v.enc.inputPos < f.newEnd)) (step f h) (f.newSize + 1) v

/-- The locals before the main loop. -/
def init (f : Job) (t : Htable DeltaRecord) : Linked where
  enc := if f.begSize ≠ 0 then (Enc.init f t).copyUnit 0 f.begSize else Enc.init f t
  link := ⟨0, [], []⟩

end Linked

/-- What `EcallFreqIndex::EDeltaEncode` does to `BaseLink`. -/
def EcallFreqIndex.baseLink (h : Heuristics) (t : CleanTable) (f : Job) : BaseLink :=
  if f.baseSize ≤ f.begSize + f.endSize then ⟨0, [], []⟩
  else ((Linked.init f t.1).mainLoop f h).link

/-- The same of `OFFLineBackward::EDeltaEncode`. -/
def OFFLineBackward.baseLink (h : Heuristics) (t : Htable DeltaRecord) (f : Job) : BaseLink :=
  EcallFreqIndex.baseLink h ⟨t.resetTable, t.clean_resetTable⟩ f

/-- The rounds of the main loop with `BaseLink` are those without it. -/
theorem Linked.mainLoop_enc (f : Job) (h : Heuristics) (v : Linked) :
    (v.mainLoop f h).enc = v.enc.mainLoop f h :=
  whileLoop_map Linked.enc (fun s => decide (s.inputPos < f.newEnd)) (Enc.step f h)
    (fun _ => rfl) (fun _ => rfl) _ v

/-! ## What a round inserts and what pays for it -/

theorem insertBase_eq (cursorBase : Nat) : ∀ (recs : List DeltaRecord) (t : Htable DeltaRecord),
    insertBase cursorBase recs t =
      ((BaseLink.pieces cursorBase recs).foldl (fun t r => t.insert r.nHash r) t,
        recs.all fun r => r.nLength ≠ 0)
  | [], _ => rfl
  | r :: rs, t => by
      rw [insertBase]
      split
      · rename_i hr
        simp [BaseLink.pieces, hr]
      · rename_i hr
        rw [insertBase_eq cursorBase rs]
        simp [BaseLink.pieces, hr]

theorem length_cutRecords (weakHash : Bytes → UInt64) (data : Mem) : ∀ (cs : List Nat) (last : Nat),
    (cutRecords weakHash data last cs).length = cs.length
  | [], _ => rfl
  | c :: cs, _ => by rw [cutRecords, List.length_cons, List.length_cons, length_cutRecords _ _ cs]

/-- As long as no piece is empty, `STRMIN + 1` bytes pay for a piece; only the
piece that ends the buffer may fall short of them. -/
theorem pieces_paid {weakHash : Bytes → UInt64} {data : Mem} {n : Nat} :
    ∀ {cs : List Nat} {last : Nat}, (last :: cs).IsChain (Piece n) →
      (∀ r ∈ cutRecords weakHash data last cs, r.nLength ≠ 0) →
      (STRMIN + 1) * cs.length + last ≤
        cs.getLastD last + if cs.getLastD last = n then STRMIN else 0
  | [], last, _, _ => by
      simp only [List.length_nil, Nat.mul_zero, Nat.zero_add, List.getLastD_nil]
      exact Nat.le_add_right _ _
  | c :: cs, last, hchain, hfull => by
      obtain ⟨hpiece, hrest⟩ := List.isChain_cons_cons.mp hchain
      have hne : c - last ≠ 0 := hfull ⟨_, last, c - last⟩ List.mem_cons_self
      have hfull' : ∀ r ∈ cutRecords weakHash data c cs, r.nLength ≠ 0 :=
        fun r hr => hfull r (by simp [cutRecords, hr])
      have ih := pieces_paid hrest hfull'
      rw [List.getLastD_cons, List.length_cons]
      by_cases hc : c = n
      · -- behind the end there is only room for empty pieces
        cases cs with
        | nil =>
            simp only [List.length_nil, List.getLastD_nil, hc, if_pos]
            have := hpiece.le
            simp only [STRMIN]
            omega
        | cons d cs =>
            have hd := (List.isChain_cons_cons.mp hrest).1.empty hc
            exact absurd (show d - c = 0 by omega) (hfull' ⟨_, c, d - c⟩ List.mem_cons_self)
      · have := hpiece.size hc
        have := hpiece.le
        rw [Nat.mul_succ]
        omega

/-- The slots used so far are paid for by the way of `cursor_base`. -/
def BaseLink.Room (f : Job) (cursorBase : Nat) (b : BaseLink) : Prop :=
  (STRMIN + 1) * b.numBase + f.begSize ≤
    cursorBase + if cursorBase = f.baseEnd then STRMIN else 0

/-- No index is out of the array, and what went into the table is a piece of the
base between head and tail. -/
structure BaseLink.Kept (f : Job) (b : BaseLink) : Prop where
  written : ∀ i ∈ b.written, i < BASE_LINK_SLOTS
  inserted : ∀ r ∈ b.inserted,
    f.begSize ≤ r.nOffset ∧ 0 < r.nLength ∧ r.nOffset + r.nLength ≤ f.baseEnd

/-- A later cursor pays for more. -/
theorem BaseLink.Room.mono {f : Job} {b : BaseLink} {c d : Nat} (h : b.Room f c) (hcd : c ≤ d)
    (hd : d ≤ f.baseEnd) : b.Room f d := by
  rw [BaseLink.Room] at h ⊢
  split at h <;> split <;> omega

theorem mem_pieces {cursorBase : Nat} {recs : List DeltaRecord} {r : DeltaRecord}
    (h : r ∈ BaseLink.pieces cursorBase recs) :
    ∃ r₀ ∈ recs, r₀.nLength ≠ 0 ∧ r = { r₀ with nOffset := r₀.nOffset + cursorBase } := by
  obtain ⟨r₀, hr₀, rfl⟩ := List.mem_map.mp h
  exact ⟨r₀, List.takeWhile_subset _ hr₀, by simpa using List.mem_takeWhile_imp hr₀, rfl⟩

/-- A call of `Chunking_v3` for at most 45 pieces. -/
theorem BaseLink.chunked_fits {f : Job} {h : Heuristics} {b : BaseLink} {cb num : Nat}
    (hbase : f.baseSize ≤ MAX_CHUNK_SIZE) (hbeg : f.begSize ≤ cb) (hcb : cb ≤ f.baseEnd)
    (hnum : num ≤ 45) (hroom : b.Room f cb) (hkept : b.Kept f) (t : Htable DeltaRecord) :
    let ch := chunkingV3 h.weakHash (fun i => f.baseBuf (cb + i)) (f.baseEnd - cb) num
    (b.chunked cb num ch.1).Kept f ∧
      ((insertBase cb ch.1 t).2 = true → (b.chunked cb num ch.1).Room f (cb + ch.2)) := by
  have hrecs := (chunkingV3_within h.weakHash (fun i => f.baseBuf (cb + i)) (f.baseEnd - cb) num).1
  simp only [chunkingV3] at hrecs ⊢
  generalize hcuts : rollingGearV3 (fun i => f.baseBuf (cb + i)) (f.baseEnd - cb) num = cuts at *
  have hlen : cuts.length = num := by rw [← hcuts, length_rollingGearV3]
  have hend : f.baseEnd ≤ f.baseSize := Nat.sub_le _ _
  refine ⟨⟨fun i hi => ?_, fun r hr => ?_⟩, fun hflag => ?_⟩
  · rcases List.mem_append.mp hi with hi' | hi'
    · exact hkept.written i hi'
    · obtain ⟨hge, hlt⟩ := List.mem_range'_1.mp hi'
      rw [length_cutRecords, hlen] at hlt
      rw [BaseLink.Room] at hroom
      simp only [BASE_LINK_SLOTS, STRMIN, MAX_CHUNK_SIZE] at *
      split at hroom <;> omega
  · rcases List.mem_append.mp hr with hr' | hr'
    · exact hkept.inserted r hr'
    · obtain ⟨r₀, hmem, hne, rfl⟩ := mem_pieces hr'
      have := hrecs r₀ hmem
      exact ⟨by simp only; omega, by simp only; omega, by simp only; omega⟩
  · rw [insertBase_eq] at hflag
    have hchain : (0 :: cuts).IsChain (Piece (f.baseEnd - cb)) := by
      rw [← hcuts]
      exact gearCut_isChain _ _ _
    have hpaid := pieces_paid hchain (fun r hr => by simpa using List.all_eq_true.mp hflag r hr)
    rw [hlen] at hpaid
    have hle : cuts.getLastD 0 ≤ f.baseEnd - cb := by
      rw [← hcuts]
      exact (rollingGearV3_cuts _ _ _).getLastD_le
    simp only [BaseLink.Room, BaseLink.chunked, Nat.mul_add] at hroom ⊢
    simp only [STRMIN] at *
    split_ifs at * <;> omega

/-- What the rounds did to `BaseLink` and to the table. A round cuts at most 45 pieces. -/
theorem BaseLink.rounds_fits {f : Job} {h : Heuristics} (hbase : f.baseSize ≤ MAX_CHUNK_SIZE)
    (link : List InputString) :
    ∀ (n num cb : Nat) (t : Htable DeltaRecord) (b : BaseLink),
      num * BASE_EXPAND ^ n ≤ 135 → f.begSize ≤ cb → cb ≤ f.baseEnd → b.Room f cb → b.Kept f →
      let r := chunkRounds f h link n num cb t
      let b' := b.rounds f h link n num cb t
      b'.Kept f ∧ (r.flagChunk = true → b'.Room f r.cursorBase) ∧ f.begSize ≤ r.cursorBase ∧
        ∃ new, b'.inserted = b.inserted ++ new ∧
          r.psHTable = new.foldl (fun t r => t.insert r.nHash r) t
  | 0, _, _, _, _, _, hbeg, _, hroom, hkept =>
      ⟨hkept, fun _ => hroom, hbeg, [], by rw [BaseLink.rounds, List.append_nil], rfl⟩
  | n + 1, num, cb, t, b, hnum, hbeg, hcb, hroom, hkept => by
      have hpow : num * BASE_EXPAND * BASE_EXPAND ^ n ≤ 135 := by
        rwa [Nat.mul_assoc, ← Nat.pow_succ']
      have hnum' : num ≤ 45 := by
        have := Nat.le_mul_of_pos_right (num * BASE_EXPAND)
          (Nat.pow_pos (n := n) (show 0 < BASE_EXPAND by decide))
        simp only [BASE_EXPAND] at *
        omega
      obtain ⟨hkept', hroom'⟩ := chunked_fits (h := h) hbase hbeg hcb hnum' hroom hkept t
      have hbytes := (chunkingV3_within h.weakHash (fun i => f.baseBuf (cb + i))
        (f.baseEnd - cb) num).2
      simp only [chunkRounds, BaseLink.rounds]
      generalize chunkingV3 h.weakHash (fun i => f.baseBuf (cb + i)) (f.baseEnd - cb) num = ch at *
      have htable : (insertBase cb ch.1 t).1 =
          (pieces cb ch.1).foldl (fun t r => t.insert r.nHash r) t := by rw [insertBase_eq]
      have hadv : f.begSize ≤ cb + ch.2 := by omega
      generalize insertBase cb ch.1 t = ins at *
      cases findProbe ins.1 link with
      | some hit => exact ⟨hkept', hroom', hadv, pieces cb ch.1, rfl, htable⟩
      | none =>
          cases hflag : ins.2 with
          | true =>
              obtain ⟨h1, h2, h3, new, h4, h5⟩ := BaseLink.rounds_fits (h := h) hbase link n
                (num * BASE_EXPAND) (cb + ch.2) ins.1 (b.chunked cb num ch.1) hpow (by omega)
                (by omega) (hroom' hflag) hkept'
              refine ⟨h1, h2, h3, pieces cb ch.1 ++ new, ?_, ?_⟩
              · exact h4.trans (List.append_assoc _ _ _)
              · exact h5.trans (by rw [htable, List.foldl_append])
          | false =>
              exact ⟨hkept', fun hf => (Bool.false_ne_true hf).elim, hadv, pieces cb ch.1, rfl,
                htable⟩

/-! ## The strings of the input leave `BaseLink` alone -/

/-- From `s` to `s'` the base was not chunked; matches may have moved its cursor. -/
structure Enc.Unchunked (s s' : Enc) : Prop where
  flagChunk : s'.flagChunk = s.flagChunk
  cursorBase : s.cursorBase ≤ s'.cursorBase
  psHTable : s'.psHTable = s.psHTable

namespace Enc

theorem Unchunked.trans {s s' s'' : Enc} (h : s.Unchunked s') (h' : s'.Unchunked s'') :
    s.Unchunked s'' :=
  ⟨h'.flagChunk.trans h.flagChunk, h.cursorBase.trans h'.cursorBase,
    h'.psHTable.trans h.psHTable⟩

theorem unchunked_unmatched (f : Job) (s : Enc) (length : Nat) :
    s.Unchunked (s.unmatched f length) := by
  rw [Enc.unmatched]
  split <;> exact ⟨rfl, le_refl _, rfl⟩

theorem unchunked_matchedCopy (f : Job) (s : Enc) (length : Nat) (r : DeltaRecord) :
    s.Unchunked (s.matchedCopy f length r) := by
  refine ⟨?_, ?_, ?_⟩
  · simp only [Enc.matchedCopy, Enc.giveBack, Enc.shrinkLiteral]
    split_ifs <;> rfl
  · simp only [Enc.matchedCopy]
    split_ifs <;> exact le_max_left _ _
  · simp only [Enc.matchedCopy, Enc.giveBack, Enc.shrinkLiteral]
    split_ifs <;> rfl

theorem unchunked_matched (f : Job) (s : Enc) (length : Nat) (r : DeltaRecord) :
    s.Unchunked (s.matched f length r) := by
  rw [Enc.matched]
  split
  · exact unchunked_matchedCopy f s length r
  · exact unchunked_unmatched f s length

theorem unchunked_nextString (f : Job) (h : Heuristics) (s : Enc) :
    s.Unchunked (s.nextString f h) := by
  rw [Enc.nextString]
  split
  · exact unchunked_matched f s _ _
  · exact unchunked_unmatched f s _

theorem unchunked_foldl (f : Job) : ∀ (probes : List InputString) (s : Enc),
    s.Unchunked (probes.foldl (fun s c => s.unmatched f c.nLength) s)
  | [], _ => ⟨rfl, le_refl _, rfl⟩
  | c :: probes, s => (unchunked_unmatched f s c.nLength).trans (unchunked_foldl f probes _)

/-- An iteration chunks the base first, if it does at all. -/
theorem unchunked_step (f : Job) (h : Heuristics) (s : Enc) :
    Unchunked
      (if s.flagChunk && h.pace s.cursorInput f.newSize s.cursorBase f.baseSize then
        let rounds := chunkRounds f h (inputLink f h INPUT_TRY s.cursorInput) BASE_STEP BASE_BEGIN
          s.cursorBase s.psHTable
        { s with
          psHTable := rounds.psHTable, cursorBase := rounds.cursorBase,
          flagChunk := rounds.flagChunk }
      else s) (s.step f h) := by
  rw [Enc.step]
  split
  · simp only
    split
    · exact (unchunked_foldl f _ _).trans (unchunked_matched f _ _ _)
    · exact (unchunked_foldl f _ _).trans (unchunked_nextString f h _)
  · exact unchunked_nextString f h s

end Enc

/-! ## Runs -/

/-- What the main loop keeps: slots are paid for while the base is still being
chunked, and after that no slot is taken. -/
structure Linked.Fits (f : Job) (t : Htable DeltaRecord) (v : Linked) : Prop where
  loop : v.enc.LoopInv f
  beg_le : f.begSize ≤ v.enc.cursorBase
  room : v.enc.flagChunk = true → v.link.Room f v.enc.cursorBase
  kept : v.link.Kept f
  table : v.enc.psHTable = v.link.inserted.foldl (fun t r => t.insert r.nHash r) t

theorem Linked.Fits.step {f : Job} {h : Heuristics} {t : Htable DeltaRecord} {v : Linked}
    (hs : f.Small) (hbase : f.baseSize ≤ MAX_CHUNK_SIZE) (hv : v.Fits f t)
    (hlt : v.enc.inputPos < f.newEnd) : (v.step f h).Fits f t := by
  have hloop := (hv.loop.step (h := h) hs hlt).1
  have hkeep := Enc.unchunked_step f h v.enc
  by_cases hp : v.enc.flagChunk && h.pace v.enc.cursorInput f.newSize v.enc.cursorBase f.baseSize
  · rw [if_pos hp] at hkeep
    obtain ⟨h1, h2, h3, new, h4, h5⟩ := BaseLink.rounds_fits (h := h) hbase
      (inputLink f h INPUT_TRY v.enc.cursorInput) BASE_STEP BASE_BEGIN v.enc.cursorBase
      v.enc.psHTable v.link (by decide) hv.beg_le hv.loop.base_le
      (hv.room (Bool.and_eq_true_iff.mp hp).1) hv.kept
    refine ⟨hloop, ?_, ?_, ?_, ?_⟩
    · exact h3.trans hkeep.cursorBase
    · intro hf
      simp only [Linked.step, if_pos hp] at hf ⊢
      exact (h2 (hkeep.flagChunk.symm.trans hf)).mono hkeep.cursorBase hloop.base_le
    · simp only [Linked.step, if_pos hp]
      exact h1
    · simp only [Linked.step, if_pos hp]
      rw [hkeep.psHTable, h4, List.foldl_append, ← hv.table]
      exact h5
  · rw [if_neg hp] at hkeep
    refine ⟨hloop, hv.beg_le.trans hkeep.cursorBase, ?_, ?_, ?_⟩
    · intro hf
      simp only [Linked.step, if_neg hp] at hf ⊢
      exact (hv.room (hkeep.flagChunk.symm.trans hf)).mono hkeep.cursorBase hloop.base_le
    · simp only [Linked.step, if_neg hp]
      exact hv.kept
    · simp only [Linked.step, if_neg hp]
      rw [hkeep.psHTable, hv.table]

theorem Linked.init_fits {f : Job} {t : Htable DeltaRecord} (hs : f.Small)
    (hsearch : f.begSize + f.endSize < f.baseSize) (ht : t.Clean) : (Linked.init f t).Fits f t := by
  have hloop := Enc.head_loopInv hs hsearch ht
  obtain ⟨_, _, _, _, hcb, htab⟩ := Enc.head_closed hs t
  refine ⟨hloop, hcb.ge, fun _ => ?_, ⟨by simp [Linked.init], by simp [Linked.init]⟩, htab⟩
  rw [BaseLink.Room, Linked.init]
  simp only [Nat.mul_zero, Nat.zero_add, hcb]
  exact Nat.le_add_right _ _

theorem Linked.mainLoop_fits {f : Job} {h : Heuristics} {t : Htable DeltaRecord} (hs : f.Small)
    (hbase : f.baseSize ≤ MAX_CHUNK_SIZE) (hsearch : f.begSize + f.endSize < f.baseSize)
    (ht : t.Clean) : ((Linked.init f t).mainLoop f h).Fits f t :=
  whileLoop_inv (fun _ hv hc => hv.step hs hbase (by simpa using hc)) _ _
    (Linked.init_fits hs hsearch ht)

theorem EcallFreqIndex.baseLink_kept (h : Heuristics) (t : CleanTable) {f : Job}
    (hnew : f.newSize ≤ MAX_CHUNK_SIZE) (hbase : f.baseSize ≤ MAX_CHUNK_SIZE) :
    (EcallFreqIndex.baseLink h t f).Kept f := by
  rw [EcallFreqIndex.baseLink]
  split
  · exact ⟨by simp, by simp⟩
  · exact (Linked.mainLoop_fits (Job.small_of_le hnew hbase) hbase (by omega) t.2).kept

/-- The table of the main loop is the one it began with and what was inserted since. -/
theorem psHTable_mainLoop {f : Job} {h : Heuristics} {t : Htable DeltaRecord} (hs : f.Small)
    (hbase : f.baseSize ≤ MAX_CHUNK_SIZE) (hsearch : f.begSize + f.endSize < f.baseSize)
    (ht : t.Clean) :
    ((Linked.init f t).enc.mainLoop f h).psHTable =
      ((Linked.init f t).mainLoop f h).link.inserted.foldl (fun t r => t.insert r.nHash r) t := by
  rw [← Linked.mainLoop_enc]
  exact (Linked.mainLoop_fits hs hbase hsearch ht).table

/-- The sub-chunkers tile the buffer and agree, whatever byte `chunk_gear` reads at
its end, and no encoder runs out of `BaseLink`, whose pieces are those that the hash
table got. -/
theorem gear_subChunks (p q : Mem) (n num : Nat) (h : Heuristics) (t : CleanTable)
    (u : Htable DeltaRecord) (f : Job) :
    ((gearCut p n num).length = num + 1 ∧ (gearCut p n num).head? = some 0 ∧
      (gearCut p n num).getLast? = some (gearBytes p n num) ∧ gearBytes p n num ≤ n ∧
      (gearCut p n num).IsChain fun cut next =>
        cut ≤ next ∧ (next ≠ n → STRMIN + 1 ≤ next - cut ∧ next - cut ≤ STRMAX + 1) ∧
          (cut = n → next - cut = 0)) ∧
    (STRMAX < n → (∀ i < n, q i = p i) →
      (gearCut p n 1).find? (fun cut => cut ≠ 0) = some (chunkGear q n)) ∧
    (f.newSize ≤ MAX_CHUNK_SIZE → f.baseSize ≤ MAX_CHUNK_SIZE →
      ∀ b ∈ [EcallFreqIndex.baseLink h t f, OFFLineBackward.baseLink h u f],
        (∀ i ∈ b.written, i < MAX_CHUNK_SIZE / STRMIN + 50) ∧
        ∀ r ∈ b.inserted, f.begSize ≤ r.nOffset ∧ r.nOffset + r.nLength ≤ f.baseSize - f.endSize) ∧
    (f.newSize ≤ MAX_CHUNK_SIZE → f.baseSize ≤ MAX_CHUNK_SIZE → f.begSize + f.endSize < f.baseSize →
      ((Linked.init f t.1).enc.mainLoop f h).psHTable =
        (EcallFreqIndex.baseLink h t f).inserted.foldl (fun t r => t.insert r.nHash r) t.1) := by
  refine ⟨⟨?_, rfl, ?_, ?_, ?_⟩, fun hn hpq => ?_, fun hnew hbase b hb => ?_,
    fun hnew hbase hsearch => ?_⟩
  · rw [gearCut, List.length_cons, length_rollingGearV3]
  · rw [gearBytes, gearCut, List.getLastD_cons, List.getLast?_cons]
    rw [List.getLastD_eq_getLast?]
  · rw [gearBytes, gearCut, List.getLastD_cons]
    exact (rollingGearV3_cuts p n num).getLastD_le
  · exact (gearCut_isChain p n num).imp fun cut next hpiece =>
      ⟨hpiece.le, hpiece.size, fun hcut => by rw [hpiece.empty hcut, hcut, Nat.sub_self]⟩
  · have hpos := (chunkGear_bounds q n).2 (by omega)
    rw [gearCut, rollingGearV3_one hn hpq]
    simp [Nat.pos_iff_ne_zero.mp hpos]
  · have hkept : b.Kept f := by
      rcases List.mem_pair.mp hb with rfl | rfl
      · exact EcallFreqIndex.baseLink_kept h t hnew hbase
      · exact EcallFreqIndex.baseLink_kept h ⟨u.resetTable, u.clean_resetTable⟩ hnew hbase
    refine ⟨hkept.written, fun r hr => ?_⟩
    obtain ⟨h1, _, h2⟩ := hkept.inserted r hr
    exact ⟨h1, h2⟩
  · rw [EcallFreqIndex.baseLink, if_neg (by omega)]
    exact psHTable_mainLoop (Job.small_of_le hnew hbase) hbase hsearch t.2

/-- Two chunks of 300 bytes without a common byte. -/
def foreignJob : Job where
  newBuf := fun i => UInt8.ofNat (i % 100)
  newSize := 300
  baseBuf := fun i => UInt8.ofNat (100 + i % 100)
  baseSize := 300

theorem gear_subChunks_foreign :
    (gearCut foreignJob.baseBuf 70 1).find? (fun cut => cut ≠ 0) =
        some (chunkGear foreignJob.baseBuf 70) ∧
      ∀ b ∈ [EcallFreqIndex.baseLink ⟨fun _ => 0, fun _ _ _ _ => true⟩
            ⟨Htable.init 16384, Htable.clean_init 16384⟩ foreignJob,
          OFFLineBackward.baseLink ⟨fun _ => 0, fun _ _ _ _ => true⟩ (Htable.init 16384) foreignJob],
        (∀ i ∈ b.written, i < MAX_CHUNK_SIZE / STRMIN + 50) ∧
        ∀ r ∈ b.inserted, foreignJob.begSize ≤ r.nOffset ∧
          r.nOffset + r.nLength ≤ foreignJob.baseSize - foreignJob.endSize :=
  have h := gear_subChunks foreignJob.baseBuf foreignJob.baseBuf 70 1
    ⟨fun _ => 0, fun _ _ _ _ => true⟩ ⟨Htable.init 16384, Htable.clean_init 16384⟩
    (Htable.init 16384) foreignJob
  ⟨h.2.1 (by decide) fun _ _ => rfl, h.2.2.1 (by decide) (by decide)⟩

end ShieldReduce.Edelta

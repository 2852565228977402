import ShieldReduce.Lz4.Encode

/-!
# Runs of the encoder

`LZ4_compress_fast` returns, stays inside both buffers, and unless it
returns 0 it has written a block that ends as the format asks for and
whose text is the input. It returns 0 only for an output below
`LZ4_compressBound`.
-/

namespace ShieldReduce.Lz4

open ByteLib Encoder

/-! ## Blocks, sequence by sequence -/

theorem ends_append {size : Nat} {s : Sequence} : ∀ {ss : List Sequence} {out text : Bytes},
    expand ss out = some text → Block.Ends size ss out →
    (s.text text).length + LASTLITERALS ≤ size → text.length + s.literals.length + MFLIMIT ≤ size →
    Block.Ends size (ss ++ [s]) out
  | [], out, text, htext, _, hmatch, hstart => by
      obtain rfl := Option.some.inj htext
      exact ⟨hmatch, hstart, trivial⟩
  | s' :: ss, out, text, htext, hends, hmatch, hstart => by
      obtain ⟨hmatch', hstart', hends'⟩ := hends
      rw [expand] at htext
      split at htext
      · exact ⟨hmatch', hstart', ends_append htext hends' hmatch hstart⟩
      · cases htext

/-- The output is what the directive takes it for. -/
def Job.Fits (j : Job) (cap : Nat) : Prop :=
  match j.olimit with
  | none => j.inputSize + j.inputSize / 255 + 16 ≤ cap
  | some olimit => olimit = cap

/-- What the main loop is entered with. -/
structure Job.Valid (j : Job) (cap : Nat) : Prop where
  minLength : LZ4_minLength ≤ j.inputSize
  byU16 : j.tableType = .byU16 → j.inputSize < LZ4_64Klimit
  acceleration : 1 ≤ j.acceleration
  fits : j.Fits cap

variable {j : Job} {cap : Nat}

/-- A write that the directive lets pass. -/
theorem Job.Fits.room (hfits : j.Fits cap) {pos q : Nat} (h : j.overflows pos = false) (hq : q ≤ pos)
    (hbound : q ≤ j.inputSize + j.inputSize / 255 + 16) : q ≤ cap := by
  rw [Job.overflows] at h
  rw [Job.Fits] at hfits
  cases holimit : j.olimit with
  | none =>
      rw [holimit] at hfits
      exact le_trans hbound hfits
  | some olimit =>
      rw [holimit] at hfits h
      have hle := of_decide_eq_false h
      have hcap : olimit = cap := hfits
      omega

theorem Job.limited_of_overflows {pos : Nat} (h : j.overflows pos = true) : j.olimit ≠ none := by
  intro hnone
  rw [Job.overflows, hnone] at h
  cases h

/-- The output up to `pos` holds the sequences of the input up to the anchor. -/
structure Written (j : Job) (cap : Nat) (e : Encoder) (pos : Nat) : Prop where
  inside : e.Inside j.inputSize cap
  anchor_le : e.anchor ≤ j.inputSize
  small : pos ≤ e.anchor + e.anchor / 255
  sequences : ∃ ss : List Sequence, slice e.dst 0 pos = ss.flatMap Sequence.bytes ∧
    expand ss [] = some (slice j.src 0 e.anchor) ∧ Block.Ends j.inputSize ss [] ∧
    (ss ≠ [] → e.anchor + LASTLITERALS ≤ j.inputSize)

/-- Before a match is looked for. -/
structure Searching (j : Job) (cap : Nat) (e : Encoder) : Prop extends
    Written j cap e e.op where
  anchor_le_ip : e.anchor ≤ e.ip
  ip_le : e.ip ≤ j.mflimitPlusOne
  table_lt : ∀ h, e.hashTable h < e.ip

/-- A match from `mtch` on, of at least `MINMATCH` bytes, that covers what the
hash table knows. -/
structure Match (j : Job) (e : Encoder) (mtch : Nat) : Prop where
  lt : mtch < e.ip
  far : e.ip ≤ mtch + LZ4_DISTANCE_MAX
  start : e.ip + MFLIMIT ≤ j.inputSize
  known : ∃ k, MINMATCH ≤ k ∧ e.ip + k + LASTLITERALS ≤ j.inputSize ∧
    slice j.src e.ip k = slice j.src mtch k ∧ ∀ h, e.hashTable h + MINMATCH ≤ e.ip + k

/-- The token with the first length in it, its bytes, and the literals. -/
def literalBytes (literals : Bytes) : Bytes :=
  UInt8.ofNat (16 * min literals.length RUN_MASK) :: (lengthBytes literals.length ++ literals)

theorem length_literalBytes (literals : Bytes) : (literalBytes literals).length =
    1 + (lengthBytes literals.length).length + literals.length := by
  rw [literalBytes, List.length_cons, List.length_append]
  omega

/-- Before a match is written, whose literals have been since `e₀`. -/
structure Pending (j : Job) (cap : Nat) (e₀ : Encoder) (mtch : Nat) (e : Encoder) : Prop where
  written : Written j cap e₀ e₀.op
  anchor_le_ip : e₀.anchor ≤ e₀.ip
  mtch : Match j e mtch
  puts : Puts j.inputSize cap e₀ (literalBytes (slice j.src e₀.anchor (e₀.ip - e₀.anchor))) e
  room : e.op + 2 ≤ cap

/-- What a round leaves. -/
def Round.Ok (j : Job) (cap : Nat) : Round → Prop
  | .full e => e.Inside j.inputSize cap ∧ j.olimit ≠ none
  | .lastLiterals e => Written j cap e e.op
  | .nextMatch token mtch e => ∃ e₀, token = e₀.op ∧ Pending j cap e₀ mtch e
  | .search _ e => Searching j cap e

/-! ## Looking for a match -/

theorem putIndexOnHash_lt (tableType : TableType) {e : Encoder} {idx h b : Nat}
    (ht : ∀ h, e.hashTable h < b) (hidx : idx < b) (h' : Nat) :
    (e.putIndexOnHash tableType idx h).hashTable h' < b := by
  show Function.update e.hashTable h _ h' < b
  by_cases heq : h' = h
  · subst heq
    rw [Function.update_self]
    cases tableType with
    | byU32 => exact lt_of_le_of_lt (Nat.mod_le _ _) hidx
    | byU16 => exact lt_of_le_of_lt (Nat.mod_le _ _) hidx
  · rw [Function.update_of_ne heq]
    exact ht h'

theorem hashRead_inside {p : Nat} (hp : p + 8 ≤ j.inputSize) :
    (j.hashRead p).Inside j.inputSize cap := by
  show p + (if j.tableType = .byU16 then 4 else 8) ≤ j.inputSize
  split <;> omega

/-- What a search leaves alone. -/
structure Kept (j : Job) (cap : Nat) (e e' : Encoder) : Prop where
  anchor_eq : e'.anchor = e.anchor
  op_eq : e'.op = e.op
  dst_eq : e'.dst = e.dst
  inside : e'.Inside j.inputSize cap

theorem findMatch_spec (hv : j.Valid cap) : ∀ (fuel h forwardIp step searchMatchNb : Nat)
    {e : Encoder}, j.mflimitPlusOne < forwardIp + fuel → forwardIp ≤ j.mflimitPlusOne → 1 ≤ step →
    2 ^ LZ4_skipTrigger ≤ searchMatchNb → (∀ h, e.hashTable h < forwardIp) →
    e.Inside j.inputSize cap →
    ∃ r e', j.findMatch fuel h forwardIp step searchMatchNb e = some (r, e') ∧ Kept j cap e e' ∧
      ∀ m, r = some m → forwardIp ≤ e'.ip ∧ m < e'.ip ∧ e'.ip < j.mflimitPlusOne ∧
        e'.ip ≤ m + LZ4_DISTANCE_MAX ∧ slice j.src e'.ip 4 = slice j.src m 4 ∧
        ∀ h, e'.hashTable h ≤ e'.ip
  | 0, _, _, _, _, _, hfuel, hfwd, _, _, _, _ => absurd hfwd (by omega)
  | fuel + 1, h, forwardIp, step, searchMatchNb, e, hfuel, hfwd, hstep, hnb, ht, hin => by
      have hmin := hv.minLength
      simp only [LZ4_minLength, Job.mflimitPlusOne, MFLIMIT] at hmin hfuel hfwd
      have hstep' : 1 ≤ searchMatchNb / 2 ^ LZ4_skipTrigger :=
        (Nat.one_le_div_iff (by decide)).mpr hnb
      rw [Job.findMatch]
      simp only
      split
      · exact ⟨none, _, rfl, ⟨rfl, rfl, rfl, hin.of_accesses rfl⟩, fun m hm => by cases hm⟩
      · rename_i hgo
        simp only [Job.mflimitPlusOne, MFLIMIT] at hgo
        -- the table with this position, and what is ahead of it hashed
        have hlog : ({ e with ip := forwardIp }.log [j.hashRead (forwardIp + step)]).Inside
            j.inputSize cap := (hin.of_accesses rfl).log fun a ha => by
          rw [List.mem_singleton.mp ha]
          exact hashRead_inside (by omega)
        have hput : (({ e with ip := forwardIp }.log
            [j.hashRead (forwardIp + step)]).putIndexOnHash j.tableType forwardIp h).Inside
              j.inputSize cap := hlog.of_accesses rfl
        have htable : ∀ h', (({ e with ip := forwardIp }.log
            [j.hashRead (forwardIp + step)]).putIndexOnHash j.tableType forwardIp h).hashTable h' <
              forwardIp + 1 :=
          putIndexOnHash_lt j.tableType (fun h' => Nat.lt_succ_of_lt (ht h')) (Nat.lt_succ_self _)
        have hrest := fun (e₁ : Encoder) (hin₁ : e₁.Inside j.inputSize cap)
            (ht₁ : ∀ h', e₁.hashTable h' < forwardIp + 1) =>
          findMatch_spec hv fuel (j.hashPosition (forwardIp + step)) (forwardIp + step)
            (searchMatchNb / 2 ^ LZ4_skipTrigger) (searchMatchNb + 1) (e := e₁)
            (by simp only [Job.mflimitPlusOne, MFLIMIT]; omega)
            (by simp only [Job.mflimitPlusOne, MFLIMIT]; omega) hstep' (by omega)
            (fun h' => lt_of_lt_of_le (ht₁ h') (by omega)) hin₁
        split
        · obtain ⟨r, e', hrun, hk, hfound⟩ := hrest _ hput htable
          refine ⟨r, e', hrun, ⟨hk.anchor_eq, hk.op_eq, hk.dst_eq, hk.inside⟩, fun m hm => ?_⟩
          obtain ⟨hle, hmatch⟩ := hfound m hm
          exact ⟨by omega, hmatch⟩
        · rename_i hnear
          have hmi := ht h
          have hreads : ∀ a ∈ [Access.src (e.hashTable h) 4, .src forwardIp 4],
              a.Inside j.inputSize cap := by
            intro a ha
            rcases List.mem_cons.mp ha with rfl | ha
            · show e.hashTable h + 4 ≤ j.inputSize
              omega
            · rw [List.mem_singleton.mp ha]
              show forwardIp + 4 ≤ j.inputSize
              omega
          split
          · rename_i hsame
            refine ⟨_, _, rfl, ⟨rfl, rfl, rfl, hput.log hreads⟩, fun m hm => ?_⟩
            obtain rfl := Option.some.inj hm
            have hfar : forwardIp ≤ e.hashTable h + LZ4_DISTANCE_MAX := by
              by_cases htype : j.tableType = .byU16
              · have hsize := hv.byU16 htype
                simp only [LZ4_64Klimit, MFLIMIT] at hsize
                simp only [LZ4_DISTANCE_MAX]
                omega
              · exact Nat.le_of_not_lt fun hlt => hnear ⟨htype, hlt⟩
            exact ⟨le_refl _, hmi, by simp only [Job.mflimitPlusOne, MFLIMIT]; show forwardIp < _; omega,
              hfar, (readLE_eq_iff.mp hsame).symm, fun h' => Nat.le_of_lt_succ (htable h')⟩
          · obtain ⟨r, e', hrun, hk, hfound⟩ := hrest _ (hput.log hreads) htable
            refine ⟨r, e', hrun, ⟨hk.anchor_eq, hk.op_eq, hk.dst_eq, hk.inside⟩, fun m hm => ?_⟩
            obtain ⟨hle, hmatch⟩ := hfound m hm
            exact ⟨by omega, hmatch⟩

/-! ## Literals -/

/-- How much of the input a round has in front of it. -/
def Round.rank (j : Job) : Round → Nat
  | .full _ => 0
  | .lastLiterals _ => 0
  | .nextMatch _ _ e => 2 * (j.inputSize - e.anchor)
  | .search _ e => 2 * (j.inputSize - e.anchor) + 1

theorem Match.of_puts {e₀ e : Encoder} {mtch : Nat} {xs : Bytes} (h : Match j e₀ mtch)
    (hputs : Puts j.inputSize cap e₀ xs e) : Match j e mtch where
  lt := by rw [hputs.ip_eq]; exact h.lt
  far := by rw [hputs.ip_eq]; exact h.far
  start := by rw [hputs.ip_eq]; exact h.start
  known := by rw [hputs.ip_eq, hputs.table_eq]; exact h.known

/-- The token and the bytes of the first length. -/
theorem token_puts {e : Encoder} {n : Nat} (h : e.Inside j.inputSize cap)
    (hroom : e.op + 1 + (lengthBytes n).length ≤ cap) :
    Puts j.inputSize cap e (UInt8.ofNat (16 * min n RUN_MASK) :: lengthBytes n)
      (if RUN_MASK ≤ n then (e.put [UInt8.ofNat (16 * RUN_MASK)]).putLength (n + 1) (n - RUN_MASK)
        else e.put [UInt8.ofNat (16 * n)]) := by
  have htoken : ∀ x : UInt8, Puts j.inputSize cap e [x] (e.put [x]) := fun x =>
    puts_put h [x] (by rw [List.length_singleton]; omega)
  split
  · rename_i hlong
    rw [lengthBytes_eq_runBytes hlong, length_runBytes] at hroom
    rw [Nat.min_eq_right hlong, lengthBytes_eq_runBytes hlong]
    refine (htoken _).trans (putLength_puts _ _ (by omega) (htoken _).inside ?_)
    show e.op + 1 + (n - RUN_MASK) / 255 + 1 ≤ cap
    omega
  · rename_i hshort
    rw [Nat.min_eq_left (by omega), lengthBytes_of_lt (by omega)]
    exact htoken _

theorem encodeLiterals_spec (hv : j.Valid cap) {e : Encoder} {mtch : Nat}
    (hw : Written j cap e e.op) (ha : e.anchor ≤ e.ip) (hm : Match j e mtch) :
    (j.encodeLiterals mtch e).Ok j cap ∧
      (j.encodeLiterals mtch e).rank j ≤ 2 * (j.inputSize - e.anchor) := by
  have hstart := hm.start
  have hsmall := hw.small
  simp only [MFLIMIT] at hstart
  rw [Job.encodeLiterals]
  simp only
  obtain ⟨n, hn⟩ := Nat.exists_eq_add_of_le ha
  have hlit : e.ip - e.anchor = n := by omega
  rw [hlit]
  split
  · rename_i hover
    exact ⟨⟨hw.inside, Job.limited_of_overflows hover⟩, Nat.zero_le _⟩
  · rename_i hover
    have hfree := eq_false_of_ne_true hover
    have hlen := length_lengthBytes n
    -- the check is for more than is written here
    have hfit : ∀ q, q ≤ e.op + 1 + n + 8 + n / 255 → q ≤ cap := fun q hq =>
      hv.fits.room hfree (by simp only [LASTLITERALS]; exact hq) (by omega)
    have htoken := token_puts hw.inside
      (show e.op + 1 + (lengthBytes n).length ≤ cap from hfit _ (by omega))
    generalize (if RUN_MASK ≤ n then
      (e.put [UInt8.ofNat (16 * RUN_MASK)]).putLength (n + 1) (n - RUN_MASK)
        else e.put [UInt8.ofNat (16 * n)]) = e₁ at htoken ⊢
    have hop := htoken.op_eq
    rw [List.length_cons] at hop
    have hlits := wildCopy8_puts j.src htoken.inside (show e₁.op + 8 ≤ cap from hfit _ (by omega))
      (show e₁.op + n + 7 ≤ cap from hfit _ (by omega))
      (show e₁.anchor + n + 8 ≤ j.inputSize by rw [htoken.anchor_eq]; omega)
    have hputs := htoken.trans hlits
    have hbytes : (UInt8.ofNat (16 * min n RUN_MASK) :: lengthBytes n) ++ slice j.src e₁.anchor n =
        literalBytes (slice j.src e.anchor (e.ip - e.anchor)) := by
      rw [hlit, htoken.anchor_eq, literalBytes, length_slice, List.cons_append]
    rw [hbytes] at hputs
    have hanchor := hputs.anchor_eq
    refine ⟨⟨e, rfl, hw, ha, hm.of_puts hputs, hputs, ?_⟩, ?_⟩
    · rw [hlits.op_eq, length_slice, hop]
      exact hfit _ (by omega)
    · exact (congrArg (fun a => 2 * (j.inputSize - a)) hanchor).le

theorem Written.of_eq {e e' : Encoder} {pos : Nat} (h : Written j cap e pos)
    (hin : e'.Inside j.inputSize cap) (hanchor : e'.anchor = e.anchor) (hdst : e'.dst = e.dst) :
    Written j cap e' pos where
  inside := hin
  anchor_le := by rw [hanchor]; exact h.anchor_le
  small := by rw [hanchor]; exact h.small
  sequences := by rw [hanchor, hdst]; exact h.sequences

/-- From the top of the main loop. -/
theorem searchRound_spec (hv : j.Valid cap) {e : Encoder} (hs : Searching j cap e) (forwardH : Nat) :
    ∃ r, j.searchRound forwardH e = some r ∧ r.Ok j cap ∧
      r.rank j ≤ 2 * (j.inputSize - e.anchor) := by
  have hip := hs.ip_le
  have hmin := hv.minLength
  simp only [LZ4_minLength, Job.mflimitPlusOne, MFLIMIT] at hip hmin
  obtain ⟨r, e₁, hrun, hk, hfound⟩ := findMatch_spec hv (j.inputSize + 1) forwardH e.ip 1
    (j.acceleration * 2 ^ LZ4_skipTrigger) (by simp only [Job.mflimitPlusOne, MFLIMIT]; omega)
    hs.ip_le (le_refl _) (Nat.le_mul_of_pos_left _ hv.acceleration) hs.table_lt hs.inside
  rw [Job.searchRound, hrun]
  cases r with
  | none =>
      refine ⟨.lastLiterals e₁, rfl, ?_, Nat.zero_le _⟩
      show Written j cap e₁ e₁.op
      rw [hk.op_eq]
      exact hs.toWritten.of_eq hk.inside hk.anchor_eq hk.dst_eq
  | some m =>
      obtain ⟨hle, hlt, hend, hfar, hsame, htable⟩ := hfound m rfl
      simp only [Job.mflimitPlusOne, MFLIMIT] at hend
      have hanchor := hs.anchor_le_ip
      obtain ⟨k, hk₁, hk₂, hk₃, heq, hin⟩ := catchUp_spec j.src cap e₁.anchor m e₁.ip []
        (by rw [hk.anchor_eq]; omega) hlt (show e₁.ip ≤ j.inputSize by omega)
        (fun a ha => absurd ha List.not_mem_nil)
      simp only
      generalize catchUp j.src e₁.anchor e₁.ip m [] = c at hk₁ hk₂ hk₃ heq hin ⊢
      have hmatch : Match j ({ e₁ with ip := c.1 }.log c.2.2) c.2.1 :=
        { lt := by show c.2.1 < c.1; omega
          far := by show c.1 ≤ c.2.1 + LZ4_DISTANCE_MAX; omega
          start := by show c.1 + MFLIMIT ≤ j.inputSize; simp only [MFLIMIT]; omega
          known := by
            refine ⟨k + MINMATCH, by omega, ?_, slice_eq_add heq ?_, fun h => ?_⟩
            · show c.1 + (k + MINMATCH) + LASTLITERALS ≤ j.inputSize
              simp only [MINMATCH, LASTLITERALS]
              omega
            · show slice j.src (c.1 + k) 4 = slice j.src (c.2.1 + k) 4
              rw [hk₁, hk₂, hsame]
            · have hentry := htable h
              show e₁.hashTable h + MINMATCH ≤ c.1 + (k + MINMATCH)
              omega }
      have hw : Written j cap ({ e₁ with ip := c.1 }.log c.2.2) e₁.op := by
        rw [hk.op_eq]
        exact hs.toWritten.of_eq (Inside.log (hk.inside.of_accesses rfl) hin) hk.anchor_eq hk.dst_eq
      obtain ⟨hok, hrank⟩ := encodeLiterals_spec hv hw hk₃ hmatch
      refine ⟨_, rfl, hok, le_trans hrank ?_⟩
      exact (congrArg (fun a => 2 * (j.inputSize - a)) hk.anchor_eq).le

/-! ## The match -/

/-- The first length and the second in one token. -/
theorem token_add (litLength matchCode : Nat) :
    UInt8.ofNat (16 * min litLength RUN_MASK) + UInt8.ofNat (min matchCode ML_MASK) =
      token litLength matchCode := by
  rw [token, UInt8.ofNat_add]

/-- Before a match that begins at the anchor is looked for. -/
structure Starting (j : Job) (cap : Nat) (e : Encoder) : Prop extends
    Written j cap e e.op where
  anchor_eq : e.anchor = e.ip
  ip_lt : e.ip < j.mflimitPlusOne
  table_le : ∀ h, e.hashTable h ≤ e.ip

theorem prepareNextLoop_spec (hv : j.Valid cap) {e : Encoder} (hs : Starting j cap e) :
    (j.prepareNextLoop e).Ok j cap ∧ (j.prepareNextLoop e).rank j ≤ 2 * (j.inputSize - e.anchor) + 1 := by
  have hmin := hv.minLength
  have hlt := hs.ip_lt
  simp only [LZ4_minLength, Job.mflimitPlusOne, MFLIMIT] at hmin hlt
  have hin : ({ e with ip := e.ip + 1 }.log [j.hashRead (e.ip + 1)]).Inside j.inputSize cap :=
    Inside.log (hs.inside.of_accesses rfl) fun a ha => by
      rw [List.mem_singleton.mp ha]
      exact hashRead_inside (by omega)
  exact ⟨{ toWritten := hs.toWritten.of_eq hin rfl rfl
           anchor_le_ip := hs.anchor_eq.le.trans (Nat.le_succ _)
           ip_le := hs.ip_lt
           table_lt := fun h => Nat.lt_succ_of_le (hs.table_le h) }, le_refl _⟩

theorem testNextPosition_spec (hv : j.Valid cap) {e : Encoder} (hs : Starting j cap e)
    (hroom : e.op + 6 ≤ cap) (ht : ∀ h, e.hashTable h < e.ip) :
    (j.testNextPosition e).Ok j cap ∧
      (j.testNextPosition e).rank j ≤ 2 * (j.inputSize - e.anchor) + 1 := by
  have hmin := hv.minLength
  have hlt := hs.ip_lt
  simp only [LZ4_minLength, Job.mflimitPlusOne, MFLIMIT] at hmin hlt
  have hmi := ht (j.hashPosition e.ip)
  have hin : ((e.log [j.hashRead e.ip]).putIndexOnHash j.tableType e.ip
      (j.hashPosition e.ip)).Inside j.inputSize cap :=
    Inside.of_accesses (hs.inside.log fun a ha => by
      rw [List.mem_singleton.mp ha]
      exact hashRead_inside (by omega)) rfl
  have htable := putIndexOnHash_lt j.tableType (e := e.log [j.hashRead e.ip])
    (h := j.hashPosition e.ip) (fun h => Nat.lt_succ_of_le (hs.table_le h)) (Nat.lt_succ_self e.ip)
  have hreads : ∀ a ∈ [Access.src (e.hashTable (j.hashPosition e.ip)) 4, .src e.ip 4],
      a.Inside j.inputSize cap := by
    intro a ha
    rcases List.mem_cons.mp ha with rfl | ha
    · show e.hashTable (j.hashPosition e.ip) + 4 ≤ j.inputSize
      omega
    · rw [List.mem_singleton.mp ha]
      show e.ip + 4 ≤ j.inputSize
      omega
  have hstart : ∀ e' : Encoder, e'.Inside j.inputSize cap → e'.anchor = e.anchor → e'.op = e.op →
      e'.dst = e.dst → e'.ip = e.ip → (∀ h, e'.hashTable h < e.ip + 1) → Starting j cap e' :=
    fun e' hin' hanchor hop hdst hip ht' =>
      { toWritten := hop ▸ hs.toWritten.of_eq hin' hanchor hdst
        anchor_eq := by rw [hanchor, hip, hs.anchor_eq]
        ip_lt := hip ▸ hs.ip_lt
        table_le := fun h => hip ▸ Nat.le_of_lt_succ (ht' h) }
  rw [Job.testNextPosition]
  simp only
  split
  · exact prepareNextLoop_spec hv (hstart _ hin rfl rfl rfl rfl htable)
  · rename_i hnear
    split
    · rename_i hsame
      have hs' := hstart _ (hin.log hreads) rfl rfl rfl rfl htable
      have hputs := puts_put hs'.inside [0] (show e.op + [(0 : UInt8)].length ≤ cap by
        rw [List.length_singleton]
        omega)
      have hfar : e.ip ≤ e.hashTable (j.hashPosition e.ip) + LZ4_DISTANCE_MAX := by
        by_cases htype : j.tableType = .byU16
        · have hsize := hv.byU16 htype
          simp only [LZ4_64Klimit, MFLIMIT] at hsize
          simp only [LZ4_DISTANCE_MAX]
          omega
        · exact Nat.le_of_not_lt fun hlt => hnear ⟨htype, hlt⟩
      -- no literals
      have hbytes : literalBytes (slice j.src e.anchor (e.ip - e.anchor)) = [0] := by
        rw [hs.anchor_eq, Nat.sub_self]
        rfl
      refine ⟨⟨_, rfl, hs'.toWritten, hs'.anchor_eq.le, ⟨hmi, hfar, ?_, 4, le_refl _, ?_, ?_, ?_⟩, ?_,
        ?_⟩, ?_⟩
      · show e.ip + MFLIMIT ≤ j.inputSize
        simp only [MFLIMIT]
        omega
      · show e.ip + 4 + LASTLITERALS ≤ j.inputSize
        simp only [LASTLITERALS]
        omega
      · exact (readLE_eq_iff.mp hsame).symm
      · exact fun h => Nat.add_le_add_right (Nat.le_of_lt_succ (htable h)) 4
      · exact hbytes.symm ▸ hputs
      · show e.op + 1 + 2 ≤ cap
        omega
      · exact Nat.le_succ _
    · exact prepareNextLoop_spec hv (hstart _ (hin.log hreads) rfl rfl rfl rfl htable)

/-- Behind a match that has been written. -/
theorem nextPosition_spec (hv : j.Valid cap) {e : Encoder}
    (hw : Written j cap { e with anchor := e.ip } e.op) (hroom : e.op + 6 ≤ cap) (hip : MINMATCH ≤ e.ip)
    (ht : ∀ h, e.hashTable h + MINMATCH ≤ e.ip) :
    (j.nextPosition e).Ok j cap ∧ (j.nextPosition e).rank j ≤ 2 * (j.inputSize - e.ip) + 1 := by
  have hmin := hv.minLength
  simp only [LZ4_minLength, MFLIMIT] at hmin
  simp only [MINMATCH] at hip
  rw [Job.nextPosition]
  simp only
  split
  · exact ⟨hw, Nat.zero_le _⟩
  · rename_i hgo
    have hlt := Nat.lt_of_not_le hgo
    simp only [Job.mflimitPlusOne, MFLIMIT] at hlt
    have hin : (j.putPosition { e with anchor := e.ip } (e.ip - 2)).Inside j.inputSize cap :=
      Inside.of_accesses (hw.inside.log fun a ha => by
        rw [List.mem_singleton.mp ha]
        exact hashRead_inside (p := e.ip - 2) (by omega)) rfl
    have htable : ∀ h, (j.putPosition { e with anchor := e.ip } (e.ip - 2)).hashTable h < e.ip :=
      putIndexOnHash_lt j.tableType (fun h => lt_of_lt_of_le (Nat.lt_add_of_pos_right (by decide)) (ht h))
        (by omega)
    exact testNextPosition_spec hv
      { toWritten := hw.of_eq hin rfl rfl
        anchor_eq := rfl
        ip_lt := Nat.lt_of_not_le hgo
        table_le := fun h => (htable h).le } hroom htable

/-- One sequence more. -/
theorem Written.sequence {e₀ e : Encoder} {s : Sequence} (h : Written j cap e₀ e₀.op)
    (hputs : Puts j.inputSize cap e₀ s.bytes e)
    (hlits : s.literals = slice j.src e₀.anchor s.literals.length) {end' : Nat}
    (hpos : 0 < s.offset) (hreach : s.offset ≤ e₀.anchor + s.literals.length)
    (hend : end' = e₀.anchor + s.literals.length + s.matchLength)
    (hmatch : slice j.src (e₀.anchor + s.literals.length) s.matchLength =
      slice j.src (e₀.anchor + s.literals.length - s.offset) s.matchLength)
    (hstart : e₀.anchor + s.literals.length + MFLIMIT ≤ j.inputSize)
    (hlast : end' + LASTLITERALS ≤ j.inputSize) :
    Written j cap { e with anchor := end' } e.op := by
  obtain ⟨ss, hbytes, htext, hends, -⟩ := h.sequences
  have hsmall := h.small
  have hlen : s.bytes.length = 1 + (lengthBytes s.literals.length).length + s.literals.length + 2 +
      (lengthBytes s.matchCode).length := by
    simp only [Sequence.bytes, List.length_cons, List.length_append, le16, List.length_nil]
    omega
  have hcode : s.matchLength = s.matchCode + 4 := rfl
  have hlit := length_lengthBytes s.literals.length
  have hmat := length_lengthBytes s.matchCode
  have htext' : s.text (slice j.src 0 e₀.anchor) = slice j.src 0 end' := by
    have happend : slice j.src 0 e₀.anchor ++ s.literals =
        slice j.src 0 (e₀.anchor + s.literals.length) := by
      rw [slice_add, Nat.zero_add, ← hlits]
    rw [Sequence.text, happend, backCopy_slice hpos hreach ?_, ← hend]
    intro i hi
    have hbyte := slice_eq_iff.mp hmatch i hi
    have hpos' : e₀.anchor + s.literals.length - s.offset + i =
        e₀.anchor + s.literals.length + i - s.offset := by omega
    rw [hbyte, hpos']
  have hlentext : (slice j.src 0 e₀.anchor).length = e₀.anchor := length_slice ..
  refine ⟨hputs.inside.of_accesses rfl, by show end' ≤ j.inputSize; omega, ?_, ss ++ [s], ?_, ?_, ?_,
    fun _ => hlast⟩
  · rw [hputs.op_eq]
    show e₀.op + s.bytes.length ≤ end' + end' / 255
    omega
  · have hbelow : slice e.dst 0 e₀.op = slice e₀.dst 0 e₀.op :=
      slice_congr fun i _ hi => hputs.below i (by omega)
    rw [hputs.op_eq, slice_add, Nat.zero_add, hbelow, hputs.written, hbytes, List.flatMap_append,
      List.flatMap_singleton]
  · rw [expand_append, htext, Option.bind_some, expand, if_pos (by rw [hlentext]; exact hreach),
      expand, htext']
  · refine ends_append htext hends ?_ (by rw [hlentext]; exact hstart)
    rw [htext', length_slice]
    exact hlast

theorem slice_eq_part {m m' : Mem} {p p' k : Nat} (h : slice m p k = slice m' p' k) {a b : Nat}
    (hab : a + b ≤ k) : slice m (p + a) b = slice m' (p' + a) b := by
  rw [slice_eq_iff] at h ⊢
  intro i hi
  rw [Nat.add_assoc, Nat.add_assoc]
  exact h (a + i) (by omega)

/-- From `_next_match` on. -/
theorem encodeMatch_spec (hv : j.Valid cap) {e₀ e : Encoder} {mtch : Nat}
    (hp : Pending j cap e₀ mtch e) :
    (j.encodeMatch e₀.op mtch e).Ok j cap ∧
      (j.encodeMatch e₀.op mtch e).rank j < 2 * (j.inputSize - e.anchor) := by
  obtain ⟨hw, hanchor, ⟨hlt, hfar, hstart, k, hk, hend, hsame, htable⟩, hputs, hroom⟩ := hp
  have hip := hputs.ip_eq
  simp only [MFLIMIT] at hstart
  simp only [MINMATCH, LASTLITERALS] at hk hend
  obtain ⟨hlong, hin⟩ := count_spec j.src cap (e.ip + MINMATCH) (mtch + MINMATCH)
    j.matchlimit (show j.matchlimit ≤ j.inputSize from Nat.sub_le _ _)
    (by simp only [Job.matchlimit, MINMATCH, LASTLITERALS]; omega) (by omega)
  have hknown : e.ip + MINMATCH + (k - MINMATCH) ≤ e.ip + MINMATCH + (count j.src (e.ip + MINMATCH)
      (mtch + MINMATCH) j.matchlimit).1 :=
    hlong.le (by simp only [Job.matchlimit, MINMATCH, LASTLITERALS]; omega)
      (slice_eq_part hsame (by simp only [MINMATCH]; omega))
  have hlimit := hlong.1.le_limit
  have hfour : slice j.src e.ip MINMATCH = slice j.src mtch MINMATCH :=
    slice_eq_part (a := 0) hsame (by simp only [MINMATCH]; omega)
  have hlongest := hlong.1.same
  rw [Nat.add_sub_cancel_left] at hlongest
  have hmatch := slice_eq_add hfour hlongest
  have hipput : (e.put (le16 (e.ip - mtch))).ip = e.ip := rfl
  rw [Job.encodeMatch]
  simp only [hipput]
  generalize count j.src (e.ip + MINMATCH) (mtch + MINMATCH) j.matchlimit = c at *
  simp only [Job.matchlimit, MINMATCH, LASTLITERALS] at hlimit hknown
  -- the literals and the offset, and behind them the position behind the match
  obtain ⟨n, hn⟩ := Nat.exists_eq_add_of_le hanchor
  have hlen : (slice j.src e₀.anchor (e₀.ip - e₀.anchor)).length = n := by
    rw [length_slice]
    omega
  have hop := hputs.op_eq
  have hsmall := hw.small
  have hlit := length_lengthBytes n
  have hmat := length_lengthBytes c.1
  rw [length_literalBytes, hlen] at hop
  have hoffset := puts_put hputs.inside _ (show e.op + (le16 (e.ip - mtch)).length ≤ cap from hroom)
  have hmoved := ((hputs.trans hoffset).move (e.ip + (c.1 + MINMATCH))).log hin
  have hhead := hmoved.head
  have hpatched := hmoved.patch (token n c.1) (by show e₀.op + 1 ≤ cap; omega)
  have hop₂ : (e.put (le16 (e.ip - mtch))).op = e.op + 2 := rfl
  split
  · rename_i hover
    refine ⟨⟨hmoved.inside, Job.limited_of_overflows hover⟩, ?_⟩
    show 0 < 2 * (j.inputSize - e.anchor)
    rw [hputs.anchor_eq]
    omega
  · rename_i hover
    have hfree := eq_false_of_ne_true hover
    have hfit : ∀ q, q ≤ e.op + 2 + 6 + (c.1 + 240) / 255 → q ≤ e.op + c.1 / 255 + 9 → q ≤ cap :=
      fun q hq hq' => hv.fits.room hfree hq (by omega)
    -- what the rest of either branch has to show
    have hrest : ∀ e' : Encoder, Puts j.inputSize cap (({ e.put (le16 (e.ip - mtch)) with
          ip := e.ip + (c.1 + MINMATCH) }.log c.2).store e₀.op [token n c.1])
          (lengthBytes c.1) e' →
        (j.nextPosition e').Ok j cap ∧ (j.nextPosition e').rank j < 2 * (j.inputSize - e.anchor) := by
      intro e' hlast
      have hall := hpatched.trans hlast
      have hip' : e'.ip = e.ip + (c.1 + MINMATCH) := hall.ip_eq
      have htable' : e'.hashTable = e.hashTable := hall.table_eq.trans hputs.table_eq.symm
      have hop' : e'.op = e.op + 2 + (lengthBytes c.1).length := hlast.op_eq
      have hanchor' := hputs.anchor_eq
      let s : Sequence := ⟨slice j.src e₀.anchor (e₀.ip - e₀.anchor), e.ip - mtch, c.1, by
        simp only [LZ4_DISTANCE_MAX] at hfar
        omega⟩
      have hbytes : s.bytes = token n c.1 :: (lengthBytes s.literals.length ++ s.literals ++
          le16 s.offset) ++ lengthBytes s.matchCode := by
        simp only [s, Sequence.bytes, hlen, List.cons_append, List.append_assoc]
      have hw₀ : Written j cap { e₀ with ip := e.ip + (c.1 + MINMATCH) } e₀.op :=
        hw.of_eq (hw.inside.of_accesses rfl) rfl rfl
      have hlits : s.literals.length = n := hlen
      have hcode : s.matchLength = c.1 + MINMATCH := rfl
      have hoff : s.offset = e.ip - mtch := rfl
      have hstart' : e₀.anchor + s.literals.length = e.ip := by
        rw [hlits, hip]
        exact hn.symm
      have hback : e.ip - s.offset = mtch := by
        rw [hoff]
        omega
      have hw' := hw₀.sequence (s := s) (e := e') (hbytes ▸ hall)
        (show s.literals = slice j.src e₀.anchor s.literals.length by
          rw [hlits]
          show slice j.src e₀.anchor (e₀.ip - e₀.anchor) = _
          congr 1
          omega)
        (show 0 < s.offset by rw [hoff]; omega)
        (show s.offset ≤ e₀.anchor + s.literals.length by rw [hstart', hoff]; omega)
        (show e.ip + (c.1 + MINMATCH) = e₀.anchor + s.literals.length + s.matchLength by
          rw [hstart', hcode])
        (by
          show slice j.src (e₀.anchor + s.literals.length) s.matchLength =
            slice j.src (e₀.anchor + s.literals.length - s.offset) s.matchLength
          rw [hstart', hback, hcode, Nat.add_comm c.1]
          exact hmatch)
        (by
          show e₀.anchor + s.literals.length + MFLIMIT ≤ j.inputSize
          rw [hstart']
          exact hstart)
        (by simp only [MINMATCH, LASTLITERALS]; omega)
      obtain ⟨hok, hrank⟩ := nextPosition_spec hv (hw'.of_eq hw'.inside hip' rfl)
        (show e'.op + 6 ≤ cap from hfit _ (by omega) (by omega))
        (by rw [hip']; omega)
        (fun h => by
          have hentry := htable h
          rw [htable', hip']
          simp only [MINMATCH] at *
          omega)
      refine ⟨hok, lt_of_le_of_lt hrank ?_⟩
      rw [hip', hanchor']
      simp only [MINMATCH]
      omega
    have htoken : ∀ code, min c.1 ML_MASK = code →
        ({ e.put (le16 (e.ip - mtch)) with ip := e.ip + (c.1 + MINMATCH) }.log c.2).dst e₀.op +
          UInt8.ofNat code = token n c.1 := by
      rintro code rfl
      rw [hlen] at hhead
      exact (congrArg (· + UInt8.ofNat (min c.1 ML_MASK)) hhead).trans (token_add n c.1)
    split
    · rename_i hcode
      rw [htoken _ (Nat.min_eq_right hcode)]
      refine hrest _ ?_
      rw [lengthBytes_eq_runBytes hcode]
      simp only [ML_MASK] at hcode
      exact putMatchLength_puts (c.1 + 1) (c.1 - ML_MASK) (by omega) hpatched.inside
        (show e.op + 2 + (c.1 - 15) / 255 + 4 ≤ cap from hfit _ (by omega) (by omega))
    · rename_i hcode
      rw [htoken _ (Nat.min_eq_left (by omega))]
      refine hrest _ ?_
      rw [lengthBytes_of_lt (Nat.lt_of_not_le hcode)]
      exact .refl hpatched.inside

/-! ## The last literals, and the whole run -/

/-- What a call returns: 0, which needs a limited output, or the size of a block
for the whole input. -/
def Result (j : Job) (cap : Nat) (r : Nat × Encoder) : Prop :=
  r.2.Inside j.inputSize cap ∧ (r.1 = 0 ∧ j.olimit ≠ none ∨
    0 < r.1 ∧ r.1 ≤ cap ∧ r.1 ≤ j.inputSize + j.inputSize / 255 + 16 ∧
      ∃ b : Block, slice r.2.dst 0 r.1 = b.bytes ∧ b.WellFormed (slice j.src 0 j.inputSize))

theorem encodeLastLiterals_spec (hfits : j.Fits cap) {e : Encoder} (hw : Written j cap e e.op) :
    Result j cap (j.encodeLastLiterals e) := by
  have hanchor := hw.anchor_le
  have hsmall := hw.small
  obtain ⟨n, hn⟩ := Nat.exists_eq_add_of_le hanchor
  have hrun : j.inputSize - e.anchor = n := by omega
  have hlit := length_lengthBytes n
  rw [Job.encodeLastLiterals]
  simp only [hrun]
  split
  · rename_i hover
    exact ⟨hw.inside, Or.inl ⟨rfl, Job.limited_of_overflows hover⟩⟩
  · rename_i hover
    have hfree := eq_false_of_ne_true hover
    have hfit : ∀ q, q ≤ e.op + n + 1 + (n + 255 - 15) / 255 → q ≤ cap := fun q hq =>
      hfits.room hfree hq (by omega)
    have htoken := token_puts hw.inside
      (show e.op + 1 + (lengthBytes n).length ≤ cap from hfit _ (by omega))
    generalize (if RUN_MASK ≤ n then
      (e.put [UInt8.ofNat (16 * RUN_MASK)]).putLength (n + 1) (n - RUN_MASK)
        else e.put [UInt8.ofNat (16 * n)]) = e₁ at htoken ⊢
    have hop := htoken.op_eq
    rw [List.length_cons] at hop
    have hlits := (puts_put htoken.inside (slice j.src e₁.anchor n) (by
      rw [length_slice]
      exact hfit _ (by omega))).log (l := [.src e₁.anchor n]) (fun a ha => by
        rw [List.mem_singleton.mp ha]
        show e₁.anchor + n ≤ j.inputSize
        rw [htoken.anchor_eq]
        omega)
    have hputs := htoken.trans hlits
    have hbytes : (UInt8.ofNat (16 * min n RUN_MASK) :: lengthBytes n) ++ slice j.src e₁.anchor n =
        lastBytes (slice j.src e.anchor n) 0 := by
      rw [htoken.anchor_eq, lastBytes, length_slice, token]
      rfl
    rw [hbytes] at hputs
    obtain ⟨ss, hss, htext, hends, hlast⟩ := hw.sequences
    have hsize := hputs.op_eq
    have hpos := length_lastBytes_pos (slice j.src e.anchor n) 0
    refine ⟨hputs.inside, Or.inr ⟨?_, ?_, ?_, ⟨ss, slice j.src e.anchor n, 0⟩, ?_, ?_, ?_, ?_⟩⟩
    · rw [hsize]
      omega
    · rw [hlits.op_eq, length_slice, hop]
      exact hfit _ (by omega)
    · rw [hlits.op_eq, length_slice, hop]
      omega
    · have hbelow : slice ((e₁.put (slice j.src e₁.anchor n)).log [.src e₁.anchor n]).dst 0 e.op =
          slice e.dst 0 e.op := slice_congr fun i _ hi => hputs.below i (by omega)
      rw [hsize, slice_add, Nat.zero_add, hputs.written, hbelow, hss]
      rfl
    · have hinput : j.inputSize = e.anchor + n := hn
      rw [Block.text, htext, hinput, slice_add, Nat.zero_add]
      rfl
    · rw [length_slice]
      exact hends
    · intro hne
      have hfive := hlast hne
      show LASTLITERALS ≤ (slice j.src e.anchor n).length
      rw [length_slice]
      omega

/-- The main loop ends with a result. -/
theorem rounds_spec (hv : j.Valid cap) : ∀ (fuel : Nat) {r : Round}, r.Ok j cap →
    r.rank j < fuel → ∃ res, j.rounds fuel r = some res ∧ Result j cap res
  | 0, _, _, hrank => absurd hrank (Nat.not_lt_zero _)
  | _ + 1, .full e, hok, _ => ⟨(0, e), rfl, hok.1, Or.inl ⟨rfl, hok.2⟩⟩
  | _ + 1, .lastLiterals e, hok, _ => ⟨_, rfl, encodeLastLiterals_spec hv.fits hok⟩
  | fuel + 1, .nextMatch token mtch e, hok, hrank => by
      obtain ⟨e₀, rfl, hp⟩ := hok
      obtain ⟨hok', hrank'⟩ := encodeMatch_spec hv hp
      exact rounds_spec hv fuel hok' (lt_of_lt_of_le hrank' (Nat.le_of_lt_succ hrank))
  | fuel + 1, .search forwardH e, hok, hrank => by
      obtain ⟨r, hrun, hok', hrank'⟩ := searchRound_spec hv hok forwardH
      obtain ⟨res, hres, hresult⟩ := rounds_spec hv fuel hok'
        (lt_of_le_of_lt hrank' (Nat.lt_of_succ_lt_succ hrank))
      refine ⟨res, ?_, hresult⟩
      rw [Job.rounds, hrun]
      exact hres

/-- Before anything was written. -/
theorem written_start (j : Job) (cap : Nat) (dst : Mem) :
    Written j cap ⟨0, 0, 0, fun _ => 0, dst, []⟩ 0 where
  inside := fun _ ha => absurd ha List.not_mem_nil
  anchor_le := Nat.zero_le _
  small := Nat.zero_le _
  sequences := ⟨[], rfl, rfl, trivial, fun h => absurd rfl h⟩

theorem compressGeneric_spec (hfits : j.Fits cap) (hmax : j.inputSize ≤ LZ4_MAX_INPUT_SIZE)
    (htype : j.tableType = .byU16 → j.inputSize < LZ4_64Klimit) (hacc : 1 ≤ j.acceleration)
    (dst : Mem) : ∃ res, j.compressGeneric dst = some res ∧ Result j cap res := by
  have hstart := written_start j cap dst
  rw [Job.compressGeneric]
  rw [if_neg (Nat.not_lt.mpr hmax)]
  split
  · rename_i hzero
    split
    · rename_i hover
      exact ⟨_, rfl, hstart.inside, Or.inl ⟨rfl, Job.limited_of_overflows hover⟩⟩
    · rename_i hover
      have hcap : 1 ≤ cap := hfits.room (eq_false_of_ne_true hover) (le_refl 1) (by omega)
      refine ⟨_, rfl, hstart.inside.store hcap, Or.inr
        ⟨Nat.one_pos, hcap, Nat.succ_le_of_lt (Nat.succ_pos _), ⟨[], [], 0⟩, rfl, ?_⟩⟩
      rw [hzero]
      exact ⟨rfl, trivial, fun h => absurd rfl h⟩
  · rename_i hpos
    rw [Job.compressGenericValidated]
    simp only
    rw [if_neg fun h => absurd (htype h.1) (Nat.not_lt.mpr h.2)]
    split
    · exact ⟨_, rfl, encodeLastLiterals_spec hfits hstart⟩
    · rename_i hlong
      have hmin := Nat.le_of_not_lt hlong
      have hv : j.Valid cap := ⟨hmin, htype, hacc, hfits⟩
      simp only [LZ4_minLength, MFLIMIT] at hmin
      -- the first byte is entered in the table
      have hin : (j.putPosition ⟨0, 0, 0, fun _ => 0, dst, []⟩ 0).Inside j.inputSize cap :=
        Inside.of_accesses (hstart.inside.log fun a ha => by
          rw [List.mem_singleton.mp ha]
          exact hashRead_inside (by omega)) rfl
      have hin' : ({ j.putPosition ⟨0, 0, 0, fun _ => 0, dst, []⟩ 0 with
          ip := 0 + 1 }.log [j.hashRead (0 + 1)]).Inside j.inputSize cap :=
        Inside.log (hin.of_accesses rfl) fun a ha => by
          rw [List.mem_singleton.mp ha]
          exact hashRead_inside (by omega)
      refine rounds_spec hv _ ?_ (Nat.lt_succ_self _)
      exact { toWritten := hstart.of_eq hin' rfl rfl
              anchor_le_ip := Nat.zero_le _
              ip_le := by
                show 1 ≤ j.mflimitPlusOne
                simp only [Job.mflimitPlusOne]
                omega
              table_lt := putIndexOnHash_lt j.tableType (fun _ => Nat.one_pos) Nat.one_pos }

/-- What `LZ4_compress_fast` returns: 0 for an output or an input that does not fit,
or the size of a block for the input. -/
theorem compressFast_spec (source dest : Mem) (inputSize maxOutputSize : Nat) (acceleration : Int) :
    ∃ (size : Nat) (e : Encoder),
      compressFast source dest inputSize maxOutputSize acceleration = some (size, e) ∧
        e.Inside inputSize maxOutputSize ∧
        (size = 0 ∧ (inputSize ≤ LZ4_MAX_INPUT_SIZE → maxOutputSize < compressBound inputSize) ∨
          0 < size ∧ size ≤ maxOutputSize ∧ size ≤ compressBound inputSize ∧
            ∃ b : Block, slice e.dst 0 size = b.bytes ∧
              b.WellFormed (slice source 0 inputSize)) := by
  have hacc : 1 ≤ (if LZ4_ACCELERATION_MAX <
      (if acceleration < 1 then LZ4_ACCELERATION_DEFAULT else acceleration) then
      LZ4_ACCELERATION_MAX
    else if acceleration < 1 then LZ4_ACCELERATION_DEFAULT else acceleration).toNat := by
    simp only [LZ4_ACCELERATION_MAX, LZ4_ACCELERATION_DEFAULT]
    split <;> split <;> omega
  have htype : (if inputSize < LZ4_64Klimit then TableType.byU16 else .byU32) = .byU16 →
      inputSize < LZ4_64Klimit := by
    intro h
    by_contra hge
    rw [if_neg hge] at h
    cases h
  rw [compressFast]
  generalize (if inputSize < LZ4_64Klimit then TableType.byU16 else .byU32) = tableType at htype ⊢
  generalize (if LZ4_ACCELERATION_MAX <
      (if acceleration < 1 then LZ4_ACCELERATION_DEFAULT else acceleration) then
      LZ4_ACCELERATION_MAX
    else if acceleration < 1 then LZ4_ACCELERATION_DEFAULT else acceleration).toNat = acc at hacc ⊢
  by_cases hmax : inputSize ≤ LZ4_MAX_INPUT_SIZE
  · have hbound' : compressBound inputSize = inputSize + inputSize / 255 + 16 :=
      if_neg (Nat.not_lt.mpr hmax)
    rw [hbound']
    split
    · rename_i hbound
      obtain ⟨⟨size, e⟩, hrun, hin, hres⟩ := compressGeneric_spec
        (j := ⟨source, inputSize, none, tableType, acc⟩) hbound hmax htype hacc dest
      exact ⟨size, e, hrun, hin, Or.inr (hres.resolve_left fun h => h.2 rfl)⟩
    · rename_i hbound
      obtain ⟨⟨size, e⟩, hrun, hin, hres⟩ := compressGeneric_spec
        (j := ⟨source, inputSize, some maxOutputSize, tableType, acc⟩)
        (show Job.Fits _ maxOutputSize from rfl) hmax htype hacc dest
      exact ⟨size, e, hrun, hin, hres.imp_left fun h => ⟨h.1, fun _ => Nat.lt_of_not_le hbound⟩⟩
  · have hlarge := Nat.lt_of_not_le hmax
    refine ⟨0, ⟨0, 0, 0, fun _ => 0, dest, []⟩, ?_, fun _ ha => absurd ha List.not_mem_nil,
      Or.inl ⟨rfl, fun h => absurd h hmax⟩⟩
    simp only [Job.compressGeneric, if_pos hlarge, ite_self]

end ShieldReduce.Lz4

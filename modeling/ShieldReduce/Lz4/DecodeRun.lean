import ShieldReduce.Lz4.Decode

/-!
# Runs of the decoder

Whatever its input and however small its output, `LZ4_decompress_safe`
returns, stays inside both buffers, and where it returns a size it has
written the text of a block that is its input. A block that ends as the
format asks for is decoded wherever its text has room.
-/

namespace ShieldReduce.Lz4

open ByteLib

namespace Decoder

variable {src : Mem} {iend oend : Nat}

/-! ## What a run returns -/

/-- What is ahead of the decoder. -/
def input (src : Mem) (iend : Nat) (d : Decoder) : Bytes := slice src d.ip (iend - d.ip)

/-- From `d₀` on the input is a block, and `d` holds its text behind that of `d₀`. -/
def Reads (src : Mem) (iend : Nat) (d₀ d : Decoder) : Prop :=
  ∃ (ss : List Sequence) (literals : Bytes) (spare : Nat),
    d₀.input src iend = ss.flatMap Sequence.bytes ++ lastBytes literals spare ∧
      (expand ss d₀.text).map (· ++ literals) = some d.text

theorem Reads.cons {d₀ d₁ d : Decoder} {s : Sequence} (h : Decoded src d₀ d₁ s)
    (hlt : d₀.ip < d₁.ip) (hle : d₁.ip ≤ iend) (hrest : Reads src iend d₁ d) :
    Reads src iend d₀ d := by
  obtain ⟨ss, literals, spare, hbytes, htext⟩ := hrest
  refine ⟨s :: ss, literals, spare, ?_, ?_⟩
  · rw [input] at hbytes
    rw [input, slice_split hlt.le hle, h.bytes, hbytes, List.flatMap_cons, List.append_assoc]
  · have hreach : s.offset ≤ d₀.text.length + s.literals.length := h.inReach
    rw [expand, if_pos hreach, ← h.text]
    exact htext

/-- The loops end, inside the buffers, with an error or with the text of what
was ahead. -/
theorem loop_sound (src : Mem) {iend oend : Nat} :
    ∀ (fuel : Nat) (fast : Bool) {d : Decoder}, iend < d.ip + fuel →
    d.Inside iend oend → d.ip < iend → (fast = true → d.op + FASTLOOP_SAFE_DISTANCE ≤ oend) →
    ∃ r d', loop src iend oend fuel fast d = some (r, d') ∧ d'.Inside iend oend ∧
      (r < 0 ∨ r = d'.op ∧ d'.op ≤ oend ∧ (iend ≤ MAX_READ → Reads src iend d d'))
  | 0, _, d, hfuel, _, hip, _ => absurd hip (by omega)
  | fuel + 1, fast, d, hfuel, h, hip, hfast => by
      have hstep := step_sound src h hip hfast
      rw [loop]
      cases houtcome : d.step src iend oend fast with
      | error d' =>
          rw [houtcome] at hstep
          exact ⟨_, d', rfl, hstep, Or.inl (by omega)⟩
      | done d' =>
          rw [houtcome] at hstep
          obtain ⟨hin, hop, hread⟩ := hstep
          refine ⟨_, d', rfl, hin, Or.inr ⟨rfl, hop, fun hsmall => ?_⟩⟩
          obtain ⟨literals, spare, hbytes, htext⟩ := hread hsmall
          exact ⟨[], literals, spare, hbytes, congrArg some htext.symm⟩
      | next fast' d₁ =>
          rw [houtcome] at hstep
          obtain ⟨hin, hlt, hle, -, hfast', hread⟩ := hstep
          obtain ⟨r, d', hrun, hin', hres⟩ := loop_sound src fuel fast' (by omega) hin hle hfast'
          refine ⟨r, d', hrun, hin', hres.imp_right fun hok => ⟨hok.1, hok.2.1, fun hsmall => ?_⟩⟩
          obtain ⟨s, hs⟩ := hread hsmall
          exact .cons hs hlt hle.le (hok.2.2 hsmall)

/-! ## Blocks that end as they should -/

theorem input_append {d : Decoder} {xs ys : Bytes} (h : d.input src iend = xs ++ ys) :
    slice src d.ip xs.length = xs ∧ slice src (d.ip + xs.length) ys.length = ys ∧
      (d.ip ≤ iend → iend = d.ip + xs.length + ys.length) := by
  have hlen := congrArg List.length h
  rw [input, length_slice, List.length_append] at hlen
  rw [input, hlen, slice_add] at h
  obtain ⟨hxs, hys⟩ := List.append_inj h (length_slice ..)
  exact ⟨hxs, hys, fun hle => by omega⟩

/-- How `read_variable_length` reads the bytes of a length. -/
theorem readVariableLength_run (iend slack : Nat) {b : UInt8} (hb : b.toNat < 255) :
    ∀ {k : Nat} (fuel length : Nat) {d : Decoder}, slice src d.ip (k + 1) = List.replicate k 255 ++ [b] →
      d.ip + k + slack < iend → k < fuel → length + (255 * k + b.toNat) < 2 ^ 32 →
      (readVariableLength src iend slack fuel length d).1 = length + (255 * k + b.toNat) ∧
        (d.ip + k + 1 + slack < iend →
          (readVariableLength src iend slack fuel length d).2.1 = false) ∧
        (readVariableLength src iend slack fuel length d).2.2.ip = d.ip + k + 1 ∧
        (readVariableLength src iend slack fuel length d).2.2.op = d.op
  | 0, fuel + 1, length, d, hbytes, hip, _, hsmall => by
      have hs : src d.ip = b := List.head_eq_of_cons_eq hbytes
      have hne : b ≠ 255 := by
        rintro rfl
        exact absurd hb (by decide)
      have hmod : (length + b.toNat) % 2 ^ 32 = length + (255 * 0 + b.toNat) := by omega
      have hnext : d.next.ip = d.ip + 1 := rfl
      simp only [readVariableLength, hs, if_neg hne, hmod]
      split
      · exact ⟨rfl, fun hlt => absurd hlt (by omega), rfl, rfl⟩
      · exact ⟨rfl, fun _ => rfl, rfl, rfl⟩
  | k + 1, fuel + 1, length, d, hbytes, hip, hfuel, hsmall => by
      rw [List.replicate_succ, List.cons_append, Nat.add_comm (k + 1) 1, slice_add] at hbytes
      obtain ⟨hs, hbytes⟩ := List.cons.inj hbytes
      have hs' : src d.ip = 255 := hs
      have hmod : (length + (255 : UInt8).toNat) % 2 ^ 32 = length + 255 := by
        have h255 : (255 : UInt8).toNat = 255 := rfl
        omega
      have hgo : ¬ iend ≤ d.next.ip + slack := by
        show ¬ iend ≤ d.ip + 1 + slack
        omega
      simp only [readVariableLength, hs', if_neg hgo, if_true, hmod]
      have ih := readVariableLength_run iend slack hb (k := k) fuel (length + 255)
        (d := d.next) hbytes (by show d.ip + 1 + k + slack < iend; omega)
        (by omega) (by omega)
      have hnext : d.next.ip = d.ip + 1 := rfl
      have hop : d.next.op = d.op := rfl
      rw [hnext, hop] at ih
      refine ⟨by omega, fun hlt => ih.2.1 (by omega), by omega, ih.2.2.2⟩

/-- The input behind what was read. -/
theorem input_advance {d : Decoder} {xs ys : Bytes} (d' : Decoder) (h : d.input src iend = xs ++ ys)
    (hle : d.ip ≤ iend) (hip : d'.ip = d.ip + xs.length) :
    d'.input src iend = ys ∧ d'.ip ≤ iend := by
  obtain ⟨-, hys, hiend⟩ := input_append h
  have hiend := hiend hle
  have hlen : iend - d'.ip = ys.length := by omega
  rw [input, hlen, hip]
  exact ⟨hys, by omega⟩

/-- No error. -/
def Fine : Outcome → Prop
  | .error _ => False
  | _ => True

/-- What the format asks for behind a sequence that starts with `op` bytes written. -/
structure Coming (iend oend op : Nat) (s : Sequence) (rest : Bytes) : Prop where
  small : iend ≤ MAX_READ
  rest_le : LASTLITERALS + 1 ≤ rest.length
  inReach : s.offset ≤ op + s.literals.length
  matchStart : op + s.literals.length + MFLIMIT ≤ oend
  matchEnd : op + s.literals.length + s.matchLength + LASTLITERALS ≤ oend

variable {d : Decoder} {s : Sequence} {rest : Bytes} {op : Nat}

theorem fine_safeMatchCopy {offset length : Nat} (hreach : offset ≤ d.op)
    (hroom : d.op + length + LASTLITERALS ≤ oend) : Fine (d.safeMatchCopy oend offset length) := by
  unfold safeMatchCopy
  simp only
  rw [if_neg (by omega)]
  split
  · rw [if_neg (by omega)]
    split <;> trivial
  · trivial

/-- The length of a match is ahead. -/
theorem matchCode_run (hc : Coming iend oend op s rest) (hle : d.ip ≤ iend)
    (hinput : d.input src iend = lengthBytes s.matchCode ++ rest) (hlong : ML_MASK ≤ s.matchCode) :
    (readVariableLength src iend (LASTLITERALS - 1) iend 0 d).2.1 = false ∧
      ML_MASK + (readVariableLength src iend (LASTLITERALS - 1) iend 0 d).1 + MINMATCH =
        s.matchLength ∧
      (readVariableLength src iend (LASTLITERALS - 1) iend 0 d).2.2.op = d.op := by
  obtain ⟨k, b, hbytes, hb, hcode⟩ := lengthBytes_of_le hlong
  obtain ⟨hread, -, hiend⟩ := input_append hinput
  have hiend := hiend hle
  have hlen : (lengthBytes s.matchCode).length = k + 1 := by rw [hbytes]; simp
  rw [hlen] at hread hiend
  rw [hbytes] at hread
  have hrest := hc.rest_le
  have hsmall := hc.small
  simp only [LASTLITERALS, MAX_READ] at hrest hsmall
  obtain ⟨hvalue, hnoerr, -, hop⟩ := readVariableLength_run iend (LASTLITERALS - 1) hb iend 0 hread
    (by simp only [LASTLITERALS]; omega) (by omega) (by omega)
  refine ⟨hnoerr (by simp only [LASTLITERALS]; omega), ?_, hop⟩
  rw [hvalue, Sequence.matchLength, hcode, Nat.zero_add]
  rfl

theorem fine_copyMatch (hc : Coming iend oend op s rest) (hop : d.op = op + s.literals.length)
    (hle : d.ip ≤ iend) (hinput : d.input src iend = lengthBytes s.matchCode ++ rest) :
    Fine (d.copyMatch src iend oend s.offset (min s.matchCode ML_MASK)) := by
  have hreach : s.offset ≤ d.op := hop ▸ hc.inReach
  have hroom : d.op + s.matchLength + LASTLITERALS ≤ oend := hop ▸ hc.matchEnd
  unfold copyMatch
  by_cases hlong : ML_MASK ≤ s.matchCode
  · obtain ⟨hnoerr, hlength, hop'⟩ := matchCode_run hc hle hinput hlong
    rw [Nat.min_eq_right hlong, if_pos rfl]
    simp only [hnoerr, hlength]
    exact fine_safeMatchCopy (by rwa [hop']) (by rwa [hop'])
  · rw [Nat.min_eq_left (by omega), if_neg (by omega)]
    exact fine_safeMatchCopy hreach hroom

/-- The offset is ahead. -/
theorem readOffset_run (hle : d.ip ≤ iend)
    (hinput : d.input src iend = le16 s.offset ++ (lengthBytes s.matchCode ++ rest)) :
    (d.readOffset src).1 = s.offset ∧ (d.readOffset src).2.ip ≤ iend ∧
      (d.readOffset src).2.input src iend = lengthBytes s.matchCode ++ rest := by
  obtain ⟨hread, -, -⟩ := input_append hinput
  obtain ⟨hahead, hle'⟩ := input_advance (d.readOffset src).2 hinput hle rfl
  refine ⟨?_, hle', hahead⟩
  obtain ⟨h₀, htail⟩ := List.cons.inj hread
  have h₁ := List.head_eq_of_cons_eq htail
  have hfst : (d.readOffset src).1 = ofLe16 (src d.ip) (src (d.ip + 1)) := rfl
  have h₀' : src d.ip = UInt8.ofNat s.offset := h₀
  have h₁' : src (d.ip + 1) = UInt8.ofNat (s.offset / 256) := h₁
  rw [hfst, h₀', h₁', ofLe16_le16 s.offset_lt]

theorem fine_fastMatch (hc : Coming iend oend op s rest) (hop : d.op = op + s.literals.length)
    (hle : d.ip ≤ iend)
    (hinput : d.input src iend = le16 s.offset ++ (lengthBytes s.matchCode ++ rest)) :
    Fine (d.fastMatch src iend oend (token s.literals.length s.matchCode)) := by
  obtain ⟨hoffset, hle', hahead⟩ := readOffset_run hle hinput
  have hop' : (d.readOffset src).2.op = d.op := rfl
  have hreach : s.offset ≤ d.op := hop ▸ hc.inReach
  have hroom : d.op + s.matchLength + LASTLITERALS ≤ oend := hop ▸ hc.matchEnd
  unfold fastMatch
  simp only [token_mod, hoffset, hop']
  by_cases hlong : ML_MASK ≤ s.matchCode
  · obtain ⟨hnoerr, hlength, hop''⟩ := matchCode_run hc hle' hahead hlong
    rw [hop'] at hop''
    rw [Nat.min_eq_right hlong, if_pos rfl, if_neg (by omega)]
    simp only [hnoerr, hlength]
    rw [if_neg Bool.false_ne_true]
    split
    · exact fine_safeMatchCopy (by rwa [hop'']) (by rwa [hop''])
    · split <;> trivial
  · rw [Nat.min_eq_left (by omega), if_neg (by omega)]
    split
    · exact fine_safeMatchCopy hreach hroom
    · split
      · trivial
      · rw [if_neg (by omega)]
        split <;> trivial

/-! ### Literals -/

/-- A token and the length of the literals are ahead, and the literals. -/
theorem literals_run {litLength matchCode : Nat} {ys : Bytes} (hsmall : iend ≤ MAX_READ)
    (hle : d.ip ≤ iend)
    (hinput : d.input src iend = token litLength matchCode :: (lengthBytes litLength ++ ys))
    (hys : litLength ≤ ys.length) :
    src d.ip = token litLength matchCode ∧
      (litLength < RUN_MASK → d.next.input src iend = ys ∧ d.next.ip ≤ iend) ∧
      (RUN_MASK ≤ litLength → ¬ iend ≤ d.next.ip + RUN_MASK ∧
        RUN_MASK + (readVariableLength src iend RUN_MASK iend 0 d.next).1 = litLength ∧
        (readVariableLength src iend RUN_MASK iend 0 d.next).2.2.op = d.op ∧
        (readVariableLength src iend RUN_MASK iend 0 d.next).2.2.ip ≤ iend ∧
        (readVariableLength src iend RUN_MASK iend 0 d.next).2.2.input src iend = ys) := by
  have hcons : d.input src iend = [token litLength matchCode] ++ (lengthBytes litLength ++ ys) :=
    hinput
  obtain ⟨htoken, -, -⟩ := input_append hcons
  obtain ⟨hnext, hle'⟩ := input_advance d.next hcons hle rfl
  refine ⟨List.head_eq_of_cons_eq htoken, fun hshort => ?_, fun hlong => ?_⟩
  · rw [lengthBytes_of_lt hshort] at hnext
    exact ⟨hnext, hle'⟩
  · obtain ⟨k, b, hbytes, hb, hlit⟩ := lengthBytes_of_le hlong
    obtain ⟨hread, -, hiend⟩ := input_append hnext
    have hiend := hiend hle'
    have hlen : (lengthBytes litLength).length = k + 1 := by rw [hbytes]; simp
    rw [hlen] at hread hiend
    rw [hbytes] at hread
    simp only [MAX_READ, RUN_MASK] at *
    obtain ⟨hvalue, -, hip, hop⟩ := readVariableLength_run iend 15 hb iend 0 hread (by omega)
      (by omega) (by omega)
    obtain ⟨hahead, hle''⟩ := input_advance
      (readVariableLength src iend 15 iend 0 d.next).2.2 hnext hle' (by rw [hip, hlen]; omega)
    exact ⟨by omega, by omega, hop, hle'', hahead⟩

/-- The literals of a sequence are ahead. -/
theorem fine_safeLiteralCopy (hc : Coming iend oend op s rest) (hop : d.op = op) (hle : d.ip ≤ iend)
    (hinput : d.input src iend =
      s.literals ++ (le16 s.offset ++ (lengthBytes s.matchCode ++ rest))) :
    Fine (d.safeLiteralCopy src iend oend (token s.literals.length s.matchCode)
      s.literals.length) := by
  subst hop
  obtain ⟨-, -, hiend⟩ := input_append hinput
  have hiend := hiend hle
  have hrest := hc.rest_le
  have hstart := hc.matchStart
  have htwo : (le16 s.offset).length = 2 := rfl
  rw [List.length_append, List.length_append, htwo] at hiend
  unfold safeLiteralCopy
  simp only [token_mod]
  rw [if_neg (by omega)]
  have hip := (wildCopy8Src_pos src d d.op d.ip (d.op + s.literals.length)).1
  obtain ⟨hahead, hle'⟩ := input_advance
    { d.wildCopy8Src src d.op d.ip (d.op + s.literals.length) with
      ip := (d.wildCopy8Src src d.op d.ip (d.op + s.literals.length)).ip + s.literals.length
      op := d.op + s.literals.length } hinput hle (by rw [hip])
  obtain ⟨hoffset, hle'', hahead'⟩ := readOffset_run hle' hahead
  rw [hoffset]
  exact fine_copyMatch hc rfl hle'' hahead'

/-! ### Rounds -/

theorem bytes_append (s : Sequence) (rest : Bytes) : s.bytes ++ rest =
    token s.literals.length s.matchCode :: (lengthBytes s.literals.length ++
      (s.literals ++ (le16 s.offset ++ (lengthBytes s.matchCode ++ rest)))) := by
  simp only [Sequence.bytes, List.cons_append, List.append_assoc]

theorem fine_safeStep (hc : Coming iend oend d.op s rest) (hle : d.ip ≤ iend)
    (hinput : d.input src iend = s.bytes ++ rest) : Fine (d.safeStep src iend oend) := by
  rw [bytes_append] at hinput
  obtain ⟨htoken, hshort, hlong⟩ := literals_run hc.small hle hinput (by simp)
  unfold safeStep
  simp only [htoken, token_div, token_mod]
  by_cases hlit : RUN_MASK ≤ s.literals.length
  · obtain ⟨hroom, hlength, hop, hle', hahead⟩ := hlong hlit
    rw [Nat.min_eq_right hlit, if_neg (fun h => h.1 rfl), if_pos rfl, if_neg hroom, hlength]
    exact fine_safeLiteralCopy hc hop hle' hahead
  · obtain ⟨hahead, hle'⟩ := hshort (Nat.lt_of_not_le hlit)
    rw [Nat.min_eq_left (by omega)]
    split
    · obtain ⟨hahead', hle''⟩ := input_advance
        { d.next.copySrc src d.next.op d.next.ip 16 with
          ip := d.next.ip + s.literals.length
          op := d.next.op + s.literals.length } hahead hle' rfl
      obtain ⟨hoffset, hle''', hahead''⟩ := readOffset_run hle'' hahead'
      split
      · trivial
      · exact hoffset ▸ fine_copyMatch hc rfl hle''' hahead''
    · rw [if_neg (by omega)]
      exact fine_safeLiteralCopy hc rfl hle' hahead

theorem fine_fastStep (hc : Coming iend oend d.op s rest) (hle : d.ip ≤ iend)
    (hinput : d.input src iend = s.bytes ++ rest) : Fine (d.fastStep src iend oend) := by
  rw [bytes_append] at hinput
  obtain ⟨htoken, hshort, hlong⟩ := literals_run hc.small hle hinput (by simp)
  unfold fastStep
  simp only [htoken, token_div]
  by_cases hlit : RUN_MASK ≤ s.literals.length
  · obtain ⟨hroom, hlength, hop, hle', hahead⟩ := hlong hlit
    rw [Nat.min_eq_right hlit, if_pos rfl, if_neg hroom, hlength]
    split
    · exact fine_safeLiteralCopy hc hop hle' hahead
    · generalize readVariableLength src iend RUN_MASK iend 0 d.next = r at hop hle' hahead
      have hip := (wildCopy32Src_pos src r.2.2 r.2.2.op r.2.2.ip
        (r.2.2.op + s.literals.length)).1
      obtain ⟨hahead', hle''⟩ := input_advance
        { r.2.2.wildCopy32Src src r.2.2.op r.2.2.ip (r.2.2.op + s.literals.length) with
          ip := r.2.2.ip + s.literals.length
          op := r.2.2.op + s.literals.length } hahead hle' rfl
      exact fine_fastMatch hc (congrArg (· + s.literals.length) hop) hle'' hahead'
  · obtain ⟨hahead, hle'⟩ := hshort (Nat.lt_of_not_le hlit)
    rw [Nat.min_eq_left (by omega), if_neg (by omega)]
    split
    · exact fine_safeLiteralCopy hc rfl hle' hahead
    · obtain ⟨hahead', hle''⟩ := input_advance
        { d.next.copySrc src d.next.op d.next.ip 16 with
          ip := d.next.ip + s.literals.length
          op := d.next.op + s.literals.length } hahead hle' rfl
      exact fine_fastMatch hc rfl hle'' hahead'

/-- The last literals are no sequence. -/
theorem lastBytes_ne (s : Sequence) (rest literals : Bytes) (spare : Nat) :
    s.bytes ++ rest ≠ lastBytes literals spare := by
  intro h
  rw [bytes_append, lastBytes] at h
  obtain ⟨htoken, hbytes⟩ := List.cons.inj h
  have hcode := congrArg (fun t : UInt8 => t.toNat / 16) htoken
  simp only [token_div] at hcode
  have hread := congrArg (readLength (min s.literals.length RUN_MASK)) hbytes
  rw [readLength_lengthBytes, hcode, readLength_lengthBytes] at hread
  obtain ⟨hlen, hrest⟩ := Prod.mk.injEq .. |>.mp hread
  have hlen' := congrArg List.length hrest
  simp only [List.length_append, le16, List.length_cons] at hlen'
  omega

/-- Literals up to the end of the input. -/
theorem safeLiteralCopy_last {t : UInt8} {length : Nat} (hip : d.ip + length = iend)
    (hop : d.op + length ≤ oend) : ∃ d', d.safeLiteralCopy src iend oend t length = .done d' := by
  unfold safeLiteralCopy
  simp only
  rw [if_pos (Or.inr (by omega)), if_neg (by omega)]
  exact ⟨_, rfl⟩

theorem step_last {literals : Bytes} {spare : Nat} (fast : Bool) (hsmall : iend ≤ MAX_READ)
    (hle : d.ip ≤ iend) (hinput : d.input src iend = lastBytes literals spare)
    (hroom : d.op + literals.length ≤ oend) : ∃ d', d.step src iend oend fast = .done d' := by
  obtain ⟨htoken, hshort, hlong⟩ := literals_run hsmall hle hinput (le_refl _)
  have hend : ∀ {e : Decoder}, e.input src iend = literals ∧ e.ip ≤ iend →
      e.ip + literals.length = iend := by
    rintro e ⟨hahead, hle'⟩
    have hlen := congrArg List.length hahead
    rw [input, length_slice] at hlen
    omega
  by_cases hlit : RUN_MASK ≤ literals.length
  · obtain ⟨hgo, hlength, hop, hle', hahead⟩ := hlong hlit
    have hip := hend ⟨hahead, hle'⟩
    cases fast with
    | true =>
        simp only [step, if_true, fastStep, htoken, token_div]
        rw [Nat.min_eq_right hlit, if_pos rfl, if_neg hgo, hlength, if_pos (Or.inr (by omega))]
        exact safeLiteralCopy_last hip (by omega)
    | false =>
        simp only [step, if_neg Bool.false_ne_true, safeStep, htoken, token_div]
        rw [Nat.min_eq_right hlit, if_neg (fun h => h.1 rfl), if_pos rfl, if_neg hgo, hlength]
        exact safeLiteralCopy_last hip (by omega)
  · have hip := hend (hshort (Nat.lt_of_not_le hlit))
    simp only [RUN_MASK] at hlit
    have hmin : min literals.length RUN_MASK = literals.length := Nat.min_eq_left (by
      simp only [RUN_MASK]
      omega)
    have hne : literals.length ≠ RUN_MASK := by
      simp only [RUN_MASK]
      omega
    cases fast with
    | true =>
        simp only [step, if_true, fastStep, htoken, token_div]
        rw [hmin, if_neg hne, if_pos (by omega)]
        exact safeLiteralCopy_last hip hroom
    | false =>
        simp only [step, if_neg Bool.false_ne_true, safeStep, htoken, token_div]
        rw [hmin, if_neg (by omega), if_neg hne]
        exact safeLiteralCopy_last hip hroom

/-- A sequence that is ahead is decoded. -/
theorem step_sequence (fast : Bool) (h : d.Inside iend oend) (hle : d.ip ≤ iend)
    (hfast : fast = true → d.op + FASTLOOP_SAFE_DISTANCE ≤ oend) (hc : Coming iend oend d.op s rest)
    (hinput : d.input src iend = s.bytes ++ rest) :
    ∃ fast' d', d.step src iend oend fast = .next fast' d' ∧ Decoded src d d' s ∧
      d'.input src iend = rest ∧ d'.Inside iend oend ∧ d.ip < d'.ip ∧ d'.ip ≤ iend ∧
      (fast' = true → d'.op + FASTLOOP_SAFE_DISTANCE ≤ oend) := by
  have hpos := s.length_bytes_pos
  have hip : d.ip < iend := by
    have hlen := congrArg List.length hinput
    rw [input, length_slice, List.length_append] at hlen
    omega
  have hsound := step_sound src h hip hfast
  have hfine : Fine (d.step src iend oend fast) := by
    cases fast with
    | true => exact fine_fastStep hc hle hinput
    | false => exact fine_safeStep hc hle hinput
  cases houtcome : d.step src iend oend fast with
  | error d' =>
      rw [houtcome] at hfine
      exact hfine.elim
  | done d' =>
      rw [houtcome] at hsound
      obtain ⟨literals, spare, hlast, -⟩ := hsound.2.2 hc.small
      exact absurd (hinput.symm.trans hlast) (lastBytes_ne s rest literals spare)
  | next fast' d' =>
      rw [houtcome] at hsound
      obtain ⟨hin, hlt, hle', -, hfast', hread⟩ := hsound
      obtain ⟨s', hs'⟩ := hread hc.small
      have hsplit : d.input src iend = s'.bytes ++ d'.input src iend := by
        rw [input, slice_split hlt.le hle'.le, hs'.bytes]
        rfl
      obtain ⟨rfl, hrest⟩ := Sequence.bytes_inj (hinput.symm.trans hsplit)
      exact ⟨fast', d', rfl, hs', hrest.symm, hin, hlt, hle'.le, hfast'⟩

theorem length_text (d : Decoder) : d.text.length = d.op := length_slice ..

/-- The loops decode what is ahead of them, sequence by sequence. -/
theorem loop_run {literals text : Bytes} {spare size : Nat} (hsmall : iend ≤ MAX_READ)
    (hroom : text.length + literals.length ≤ oend) (hsize : size ≤ oend) :
    ∀ (ss : List Sequence) (fuel : Nat) (fast : Bool) {d : Decoder}, iend < d.ip + fuel →
      d.Inside iend oend → d.ip ≤ iend → (fast = true → d.op + FASTLOOP_SAFE_DISTANCE ≤ oend) →
      d.input src iend = ss.flatMap Sequence.bytes ++ lastBytes literals spare →
      expand ss d.text = some text → Block.Ends size ss d.text →
      (ss ≠ [] → LASTLITERALS ≤ literals.length) →
      ∃ d', loop src iend oend fuel fast d = some ((d'.op : Int), d') ∧ d'.text = text ++ literals
  | [], 0, _, d, hfuel, _, hle, _, _, _, _, _ => absurd hle (by omega)
  | [], fuel + 1, fast, d, hfuel, h, hle, hfast, hinput, htext, _, _ => by
      have htext' : d.text = text := Option.some.inj htext
      have hinput' : d.input src iend = lastBytes literals spare := hinput
      have hlen : d.op = text.length := by rw [← length_text, htext']
      obtain ⟨d', hdone⟩ := step_last fast hsmall hle hinput'
        (show d.op + literals.length ≤ oend by omega)
      have hip : d.ip < iend := by
        have hpos := length_lastBytes_pos literals spare
        have hcount := congrArg List.length hinput'
        rw [input, length_slice] at hcount
        omega
      have hsound := step_sound src h hip hfast
      rw [hdone] at hsound
      obtain ⟨literals', spare', hlast, hout⟩ := hsound.2.2 hsmall
      have hsame := lastBytes_inj
        ((hinput'.symm.trans hlast).trans (List.append_nil _).symm)
      refine ⟨d', by rw [loop, hdone], ?_⟩
      rw [hout, htext', hsame, List.append_nil]
  | s :: ss, 0, _, d, hfuel, _, hle, _, _, _, _, _ => absurd hle (by omega)
  | s :: ss, fuel + 1, fast, d, hfuel, h, hle, hfast, hinput, htext, hends, hliterals => by
      obtain ⟨hmatch, hstart, hends'⟩ := hends
      have hfive := hliterals (List.cons_ne_nil s ss)
      rw [List.flatMap_cons, List.append_assoc] at hinput
      rw [expand] at htext
      split at htext
      · rename_i hreach
        rw [length_text] at hreach hstart
        rw [Sequence.length_text, length_text] at hmatch
        have hc : Coming iend oend d.op s (ss.flatMap Sequence.bytes ++ lastBytes literals spare) :=
          { small := hsmall
            rest_le := by
              simp only [lastBytes, List.length_append, List.length_cons]
              omega
            inReach := hreach
            matchStart := by omega
            matchEnd := by omega }
        obtain ⟨fast', d₁, hstep, hdecoded, hahead, hin, hlt, hle', hfast'⟩ :=
          step_sequence fast h hle hfast hc hinput
        rw [← hdecoded.text] at htext hends'
        obtain ⟨d', hrun, hout⟩ := loop_run hsmall hroom hsize ss fuel fast' (by omega) hin hle' hfast'
          hahead htext hends' (fun _ => hfive)
        exact ⟨d', by rw [loop, hstep]; exact hrun, hout⟩
      · cases htext

end Decoder

/-! ## The whole decoder -/

variable {source dest : Mem} {compressedSize maxDecompressedSize : Nat}

theorem reads_block {d : Decoder} (h : Decoder.Reads source compressedSize ⟨0, 0, dest, []⟩ d) :
    ∃ b : Block, b.bytes = slice source 0 compressedSize ∧ b.text = some d.text := by
  obtain ⟨ss, literals, spare, hbytes, htext⟩ := h
  exact ⟨⟨ss, literals, spare⟩, hbytes.symm, htext⟩

/-- `LZ4_decompress_safe` returns, whatever it is given. It stays inside both
buffers, and a size it returns is not above that of the output. Its input
is then a block, and the output is the text of the block. -/
theorem decompressSafe_sound (source dest : Mem) (compressedSize maxDecompressedSize : Nat) :
    ∃ (r : Int) (d : Decoder),
      decompressSafe source compressedSize maxDecompressedSize dest = some (r, d) ∧
        d.Inside compressedSize maxDecompressedSize ∧ r ≤ maxDecompressedSize ∧
        (compressedSize ≤ MAX_READ → 0 ≤ r → ∃ b : Block,
          b.bytes = slice source 0 compressedSize ∧ b.text = some (slice d.dst 0 r.toNat)) := by
  rw [decompressSafe, decompressGeneric]
  have hin : Decoder.Inside compressedSize maxDecompressedSize ⟨0, 0, dest, []⟩ := by
    intro a ha
    cases ha
  by_cases hout : maxDecompressedSize = 0
  · rw [if_pos hout]
    by_cases hone : compressedSize = 1
    · rw [if_pos hone]
      refine ⟨_, _, rfl, ?_, ?_, fun _ hr => ?_⟩
      · intro a ha
        rw [List.mem_singleton.mp ha]
        exact hone.ge
      · split <;> omega
      · have hzero : source 0 = 0 := by
          by_contra hne
          rw [if_neg hne] at hr
          omega
        refine ⟨⟨[], [], 0⟩, ?_, ?_⟩
        · rw [hone, slice_one, hzero]
          rfl
        · rw [if_pos hzero]
          rfl
    · rw [if_neg hone]
      exact ⟨_, _, rfl, hin, by omega, fun _ hr => absurd hr (by decide)⟩
  · rw [if_neg hout]
    by_cases hsrc : compressedSize = 0
    · rw [if_pos hsrc]
      exact ⟨_, _, rfl, hin, by omega, fun _ hr => absurd hr (by decide)⟩
    · rw [if_neg hsrc]
      obtain ⟨r, d, hrun, hin', hres⟩ := Decoder.loop_sound source (compressedSize + 1)
        (decide (FASTLOOP_SAFE_DISTANCE ≤ maxDecompressedSize))
        (by show compressedSize < 0 + (compressedSize + 1); omega) hin
        (Nat.pos_of_ne_zero hsrc) (fun hfast => by simpa using hfast)
      refine ⟨r, d, hrun, hin', by omega, fun hsmall hr => ?_⟩
      obtain ⟨rfl, -, hreads⟩ := hres.resolve_left (by omega)
      exact reads_block (hreads hsmall)

/-- A block that ends as it should is decoded, by either loop and by what is left of one in the
other, wherever its text has room. -/
theorem decompressSafe_block {b : Block} {text : Bytes} (hb : b.WellFormed text)
    (hbytes : slice source 0 compressedSize = b.bytes) (hsmall : compressedSize ≤ MAX_READ)
    (hroom : text.length ≤ maxDecompressedSize) (hout : 0 < maxDecompressedSize) (dest : Mem) :
    ∃ d, decompressSafe source compressedSize maxDecompressedSize dest =
      some ((text.length : Int), d) ∧ slice d.dst 0 text.length = text := by
  obtain ⟨hexpand, hends, hlast⟩ := hb
  obtain ⟨out, hout', rfl⟩ := Option.map_eq_some_iff.mp hexpand
  have hpos : compressedSize ≠ 0 := by
    rintro rfl
    have hlen := congrArg List.length hbytes
    have hlast := length_lastBytes_pos b.lastLiterals b.spare
    rw [length_slice, Block.bytes, List.length_append] at hlen
    omega
  have hlen : (out ++ b.lastLiterals).length = out.length + b.lastLiterals.length :=
    List.length_append
  obtain ⟨d, hrun, htext⟩ := Decoder.loop_run hsmall
    (show out.length + b.lastLiterals.length ≤ maxDecompressedSize by omega) hroom b.sequences
    (compressedSize + 1)
    (decide (FASTLOOP_SAFE_DISTANCE ≤ maxDecompressedSize)) (d := ⟨0, 0, dest, []⟩)
    (by show compressedSize < 0 + (compressedSize + 1); omega) (by intro a ha; cases ha)
    (Nat.zero_le _) (fun hfast => by simpa using hfast) hbytes hout' hends hlast
  have hop : d.op = (out ++ b.lastLiterals).length := by rw [← Decoder.length_text, htext]
  refine ⟨d, ?_, ?_⟩
  · rw [decompressSafe, decompressGeneric, if_neg (by omega), if_neg hpos]
    rw [← hop]
    exact hrun
  · rw [← hop]
    exact htext

end ShieldReduce.Lz4

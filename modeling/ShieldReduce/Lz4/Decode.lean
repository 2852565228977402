import ShieldReduce.Lz4.Copies

/-!
# What one round of the decoder does

Whatever the input, a round of either loop stays inside the two buffers,
and unless it ends with an error it has read a sequence, or the last
literals, of the block format (`Outcome.Sound`). The fast loop, the
shortcut of the careful one and what is left of it are three ways to do
the same.

A length is kept in 32 bits; what it holds is what was read as long as
the input is not longer than `MAX_READ`.
-/

namespace ShieldReduce.Lz4

open ByteLib

/-- From that much input no length of 32 bits can be read that wraps around. -/
def MAX_READ : Nat := 2 ^ 24

theorem token_eq {t : UInt8} {litLength matchCode : Nat}
    (hl : t.toNat / 16 = min litLength RUN_MASK) (hm : t.toNat % 16 = min matchCode ML_MASK) :
    token litLength matchCode = t := by
  apply UInt8.toNat_inj.mp
  rw [toNat_token, ← hl, ← hm]
  omega

theorem slice_split {m : Mem} {a b c : Nat} (hab : a ≤ b) (hbc : b ≤ c) :
    slice m a (c - a) = slice m a (b - a) ++ slice m b (c - b) := by
  have hsum : c - a = (b - a) + (c - b) := by omega
  have hpos : a + (b - a) = b := by omega
  rw [hsum, slice_add, hpos]

theorem slice_one (m : Mem) (pos : Nat) : slice m pos 1 = [m pos] := rfl

/-- A sequence was read and its text written. -/
structure Decoder.Decoded (src : Mem) (d₀ d : Decoder) (s : Sequence) : Prop where
  bytes : slice src d₀.ip (d.ip - d₀.ip) = s.bytes
  inReach : s.InReach d₀.text
  text : d.text = s.text d₀.text

/-- What a round that starts at `d₀` may end with. -/
def Outcome.Sound (src : Mem) (iend oend : Nat) (d₀ : Decoder) : Outcome → Prop
  | .error d => d.Inside iend oend
  | .done d => d.Inside iend oend ∧ d.op ≤ oend ∧
      (iend ≤ MAX_READ → ∃ (literals : Bytes) (spare : Nat),
        slice src d₀.ip (iend - d₀.ip) = lastBytes literals spare ∧ d.text = d₀.text ++ literals)
  | .next fast d => d.Inside iend oend ∧ d₀.ip < d.ip ∧ d.ip < iend ∧ d.op ≤ oend ∧
      (fast = true → d.op + FASTLOOP_SAFE_DISTANCE ≤ oend) ∧
      (iend ≤ MAX_READ → ∃ s : Sequence, Decoder.Decoded src d₀ d s)

namespace Decoder

variable {src : Mem} {iend oend : Nat} {d₀ d : Decoder}

/-! ## Reading lengths -/

theorem Inside.next (h : d.Inside iend oend) (hip : d.ip < iend) : d.next.Inside iend oend := by
  intro a ha
  rcases List.mem_cons.mp ha with rfl | ha
  · exact hip
  · exact h a ha

theorem Inside.readOffset (h : d.Inside iend oend) (hip : d.ip + 2 ≤ iend) :
    (d.readOffset src).2.Inside iend oend := by
  intro a ha
  rcases List.mem_cons.mp ha with rfl | ha
  · exact hip
  · exact h a ha

/-- What `read_variable_length` returns. -/
structure LengthRead (src : Mem) (iend oend slack : Nat) (d : Decoder) (length : Nat)
    (r : Nat × Bool × Decoder) : Prop where
  op_eq : r.2.2.op = d.op
  dst_eq : r.2.2.dst = d.dst
  inside : r.2.2.Inside iend oend
  ip_lt : d.ip < r.2.2.ip
  ip_le : r.2.2.ip ≤ iend
  stopped : if r.2.1 then iend ≤ r.2.2.ip + slack else r.2.2.ip + slack < iend
  value : length + 255 * (iend - d.ip) < 2 ^ 32 → ∃ (k : Nat) (b : UInt8),
    slice src d.ip (r.2.2.ip - d.ip) = List.replicate k 255 ++ [b] ∧
      r.1 = length + (255 * k + b.toNat) ∧ (r.2.1 = false → b ≠ 255)

theorem readVariableLength_spec (src : Mem) {iend : Nat} (slack : Nat) :
    ∀ (fuel length : Nat) {d : Decoder}, iend ≤ d.ip + fuel → d.ip < iend → d.Inside iend oend →
    LengthRead src iend oend slack d length (readVariableLength src iend slack fuel length d)
  | 0, _, d, hfuel, hip, _ => absurd hip (by omega)
  | fuel + 1, length, d, hfuel, hip, h => by
      have hb := (src d.ip).toNat_lt
      have hvalue : length + 255 * (iend - d.ip) < 2 ^ 32 →
          (length + (src d.ip).toNat) % 2 ^ 32 = length + (255 * 0 + (src d.ip).toNat) := by
        intro hsmall
        omega
      have hslice : slice src d.ip (d.ip + 1 - d.ip) = List.replicate 0 255 ++ [src d.ip] := by
        rw [Nat.add_sub_cancel_left, slice_one]
        rfl
      simp only [readVariableLength]
      split
      · rename_i hstop
        exact ⟨rfl, rfl, h.next hip, Nat.lt_succ_self _, hip, by rw [if_pos rfl]; exact hstop,
          fun hsmall => ⟨0, src d.ip, hslice, hvalue hsmall, by simp⟩⟩
      · rename_i hgo
        have hgo' : d.ip + 1 + slack < iend := Nat.lt_of_not_le hgo
        split
        · rename_i h255
          have hfuel' : iend ≤ d.next.ip + fuel := by
            show iend ≤ d.ip + 1 + fuel
            omega
          have ih := readVariableLength_spec src slack fuel
            ((length + (src d.ip).toNat) % 2 ^ 32) hfuel' (by show d.ip + 1 < iend; omega) (h.next hip)
          refine ⟨ih.op_eq, ih.dst_eq, ih.inside, Nat.lt_of_succ_lt ih.ip_lt, ih.ip_le, ih.stopped,
            fun hsmall => ?_⟩
          have h255' : (src d.ip).toNat = 255 := by rw [h255]; rfl
          have hnext : d.next.ip = d.ip + 1 := rfl
          obtain ⟨k, b, hbytes, hlength, hne⟩ := ih.value (by
            rw [hvalue hsmall, h255', hnext]
            omega)
          refine ⟨k + 1, b, ?_, ?_, hne⟩
          · have hlt := ih.ip_lt
            rw [hnext] at hlt hbytes
            rw [slice_split (Nat.le_add_right d.ip 1) hlt.le, hslice, hbytes, h255]
            rfl
          · rw [hlength, hvalue hsmall, h255']
            omega
        · rename_i hne
          exact ⟨rfl, rfl, h.next hip, Nat.lt_succ_self _, hip,
            by rw [if_neg Bool.false_ne_true]; exact hgo',
            fun hsmall => ⟨0, src d.ip, hslice, hvalue hsmall, fun _ => hne⟩⟩

/-- The token and the length of the literals are read. -/
structure LiteralsRead (src : Mem) (iend oend : Nat) (d₀ d : Decoder) (length : Nat) : Prop where
  op_eq : d.op = d₀.op
  text_eq : d.text = d₀.text
  inside : d.Inside iend oend
  ip_lt : d₀.ip < d.ip
  bytes : iend ≤ MAX_READ → d.ip + length ≤ iend →
    slice src d₀.ip (d.ip - d₀.ip) = src d₀.ip :: lengthBytes length ∧
      (src d₀.ip).toNat / 16 = min length RUN_MASK

theorem literalsRead_short (h : d₀.Inside iend oend) (hip : d₀.ip < iend)
    (hlt : (src d₀.ip).toNat / 16 ≠ RUN_MASK) :
    LiteralsRead src iend oend d₀ d₀.next ((src d₀.ip).toNat / 16) where
  op_eq := rfl
  text_eq := rfl
  inside := h.next hip
  ip_lt := Nat.lt_succ_self _
  bytes := by
    intro _ _
    have ht := (src d₀.ip).toNat_lt
    have hlt' : (src d₀.ip).toNat / 16 < RUN_MASK := by
      simp only [RUN_MASK] at hlt ⊢
      omega
    have hsub : d₀.next.ip - d₀.ip = 1 := by
      show d₀.ip + 1 - d₀.ip = 1
      omega
    rw [lengthBytes_of_lt hlt', Nat.min_eq_left hlt'.le, hsub, slice_one]
    exact ⟨rfl, rfl⟩

theorem literalsRead_long (h : d₀.Inside iend oend) (hip : d₀.ip + 1 + RUN_MASK < iend)
    (heq : (src d₀.ip).toNat / 16 = RUN_MASK) :
    LiteralsRead src iend oend d₀ (readVariableLength src iend RUN_MASK iend 0 d₀.next).2.2
      (RUN_MASK + (readVariableLength src iend RUN_MASK iend 0 d₀.next).1) := by
  have hr := readVariableLength_spec src RUN_MASK iend 0
    (d := d₀.next) (by omega) (by show d₀.ip + 1 < iend; omega) (h.next (by omega))
  generalize readVariableLength src iend RUN_MASK iend 0 d₀.next = r at hr ⊢
  have hlt : d₀.ip + 1 < r.2.2.ip := hr.ip_lt
  refine ⟨hr.op_eq, ?_, hr.inside, by omega, fun hsmall hle => ?_⟩
  · rw [text, hr.op_eq, hr.dst_eq]
    rfl
  · simp only [MAX_READ, RUN_MASK] at *
    obtain ⟨k, b, hbytes, hlength, hne⟩ := hr.value (by
      show 0 + 255 * (iend - (d₀.ip + 1)) < 2 ^ 32
      omega)
    have hbytes' : slice src (d₀.ip + 1) (r.2.2.ip - (d₀.ip + 1)) = List.replicate k 255 ++ [b] :=
      hbytes
    have hb : b.toNat < 255 := by
      have hlt := b.toNat_lt
      by_contra hge
      have h255 : b = 255 := by
        apply UInt8.toNat_inj.mp
        show b.toNat = 255
        omega
      -- the loop was left at its end, and that many literals are not there
      have hstop := hr.stopped
      cases herr : r.2.1 with
      | false => exact hne herr h255
      | true =>
          rw [herr, if_pos rfl] at hstop
          omega
    have hsum : 15 + r.1 = RUN_MASK + (255 * k + b.toNat) := by
      simp only [RUN_MASK]
      omega
    rw [hsum, lengthBytes_add hb, slice_split (Nat.le_add_right d₀.ip 1) hlt.le, hbytes', heq]
    refine ⟨?_, by simp only [RUN_MASK]; omega⟩
    rw [Nat.add_sub_cancel_left, slice_one]
    rfl

/-! ## In front of the match -/

/-- The literals are copied as well. -/
structure LiteralsCopied (src : Mem) (iend oend : Nat) (d₀ d : Decoder) : Prop where
  inside : d.Inside iend oend
  ip_lt : d₀.ip < d.ip
  ip_le : d.ip + 3 ≤ iend
  room : d.op + MFLIMIT ≤ oend
  bytes : iend ≤ MAX_READ → ∃ literals : Bytes,
    slice src d₀.ip (d.ip - d₀.ip) = src d₀.ip :: (lengthBytes literals.length ++ literals) ∧
      (src d₀.ip).toNat / 16 = min literals.length RUN_MASK ∧ d.text = d₀.text ++ literals

theorem LiteralsRead.copied {length last : Nat} {t : Decoder}
    (h : LiteralsRead src iend oend d₀ d length)
    (hA : Appends src iend oend d d.op d.ip last t) (hlast : d.op + length ≤ last)
    (hip : d.ip + length + 3 ≤ iend) (hop : d.op + length + MFLIMIT ≤ oend) {ip : Nat}
    (hto : ip = d.ip + length) :
    LiteralsCopied src iend oend d₀ { t with ip := ip, op := d.op + length } where
  inside := hA.inside.of_accesses rfl
  ip_lt := by
    have hlt := h.ip_lt
    show d₀.ip < ip
    omega
  ip_le := hto ▸ hip
  room := hop
  bytes := by
    intro hsmall
    obtain ⟨hbytes, hnibble⟩ := h.bytes hsmall (by omega)
    have hlt := h.ip_lt
    refine ⟨slice src d.ip length, ?_, ?_, ?_⟩
    · show slice src d₀.ip (ip - d₀.ip) = _
      rw [hto, slice_split hlt.le (Nat.le_add_right d.ip length), hbytes, Nat.add_sub_cancel_left,
        length_slice, List.cons_append]
    · rw [length_slice]
      exact hnibble
    · rw [← h.text_eq]
      exact hA.slice hlast

/-- The offset is read too. -/
structure OffsetRead (src : Mem) (iend oend : Nat) (d₀ d : Decoder) (offset : Nat) : Prop where
  offset_lt : offset < 65536
  inside : d.Inside iend oend
  ip_lt : d₀.ip < d.ip
  ip_le : d.ip < iend
  room : d.op + MFLIMIT ≤ oend
  bytes : iend ≤ MAX_READ → ∃ literals : Bytes,
    slice src d₀.ip (d.ip - d₀.ip) =
        src d₀.ip :: (lengthBytes literals.length ++ (literals ++ le16 offset)) ∧
      (src d₀.ip).toNat / 16 = min literals.length RUN_MASK ∧ d.text = d₀.text ++ literals

theorem LiteralsCopied.readOffset (h : LiteralsCopied src iend oend d₀ d) :
    OffsetRead src iend oend d₀ (d.readOffset src).2 (d.readOffset src).1 where
  offset_lt := ofLe16_lt ..
  inside := h.inside.readOffset (by have hle := h.ip_le; omega)
  ip_lt := by
    have hlt := h.ip_lt
    show d₀.ip < d.ip + 2
    omega
  ip_le := by
    have hle := h.ip_le
    show d.ip + 2 < iend
    omega
  room := h.room
  bytes := by
    intro hsmall
    obtain ⟨literals, hbytes, hnibble, htext⟩ := h.bytes hsmall
    refine ⟨literals, ?_, hnibble, htext⟩
    show slice src d₀.ip (d.ip + 2 - d₀.ip) = _
    have htwo : slice src d.ip 2 = le16 (ofLe16 (src d.ip) (src (d.ip + 1))) := by
      rw [le16_ofLe16]
      rfl
    rw [slice_split h.ip_lt.le (Nat.le_add_right d.ip 2), hbytes, Nat.add_sub_cancel_left, htwo,
      List.cons_append, List.append_assoc]
    rfl

/-- All of the sequence is read, and its match is not copied yet. -/
structure SequenceRead (src : Mem) (iend oend : Nat) (d₀ d : Decoder) (offset length : Nat) :
    Prop where
  inside : d.Inside iend oend
  ip_lt : d₀.ip < d.ip
  ip_le : d.ip < iend
  room : d.op + MFLIMIT ≤ oend
  min_le : MINMATCH ≤ length
  bytes : iend ≤ MAX_READ → ∃ s : Sequence, slice src d₀.ip (d.ip - d₀.ip) = s.bytes ∧
    s.offset = offset ∧ s.matchLength = length ∧ d.text = d₀.text ++ s.literals

theorem OffsetRead.short {offset : Nat} (h : OffsetRead src iend oend d₀ d offset)
    (hlt : (src d₀.ip).toNat % 16 ≠ ML_MASK) :
    SequenceRead src iend oend d₀ d offset ((src d₀.ip).toNat % 16 + MINMATCH) where
  inside := h.inside
  ip_lt := h.ip_lt
  ip_le := h.ip_le
  room := h.room
  min_le := Nat.le_add_left ..
  bytes := by
    intro hsmall
    obtain ⟨literals, hbytes, hnibble, htext⟩ := h.bytes hsmall
    have hlt' : (src d₀.ip).toNat % 16 < RUN_MASK := by
      simp only [RUN_MASK, ML_MASK] at *
      omega
    refine ⟨⟨literals, offset, (src d₀.ip).toNat % 16, h.offset_lt⟩, ?_, rfl, rfl, htext⟩
    rw [hbytes, Sequence.bytes]
    simp only
    rw [lengthBytes_of_lt hlt', List.append_nil,
      token_eq hnibble (Nat.min_eq_left hlt'.le).symm]

theorem OffsetRead.long {offset : Nat} (h : OffsetRead src iend oend d₀ d offset)
    (heq : (src d₀.ip).toNat % 16 = ML_MASK) :
    (readVariableLength src iend (LASTLITERALS - 1) iend 0 d).2.2.Inside iend oend ∧
    ((readVariableLength src iend (LASTLITERALS - 1) iend 0 d).2.1 = false →
      SequenceRead src iend oend d₀ (readVariableLength src iend (LASTLITERALS - 1) iend 0 d).2.2
        offset (ML_MASK + (readVariableLength src iend (LASTLITERALS - 1) iend 0 d).1 + MINMATCH) ∧
      (readVariableLength src iend (LASTLITERALS - 1) iend 0 d).2.2.op = d.op) := by
  have hr := readVariableLength_spec src (LASTLITERALS - 1) iend 0
    (d := d) (by omega) h.ip_le h.inside
  generalize readVariableLength src iend (LASTLITERALS - 1) iend 0 d = r at hr ⊢
  refine ⟨hr.inside, fun herr => ⟨?_, hr.op_eq⟩⟩
  have hstop := hr.stopped
  rw [herr, if_neg Bool.false_ne_true] at hstop
  have hroom := h.room
  have hlt := h.ip_lt
  have hlt' := hr.ip_lt
  refine ⟨hr.inside, by omega, by omega, by rw [hr.op_eq]; exact hroom, Nat.le_add_left ..,
    fun hsmall => ?_⟩
  obtain ⟨literals, hbytes, hnibble, htext⟩ := h.bytes hsmall
  obtain ⟨k, b, hcode, hlength, hne⟩ := hr.value (by
    simp only [MAX_READ] at hsmall
    omega)
  have hb : b.toNat < 255 := by
    have hb256 := b.toNat_lt
    have hne' : b.toNat ≠ 255 := fun h255 => hne herr (UInt8.toNat_inj.mp h255)
    omega
  have hsum : ML_MASK + r.1 = RUN_MASK + (255 * k + b.toNat) := by
    simp only [ML_MASK, RUN_MASK]
    omega
  have hmin : min (RUN_MASK + (255 * k + b.toNat)) ML_MASK = ML_MASK := by
    simp only [ML_MASK, RUN_MASK]
    omega
  refine ⟨⟨literals, offset, RUN_MASK + (255 * k + b.toNat), h.offset_lt⟩, ?_, rfl, ?_, ?_⟩
  · rw [slice_split h.ip_lt.le hlt'.le, hbytes, hcode, Sequence.bytes]
    simp only
    rw [lengthBytes_add hb, token_eq hnibble (heq.trans hmin.symm), List.cons_append,
      List.append_assoc, List.append_assoc]
  · rw [Sequence.matchLength, hsum]
  · rw [text, hr.op_eq, hr.dst_eq]
    exact htext

/-! ## The match -/

/-- The match is copied at least as far as it goes. -/
theorem SequenceRead.next {offset length last : Nat} {t : Decoder}
    (h : SequenceRead src iend oend d₀ d offset length)
    (hM : Matching iend oend d offset d.op last t) (hlast : d.op + length ≤ last) {fast : Bool}
    (hop : d.op + length ≤ oend)
    (hfast : fast = true → d.op + length + FASTLOOP_SAFE_DISTANCE ≤ oend) :
    Outcome.Sound src iend oend d₀ (.next fast { t with op := d.op + length }) := by
  have hip : ({ t with op := d.op + length } : Decoder).ip = d.ip := hM.ip_eq
  refine ⟨hM.inside.of_accesses rfl, by rw [hip]; exact h.ip_lt, by rw [hip]; exact h.ip_le, hop,
    hfast, fun hsmall => ?_⟩
  obtain ⟨s, hbytes, rfl, rfl, htext⟩ := h.bytes hsmall
  refine ⟨s, by rw [hip]; exact hbytes, ?_, ?_⟩
  · have hlen := congrArg List.length htext
    rw [text, length_slice, List.length_append] at hlen
    have hreach := hM.inReach
    rw [hlen] at hreach
    exact hreach
  · rw [Sequence.text, ← htext]
    exact hM.slice hlast

theorem safeMatchCopy_sound {offset length : Nat}
    (h : SequenceRead src iend oend d₀ d offset length) :
    (d.safeMatchCopy oend offset length).Sound src iend oend d₀ := by
  have hroom := h.room
  have hmin := h.min_le
  simp only [MFLIMIT, MINMATCH] at hroom hmin
  unfold safeMatchCopy
  simp only
  split
  · exact h.inside
  · rename_i hreach
    obtain ⟨hM, q, hm, hdvd, hge, hle⟩ := copyEight_spec h.inside (by omega)
      (show offset ≤ d.op by omega)
    split
    · split
      · exact hM.inside
      · rename_i hend
        simp only [LASTLITERALS] at hend
        have hlimit : WILDCOPYLENGTH - 1 = 7 := rfl
        split
        · rename_i hlt
          rw [hlimit] at hlt
          obtain ⟨last, hlast, -, hM'⟩ := hM.wildCopy8 (oend - 7) hm hdvd hge (by omega)
            (by omega) (by omega)
          have hcut : Matching iend oend d offset d.op (oend - 7)
              ((d.copyEight (d.op - offset) offset).1.wildCopy8 (d.op + 8)
                (d.copyEight (d.op - offset) offset).2 (oend - 7)) :=
            { hM' with copied := hM'.copied.mono hlast, ordered := by omega }
          have hbytes := hcut.bytes (m := (d.copyEight (d.op - offset) offset).2 +
            (oend - 7 - (d.op + 8) : Nat)) hdvd (by omega) (d.op + length - (oend - 7)) (by omega)
            (by omega) (by omega)
          exact h.next hbytes (by omega) (by omega) (by simp)
        · have hbytes := hM.bytes hdvd (by omega) (d.op + length - (d.op + 8)) hm (by omega)
            (by omega)
          exact h.next hbytes (by omega) (by omega) (by simp)
    · rename_i hfar
      simp only [MATCH_SAFEGUARD_DISTANCE] at hfar
      have hM' := hM.copyDst (n := 8) hm hdvd hge (by omega) (by omega)
      split
      · obtain ⟨last, hlast, -, hM''⟩ := hM'.wildCopy8 (d.op + length) (q := q)
          (m := (d.copyEight (d.op - offset) offset).2 + 8) (by omega) hdvd hge (by omega) (by omega)
          (by omega)
        exact h.next hM'' hlast (by omega) (by simp)
      · exact h.next hM' (by omega) (by omega) (by simp)

theorem copyMatch_sound {offset matchCode : Nat} (h : OffsetRead src iend oend d₀ d offset)
    (hcode : matchCode = (src d₀.ip).toNat % 16) :
    (d.copyMatch src iend oend offset matchCode).Sound src iend oend d₀ := by
  subst hcode
  unfold copyMatch
  split
  · rename_i heq
    obtain ⟨hin, hlong⟩ := h.long heq
    simp only
    cases herr : (readVariableLength src iend (LASTLITERALS - 1) iend 0 d).2.1 with
    | true => exact hin
    | false =>
        rw [heq]
        exact safeMatchCopy_sound (hlong herr).1
  · rename_i hne
    exact safeMatchCopy_sound (h.short hne)

/-! ## The two loops -/

theorem safeLiteralCopy_sound {length : Nat} (h : LiteralsRead src iend oend d₀ d length) :
    (d.safeLiteralCopy src iend oend (src d₀.ip) length).Sound src iend oend d₀ := by
  unfold safeLiteralCopy
  simp only [MFLIMIT, LASTLITERALS]
  split
  · split
    · exact h.inside
    · rename_i hlast
      have hip : d.ip + length = iend := by omega
      have hop : d.op + length ≤ oend := by omega
      refine ⟨(h.inside.copySrc src hop (by omega)).of_accesses rfl, hop, fun hsmall => ?_⟩
      obtain ⟨hbytes, hnibble⟩ := h.bytes hsmall hip.le
      refine ⟨slice src d.ip length, (src d₀.ip).toNat % 16, ?_, ?_⟩
      · have hmin : (src d₀.ip).toNat % 16 = min ((src d₀.ip).toNat % 16) ML_MASK := by
          simp only [ML_MASK]
          omega
        rw [lastBytes, length_slice, token_eq hnibble hmin,
          slice_split h.ip_lt.le (show d.ip ≤ iend by omega), hbytes, ← hip,
          Nat.add_sub_cancel_left, List.cons_append]
      · rw [← h.text_eq]
        exact slice_copySrc (le_refl length)
  · rename_i hroom
    obtain ⟨last, hlast, hA⟩ := wildCopy8Src_spec src d.ip h.inside
      (Nat.le_add_right d.op length) (by omega) (by omega)
    exact copyMatch_sound (h.copied hA hlast (by omega) (by simp only [MFLIMIT]; omega)
      (by rw [hA.ip_eq])).readOffset rfl

/-- The literals of a token, copied by 16 bytes. -/
theorem LiteralsRead.copy16 {length : Nat} (h : LiteralsRead src iend oend d₀ d length)
    (hlen : length ≤ 16) (hip : d.ip + 16 ≤ iend) (hip' : d.ip + length + 3 ≤ iend)
    (hop : d.op + length + MFLIMIT ≤ oend) (hop' : d.op + 16 ≤ oend) :
    LiteralsCopied src iend oend d₀
      { d.copySrc src d.op d.ip 16 with ip := d.ip + length, op := d.op + length } := by
  have hA := (Appends.refl src d.op d.ip h.inside).copySrc (n := 16)
    (le_refl _) hop' (by omega)
  rw [Nat.sub_self, Nat.add_zero] at hA
  exact h.copied hA (by omega) hip' hop rfl

/-- A match of a token behind an offset of at least eight, copied by 18 bytes. -/
theorem SequenceRead.copy18 {offset length : Nat}
    (h : SequenceRead src iend oend d₀ d offset length) (hreach : offset ≤ d.op) (hge : 8 ≤ offset)
    (hlen : length ≤ 18) (hop : d.op + 18 ≤ oend) {fast : Bool}
    (hfast : fast = true → d.op + length + FASTLOOP_SAFE_DISTANCE ≤ oend) :
    Outcome.Sound src iend oend d₀ (.next fast { ((d.copyDst d.op (d.op - offset) 8).copyDst
      (d.op + 8) (d.op - offset + 8) 8).copyDst (d.op + 16) (d.op - offset + 16) 2 with
        op := d.op + length }) := by
  have h₁ := (Matching.refl h.inside hreach).copyDst (q := offset) (n := 8) (m := d.op - offset)
    (by omega) (Or.inr (dvd_refl _)) hge (by omega) (by omega)
  have h₂ := h₁.copyDst (q := offset) (n := 8) (m := d.op - offset + 8) (by omega)
    (Or.inr (dvd_refl _)) hge (by omega) (by omega)
  have h₃ := h₂.copyDst (q := offset) (n := 2) (m := d.op - offset + 16) (by omega)
    (Or.inr (dvd_refl _)) (by omega) (by omega) (by omega)
  exact h.next h₃ (by omega) (by omega) hfast

theorem safeStep_sound (h : d.Inside iend oend) (hip : d.ip < iend) :
    (d.safeStep src iend oend).Sound src iend oend d := by
  have ht := (src d.ip).toNat_lt
  unfold safeStep
  simp only
  split
  · rename_i hshort
    obtain ⟨hne, hsrc, hdst⟩ := hshort
    have hsrc' : d.ip + 1 + 14 + 2 < iend := hsrc
    have hdst' : d.op + 14 + 18 ≤ oend := hdst
    simp only [RUN_MASK] at hne
    have hcopied := ((literalsRead_short h hip hne).copy16 (by omega)
      (by show d.ip + 1 + 16 ≤ iend; omega) (by show d.ip + 1 + _ + 3 ≤ iend; omega)
      (by show d.op + _ + 12 ≤ oend; omega) (by show d.op + 16 ≤ oend; omega)).readOffset
    split
    · rename_i hmatch
      obtain ⟨hcode, hge, hreach⟩ := hmatch
      have hseq := hcopied.short hcode
      refine hseq.copy18 (Int.ofNat_le.mp (Int.sub_nonneg.mp hreach)) hge ?_ ?_ (by simp)
      · simp only [MINMATCH, ML_MASK] at hcode ⊢
        omega
      · show d.op + (src d.ip).toNat / 16 + 18 ≤ oend
        omega
    · exact copyMatch_sound hcopied rfl
  · split
    · rename_i heq
      split
      · exact h.next hip
      · rename_i hlong
        rw [heq]
        exact safeLiteralCopy_sound (literalsRead_long h (Nat.lt_of_not_le hlong) heq)
    · rename_i hne
      exact safeLiteralCopy_sound (literalsRead_short h hip hne)

/-- A match in the fast loop, with more than 64 bytes behind it. -/
theorem SequenceRead.fast {offset length : Nat}
    (h : SequenceRead src iend oend d₀ d offset length) (hreach : offset ≤ d.op)
    (hop : d.op + length + FASTLOOP_SAFE_DISTANCE < oend) :
    Outcome.Sound src iend oend d₀ (if offset < 16 then
        .next true { d.memcpyUsingOffset (d.op - offset) (d.op + length) offset with
          op := d.op + length }
      else
        .next true { d.wildCopy32 d.op (d.op - offset) (d.op + length) with
          op := d.op + length }) := by
  have hmin := h.min_le
  simp only [MINMATCH, FASTLOOP_SAFE_DISTANCE] at hmin hop
  have hfast : true = true → d.op + length + FASTLOOP_SAFE_DISTANCE ≤ oend :=
    fun _ => by simp only [FASTLOOP_SAFE_DISTANCE]; omega
  split
  · obtain ⟨last, hlast, hM⟩ := memcpyUsingOffset_spec h.inside hreach (d.op + length)
      (by omega) (by omega)
    exact h.next hM hlast (by omega) hfast
  · obtain ⟨last, hlast, hM⟩ := (Matching.refl h.inside hreach).wildCopy32 (d.op + length) (q := offset)
      (m := d.op - offset) (by omega) (Or.inr (dvd_refl _)) (by omega)
      (by omega) (by omega) (by omega)
    exact h.next hM hlast (by omega) hfast

theorem fastMatch_sound (h : LiteralsCopied src iend oend d₀ d)
    (hop : d.op + 18 ≤ oend) :
    (d.fastMatch src iend oend (src d₀.ip)).Sound src iend oend d₀ := by
  have ho := h.readOffset
  have ht := (src d₀.ip).toNat_lt
  unfold fastMatch
  simp only
  split
  · rename_i heq
    split
    · exact ho.inside
    · rename_i hreach
      obtain ⟨hin, hlong⟩ := ho.long heq
      cases herr : (readVariableLength src iend (LASTLITERALS - 1) iend 0
          (d.readOffset src).2).2.1 with
      | true => exact hin
      | false =>
          obtain ⟨hseq, hop'⟩ := hlong herr
          rw [if_neg Bool.false_ne_true, heq]
          split
          · exact safeMatchCopy_sound hseq
          · rename_i hroom
            have hreach' : (d.readOffset src).1 ≤ (readVariableLength src iend (LASTLITERALS - 1) iend
                0 (d.readOffset src).2).2.2.op := by
              rw [hop']
              omega
            rw [← hop']
            exact hseq.fast hreach' (Nat.lt_of_not_le hroom)
  · rename_i hne
    have hseq := ho.short hne
    split
    · exact safeMatchCopy_sound hseq
    · rename_i hroom
      have hroom' := Nat.lt_of_not_le hroom
      split
      · rename_i hmatch
        obtain ⟨hreach, hge⟩ := hmatch
        refine hseq.copy18 (Int.ofNat_le.mp (Int.sub_nonneg.mp hreach)) hge ?_ hop
          (fun _ => hroom'.le)
        simp only [MINMATCH, ML_MASK] at hne ⊢
        omega
      · split
        · exact ho.inside
        · rename_i hreach
          exact hseq.fast (by omega) hroom'

theorem fastStep_sound (h : d.Inside iend oend) (hip : d.ip < iend)
    (hop : d.op + FASTLOOP_SAFE_DISTANCE ≤ oend) :
    (d.fastStep src iend oend).Sound src iend oend d := by
  have ht := (src d.ip).toNat_lt
  simp only [FASTLOOP_SAFE_DISTANCE] at hop
  unfold fastStep
  simp only
  split
  · rename_i heq
    split
    · exact h.next hip
    · rename_i hlong
      have hread := literalsRead_long h (Nat.lt_of_not_le hlong) heq
      rw [heq]
      generalize readVariableLength src iend RUN_MASK iend 0 d.next = r at hread ⊢
      split
      · exact safeLiteralCopy_sound hread
      · rename_i hroom
        obtain ⟨last, hlast, hA⟩ := wildCopy32Src_spec src r.2.2.ip hread.inside
          (Nat.le_add_right r.2.2.op (RUN_MASK + r.1)) (by omega) (by omega)
        exact fastMatch_sound (hread.copied hA hlast (by omega) (by simp only [MFLIMIT]; omega) rfl)
          (by simp only; omega)
  · rename_i hne
    have hread := literalsRead_short h hip hne
    split
    · exact safeLiteralCopy_sound hread
    · rename_i hroom
      have hroom' : d.ip + 1 + 17 ≤ iend := Nat.le_of_not_lt hroom
      simp only [RUN_MASK] at hne
      refine fastMatch_sound (hread.copy16 (by omega) (by show d.ip + 1 + 16 ≤ iend; omega)
        (by show d.ip + 1 + _ + 3 ≤ iend; omega) (by show d.op + _ + 12 ≤ oend; omega)
        (by show d.op + 16 ≤ oend; omega)) ?_
      show d.op + (src d.ip).toNat / 16 + 18 ≤ oend
      omega

/-- A round that starts in front of the end of the input, the fast one with its
64 bytes of output. -/
theorem step_sound (src : Mem) {fast : Bool} (h : d.Inside iend oend) (hip : d.ip < iend)
    (hfast : fast = true → d.op + FASTLOOP_SAFE_DISTANCE ≤ oend) :
    (d.step src iend oend fast).Sound src iend oend d := by
  cases fast with
  | true => exact fastStep_sound h hip (hfast rfl)
  | false => exact safeStep_sound h hip

end Decoder

end ShieldReduce.Lz4

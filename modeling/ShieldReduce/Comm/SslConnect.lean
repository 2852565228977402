import Mathlib.Algebra.Order.Ring.Int
import Mathlib.Data.Nat.Find
import Mathlib.Tactic.Common

/-!
# Framed messages over a connection

`SendData` and `ReceiveData` pass a length and then a body. Each checks that
the status of the length is positive, and adds up the returns of the body as
they come: a return of 0 leaves the loop where it was, and a negative one takes
it back, in front of the buffer in the end. A length of which only some bytes go
through passes the check, and one from 2^31 on is a negative `int`. So both do
what they should exactly when nothing of the length goes through, or when all of
it does, it is below 2^31, and every return is positive until the body is
complete (`framed_iff`).
-/

namespace ShieldReduce

namespace SSLConnection

/-! ## The two functions -/

/-- One `SSL_read` or `SSL_write` of a body: from where in the buffer, and how much. -/
structure Call where
  offset : Int32
  num : Int32

/-- The loop over a body: the calls that it makes with this fuel, and what the
function returns when it ends. `returns i` is the return value of the `i`-th call. -/
def transferLoop (more : Int32 → Bool) (num : Int32 → Int32) (returns : Nat → Int32) :
    (fuel i : Nat) → (size : Int32) → List Call × Option Bool
  | 0, _, _ => ([], none)
  | fuel + 1, i, size =>
      if more size then
        let (calls, status) := transferLoop more num returns fuel (i + 1) (size + returns i)
        (⟨size, num size⟩ :: calls, status)
      else ([], some true)

/-- `sendedSize < dataSize` compares an `int` with a `uint32_t`: both are unsigned. -/
def moreToSend (dataSize : UInt32) (sendedSize : Int32) : Bool := sendedSize.toUInt32 < dataSize

/-- `dataSize - sendedSize`, as the `int` that `SSL_write` takes. -/
def numToSend (dataSize : UInt32) (sendedSize : Int32) : Int32 :=
  (dataSize - sendedSize.toUInt32).toInt32

def moreToReceive (len receivedSize : Int32) : Bool := receivedSize < len

def numToReceive (len receivedSize : Int32) : Int32 := len - receivedSize

/-- `SendData`, whose length was written with `writeStatus`. -/
def sendData (dataSize : UInt32) (writeStatus : Int32) (returns : Nat → Int32) (fuel : Nat) :
    List Call × Option Bool :=
  if writeStatus ≤ 0 then ([], some false)
  else transferLoop (moreToSend dataSize) (numToSend dataSize) returns fuel 0 0

/-- `len`, which is 0 before its first `readStatus` bytes are read. -/
def readLen (dataSize : UInt32) (readStatus : Int32) : Int32 :=
  (UInt32.ofNat (dataSize.toNat % 256 ^ readStatus.toInt.toNat)).toInt32

/-- `ReceiveData` of a message of `dataSize` bytes, whose length was read with
`readStatus`. -/
def receiveData (dataSize : UInt32) (readStatus : Int32) (returns : Nat → Int32) (fuel : Nat) :
    List Call × Option Bool :=
  if readStatus ≤ 0 then ([], some false)
  else
    let len := readLen dataSize readStatus
    transferLoop (moreToReceive len) (numToReceive len) returns fuel 0 0

/-! ## Returns -/

/-- How much `k` returns have moved. -/
def moved (returns : Nat → Int32) : Nat → Int
  | 0 => 0
  | k + 1 => moved returns k + (returns k).toInt

/-- The first `k` returns are positive. -/
def Moving (returns : Nat → Int32) (k : Nat) : Prop := ∀ i < k, 0 < (returns i).toInt

/-- A positive return is at most what was asked for. -/
def Partial (num : Int32 → Int32) (len : Int) (returns : Nat → Int32) : Prop :=
  ∀ k, Moving returns k → moved returns k < len → 0 < (returns k).toInt →
    (returns k).toInt ≤ (num (Int32.ofInt (moved returns k))).toInt

/-- Every return is positive until the body is complete. -/
def Whole (len : Int) (returns : Nat → Int32) : Prop :=
  ∃ k, Moving returns k ∧ len ≤ moved returns k

/-- The length went through, and in `k` calls, none of which failed, the body. -/
structure Transferred (dataSize : UInt32) (status : Int32) (returns : Nat → Int32) (k : Nat) :
    Prop where
  prefixed : status = 4
  moving : Moving returns k
  body : dataSize.toNat ≤ moved returns k

/-- What a caller expects: an end, no call outside the body, and `false` unless the
whole message went through. -/
structure Sound (dataSize : UInt32) (status : Int32) (returns : Nat → Int32)
    (run : Nat → List Call × Option Bool) : Prop where
  ends : ∃ fuel b, (run fuel).2 = some b
  inBounds : ∀ fuel, ∀ c ∈ (run fuel).1, 0 ≤ c.offset.toInt ∧ c.offset.toInt ≤ dataSize.toNat
  fails : ∀ fuel b, (run fuel).2 = some b →
    ¬ Transferred dataSize status returns (run fuel).1.length → b = false

theorem Moving.mono {returns : Nat → Int32} {j k : Nat} (h : Moving returns k) (hjk : j ≤ k) :
    Moving returns j := fun i hi => h i (hi.trans_le hjk)

theorem Moving.le_moved {returns : Nat → Int32} {k : Nat} (h : Moving returns k) :
    (k : Int) ≤ moved returns k := by
  induction k with
  | zero => exact le_refl _
  | succ k ih =>
      have hlast := h k (Nat.lt_succ_self k)
      have hbefore := ih (h.mono (Nat.le_succ k))
      rw [moved]
      push_cast
      omega

theorem Moving.moved_mono {returns : Nat → Int32} {j k : Nat} (h : Moving returns k) (hjk : j ≤ k) :
    moved returns j ≤ moved returns k := by
  induction k with
  | zero => rw [Nat.le_zero.mp hjk]
  | succ k ih =>
      rcases Nat.lt_or_eq_of_le hjk with hlt | rfl
      · have hlast := h k (Nat.lt_succ_self k)
        have hbefore := ih (h.mono (Nat.le_succ k)) (Nat.le_of_lt_succ hlt)
        rw [moved]
        omega
      · exact le_refl _

/-! ## The loop -/

/-- `sendedSize` or `receivedSize` before the `k`-th call. -/
def sizeAt (returns : Nat → Int32) : Nat → Int32
  | 0 => 0
  | k + 1 => sizeAt returns k + returns k

section Loop

variable {more : Int32 → Bool} {num : Int32 → Int32} {returns : Nat → Int32}

theorem transferLoop_ne_false (fuel i : Nat) (size : Int32) :
    (transferLoop more num returns fuel i size).2 ≠ some false := by
  induction fuel generalizing i size with
  | zero => exact fun h => by cases h
  | succ fuel ih =>
      rw [transferLoop]
      split
      · exact ih _ _
      · exact fun h => by cases h

/-- The calls are made at the sizes, one after the other, for as long as the guard
holds. -/
theorem transferLoop_calls (fuel i : Nat) : ∃ n,
    (transferLoop more num returns fuel i (sizeAt returns i)).1 =
      (List.range' i n).map (fun j => ⟨sizeAt returns j, num (sizeAt returns j)⟩) ∧
    (∀ j, i ≤ j → j < i + n → more (sizeAt returns j) = true) ∧
    ∀ b, (transferLoop more num returns fuel i (sizeAt returns i)).2 = some b →
      more (sizeAt returns (i + n)) = false := by
  induction fuel generalizing i with
  | zero => exact ⟨0, rfl, fun j hj hlt => absurd hlt (Nat.not_lt.mpr hj), fun b hb => by cases hb⟩
  | succ fuel ih =>
      rw [transferLoop]
      cases hmore : more (sizeAt returns i) with
      | false =>
          exact ⟨0, rfl, fun j hj hlt => absurd hlt (Nat.not_lt.mpr hj), fun _ _ => hmore⟩
      | true =>
          obtain ⟨n, hcalls, hgoes, hstops⟩ := ih (i + 1)
          refine ⟨n + 1, ?_, fun j hj hlt => ?_, fun b hb => ?_⟩
          · rw [List.range'_succ, List.map_cons, ← hcalls]
            rfl
          · rcases Nat.lt_or_eq_of_le hj with hlt' | rfl
            · exact hgoes j hlt' (by omega)
            · exact hmore
          · rw [show i + (n + 1) = i + 1 + n by omega]
            exact hstops b hb

/-- Once the guard fails the loop ends. -/
theorem transferLoop_ends {i k : Nat} (hik : i ≤ k) (hstop : more (sizeAt returns k) = false) :
    ∃ fuel, (transferLoop more num returns fuel i (sizeAt returns i)).2 = some true := by
  induction hd : k - i generalizing i with
  | zero =>
      obtain rfl : i = k := by omega
      refine ⟨1, ?_⟩
      rw [transferLoop, hstop]
      rfl
  | succ d ih =>
      cases hmore : more (sizeAt returns i) with
      | false =>
          refine ⟨1, ?_⟩
          rw [transferLoop, hmore]
          rfl
      | true =>
          obtain ⟨fuel, hfuel⟩ := ih (i := i + 1) (by omega) (by omega)
          refine ⟨fuel + 1, ?_⟩
          rw [transferLoop, hmore]
          exact hfuel

/-- What the guard and the requested size say while the size is not negative. -/
structure Counts (more : Int32 → Bool) (num : Int32 → Int32) (len : Int) : Prop where
  guard : ∀ size : Int32, 0 ≤ size.toInt → (more size = true ↔ size.toInt < len)
  request : ∀ size : Int32, 0 ≤ size.toInt → size.toInt < len → 0 < (num size).toInt →
    (num size).toInt = len - size.toInt

/-- As long as all returns are positive, the size is what was moved. -/
theorem toInt_sizeAt {len : Int} (h : Counts more num len) (hpart : Partial num len returns)
    {k : Nat} (hmoving : Moving returns k) (hbefore : ∀ j < k, moved returns j < len) :
    (sizeAt returns k).toInt = moved returns k ∧
      (k = 0 ∨ moved returns k ≤ len ∧ len < 2 ^ 31) := by
  induction k with
  | zero => exact ⟨rfl, Or.inl rfl⟩
  | succ k ih =>
      obtain ⟨hsize, hbound⟩ := ih (hmoving.mono (Nat.le_succ k))
        fun j hj => hbefore j (hj.trans (Nat.lt_succ_self k))
      have hlast := hmoving k (Nat.lt_succ_self k)
      have hlt := hbefore k (Nat.lt_succ_self k)
      have hnonneg := (hmoving.mono (Nat.le_succ k)).le_moved
      have hasked := hpart k (hmoving.mono (Nat.le_succ k)) hlt hlast
      rw [← hsize, Int32.ofInt_toInt] at hasked
      have hreq := h.request (sizeAt returns k) (by omega) (by omega) (by omega)
      have hnum := (num (sizeAt returns k)).toInt_lt
      have hlen : len < 2 ^ 31 := by
        rcases hbound with rfl | ⟨-, hlen⟩
        · change (sizeAt returns 0).toInt = 0 at hsize
          omega
        · exact hlen
      have hnext : moved returns (k + 1) ≤ len := by
        rw [moved]
        omega
      refine ⟨?_, Or.inr ⟨hnext, hlen⟩⟩
      rw [moved] at hnext ⊢
      rw [sizeAt, Int32.toInt_add, hsize, Int.bmod_eq_of_le (by omega) (by omega)]

/-- A body that comes whole has a length below 2^31: no call is made for more. -/
theorem Whole.lt {len : Int} (hwhole : Whole len returns) (h : Counts more num len)
    (hpart : Partial num len returns) : len < 2 ^ 31 := by
  classical
  obtain ⟨hmoving, hend⟩ := Nat.find_spec hwhole
  have hbefore : ∀ j < Nat.find hwhole, moved returns j < len := by
    intro j hj
    by_contra hle
    exact Nat.find_min hwhole hj ⟨hmoving.mono hj.le, Int.not_lt.mp hle⟩
  rcases (toInt_sizeAt h hpart hmoving hbefore).2 with hzero | ⟨-, hlt⟩
  · rw [hzero, moved] at hend
    omega
  · exact hlt

/-- **A body loop does what a caller expects exactly when the body comes whole.** -/
theorem sound_transferLoop {dataSize : UInt32} (h : Counts more num dataSize.toNat)
    (hpart : Partial num dataSize.toNat returns) :
    Sound dataSize 4 returns (fun fuel => transferLoop more num returns fuel 0 0) ↔
      Whole dataSize.toNat returns := by
  constructor
  · intro hsound
    -- the loop never returns `false`
    obtain ⟨fuel, b, hb⟩ := hsound.ends
    by_contra hpieces
    have hfalse := hsound.fails fuel b hb fun ht => hpieces ⟨_, ht.moving, ht.body⟩
    rw [hfalse] at hb
    exact transferLoop_ne_false fuel 0 0 hb
  · intro hwhole
    classical
    -- the first point at which the body is complete
    obtain ⟨hmoving, hend⟩ := Nat.find_spec hwhole
    have hbefore : ∀ j < Nat.find hwhole, moved returns j < dataSize.toNat := by
      intro j hj
      by_contra hle
      exact Nat.find_min hwhole hj ⟨hmoving.mono hj.le, Int.not_lt.mp hle⟩
    generalize Nat.find hwhole = k at hmoving hend hbefore
    have hsizes : ∀ j ≤ k, (sizeAt returns j).toInt = moved returns j := fun j hj =>
      (toInt_sizeAt h hpart (hmoving.mono hj) fun i hi => hbefore i (hi.trans_le hj)).1
    have hguard : ∀ j ≤ k, (more (sizeAt returns j) = true ↔ j < k) := by
      intro j hj
      have hnonneg := (hmoving.mono hj).le_moved
      rw [h.guard _ (by rw [hsizes j hj]; omega), hsizes j hj]
      refine ⟨fun hlt => ?_, hbefore j⟩
      rcases Nat.lt_or_eq_of_le hj with hlt' | rfl
      · exact hlt'
      · omega
    have hstop : more (sizeAt returns k) = false := by
      rw [← Bool.not_eq_true, hguard k (le_refl k)]
      exact Nat.lt_irrefl k
    -- no loop makes more than `k` calls, and one that ends makes `k`
    have hcalls : ∀ fuel, ∃ n, (transferLoop more num returns fuel 0 0).1 =
        (List.range' 0 n).map (fun j => ⟨sizeAt returns j, num (sizeAt returns j)⟩) ∧ n ≤ k ∧
        ∀ b, (transferLoop more num returns fuel 0 0).2 = some b → n = k := by
      intro fuel
      obtain ⟨n, heq, hgoes, hstops⟩ := @transferLoop_calls more num returns fuel 0
      have hn : n ≤ k := by
        by_contra hlt
        rw [hgoes k (Nat.zero_le k) (by omega)] at hstop
        cases hstop
      refine ⟨n, heq, hn, fun b hb => ?_⟩
      by_contra hne
      have hends := hstops b hb
      rw [Nat.zero_add, ← Bool.not_eq_true, hguard n hn] at hends
      omega
    refine ⟨?_, fun fuel c hc => ?_, fun fuel b hb hpieces => ?_⟩
    · have hends : ∃ fuel, (transferLoop more num returns fuel 0 0).2 = some true :=
        transferLoop_ends (Nat.zero_le k) hstop
      obtain ⟨fuel, hfuel⟩ := hends
      exact ⟨fuel, true, hfuel⟩
    · obtain ⟨n, heq, hn, -⟩ := hcalls fuel
      rw [heq] at hc
      obtain ⟨j, hj, rfl⟩ := List.mem_map.mp hc
      have hjk : j < k := by
        have hlt := (List.mem_range'_1.mp hj).2
        omega
      have hnonneg := (hmoving.mono hjk.le).le_moved
      have hlt := hbefore j hjk
      rw [hsizes j hjk.le]
      omega
    · obtain ⟨n, heq, -, hn⟩ := hcalls fuel
      refine absurd ⟨rfl, ?_, ?_⟩ hpieces <;>
        rw [heq, List.length_map, List.length_range', hn b hb]
      · exact hmoving
      · exact hend

/-- With the check of the length before it. -/
theorem sound_checked {dataSize : UInt32} {status : Int32}
    (hloop : status = 4 →
      (Sound dataSize 4 returns (fun fuel => transferLoop more num returns fuel 0 0) ↔
        dataSize.toNat < 2 ^ 31 ∧ Whole dataSize.toNat returns)) :
    Sound dataSize status returns (fun fuel => if status ≤ 0 then ([], some false)
      else transferLoop more num returns fuel 0 0) ↔
        status ≤ 0 ∨ status = 4 ∧ dataSize.toNat < 2 ^ 31 ∧ Whole dataSize.toNat returns := by
  by_cases hstatus : status ≤ 0
  · simp only [if_pos hstatus]
    exact iff_of_true ⟨⟨0, false, rfl⟩, fun fuel c hc => absurd hc List.not_mem_nil,
      fun fuel b hb _ => (Option.some.inj hb).symm⟩ (Or.inl hstatus)
  · simp only [if_neg hstatus]
    rw [or_iff_right hstatus]
    by_cases hfour : status = 4
    · rw [and_iff_right hfour, hfour]
      exact hloop hfour
    · -- the rest of the length is missing, which the loop does not see
      refine iff_of_false (fun hsound => ?_) fun h => hfour h.1
      obtain ⟨fuel, b, hb⟩ := hsound.ends
      have hfalse := hsound.fails fuel b hb fun ht => hfour ht.prefixed
      rw [hfalse] at hb
      exact transferLoop_ne_false fuel 0 0 hb

end Loop

/-! ## Both directions -/

theorem counts_send (dataSize : UInt32) :
    Counts (moreToSend dataSize) (numToSend dataSize) dataSize.toNat := by
  have hunsigned : ∀ size : Int32, 0 ≤ size.toInt → (size.toUInt32.toNat : Int) = size.toInt := by
    intro size hsize
    have hnat := Int32.toNat_toUInt32_of_le (Int32.le_iff_toInt_le.mpr hsize)
    rw [hnat]
    exact Int.toNat_of_nonneg hsize
  refine ⟨fun size hsize => ?_, fun size hsize hlt hpos => ?_⟩
  · have hnat := hunsigned size hsize
    rw [moreToSend, decide_eq_true_iff, UInt32.lt_iff_toNat_lt]
    omega
  · have hnat := hunsigned size hsize
    have hbound := dataSize.toNat_lt
    have hsub : (dataSize - size.toUInt32).toNat = dataSize.toNat - size.toUInt32.toNat :=
      UInt32.toNat_sub_of_le _ _ (UInt32.le_iff_toNat_le.mpr (by omega))
    have hint : (numToSend dataSize size).toInt =
        if 2 * (dataSize - size.toUInt32).toNat < 2 ^ 32 then
          ((dataSize - size.toUInt32).toNat : Int)
        else ((dataSize - size.toUInt32).toNat : Int) - (2 ^ 32 : Nat) :=
      BitVec.toInt_eq_toNat_cond _
    rw [hint] at hpos ⊢
    split at hpos <;> omega

theorem counts_receive (len : Int32) :
    Counts (moreToReceive len) (numToReceive len) len.toInt := by
  refine ⟨fun size _ => ?_, fun size hsize hlt _ => ?_⟩
  · rw [moreToReceive, decide_eq_true_iff, Int32.lt_iff_toInt_lt]
  · have hbound := len.toInt_lt
    rw [numToReceive, Int32.toInt_sub, Int.bmod_eq_of_le (by omega) (by omega)]

theorem readLen_four (dataSize : UInt32) : readLen dataSize 4 = dataSize.toInt32 := by
  rw [readLen, show (256 : Nat) ^ (4 : Int32).toInt.toNat = 2 ^ 32 by decide,
    Nat.mod_eq_of_lt dataSize.toNat_lt, UInt32.ofNat_toNat]

theorem toInt_toInt32 (dataSize : UInt32) : dataSize.toInt32.toInt =
    if dataSize.toNat < 2 ^ 31 then (dataSize.toNat : Int) else (dataSize.toNat : Int) - 2 ^ 32 := by
  have hint : dataSize.toInt32.toInt = if 2 * dataSize.toNat < 2 ^ 32 then (dataSize.toNat : Int)
      else (dataSize.toNat : Int) - (2 ^ 32 : Nat) := BitVec.toInt_eq_toNat_cond _
  have hiff : dataSize.toNat < 2 ^ 31 ↔ 2 * dataSize.toNat < 2 ^ 32 := by omega
  rw [hint]
  simp only [hiff]
  rfl

/-- A length from 2^31 on is negative: `ReceiveData` reads nothing. -/
theorem not_sound_receive {dataSize : UInt32} (hlarge : ¬ dataSize.toNat < 2 ^ 31) :
    ¬ Sound dataSize 4 returns (fun fuel => transferLoop (moreToReceive dataSize.toInt32)
      (numToReceive dataSize.toInt32) returns fuel 0 0) := by
  intro hsound
  have hlt : 2 ^ 31 ≤ dataSize.toNat := Nat.not_lt.mp hlarge
  have hmore : moreToReceive dataSize.toInt32 0 = false := by
    have hbound := dataSize.toNat_lt
    rw [moreToReceive, decide_eq_false_iff_not, Int32.lt_iff_toInt_lt, toInt_toInt32, if_neg hlarge,
      show (0 : Int32).toInt = 0 by decide]
    omega
  have hrun : transferLoop (moreToReceive dataSize.toInt32) (numToReceive dataSize.toInt32) returns
      1 0 0 = ([], some true) := by
    rw [transferLoop, hmore]
    rfl
  refine absurd (hsound.fails 1 true (by rw [hrun]) fun ht => ?_) (by decide)
  have hbody := ht.body
  rw [hrun, List.length_nil, moved] at hbody
  omega

/-- **Sending and receiving are sound exactly when** nothing of the length goes
through, or all of it, with a body below 2^31 bytes and only positive returns until
it is complete. In every other case a message that is not whole goes unnoticed: no
loop returns `false`. -/
theorem framed_iff (dataSize : UInt32) (status : Int32) (returns : Nat → Int32) :
    (Partial (numToSend dataSize) dataSize.toNat returns →
      (Sound dataSize status returns (sendData dataSize status returns) ↔
        status ≤ 0 ∨ status = 4 ∧ dataSize.toNat < 2 ^ 31 ∧ Whole dataSize.toNat returns)) ∧
    (Partial (numToReceive (readLen dataSize status)) (readLen dataSize status).toInt returns →
      (Sound dataSize status returns (receiveData dataSize status returns) ↔
        status ≤ 0 ∨ status = 4 ∧ dataSize.toNat < 2 ^ 31 ∧ Whole dataSize.toNat returns)) := by
  refine ⟨fun hpart => ?_, fun hpart => ?_⟩
  · unfold sendData
    refine sound_checked fun _ => (sound_transferLoop (counts_send dataSize) hpart).trans
      (iff_and_self.mpr fun hwhole => ?_)
    have hlt := hwhole.lt (counts_send dataSize) hpart
    omega
  · unfold receiveData
    refine sound_checked fun hfour => ?_
    rw [hfour, readLen_four] at hpart ⊢
    by_cases hsmall : dataSize.toNat < 2 ^ 31
    · have hlen := toInt_toInt32 dataSize
      rw [if_pos hsmall] at hlen
      have hcounts := counts_receive dataSize.toInt32
      rw [hlen] at hcounts hpart
      rw [and_iff_right hsmall]
      exact sound_transferLoop hcounts hpart
    · exact iff_of_false (not_sound_receive hsmall) fun h => hsmall h.1

/-- Ten bytes in two parts. -/
def twoParts (i : Nat) : Int32 := if i = 0 then 4 else 6

theorem framed_iff_twoParts : Sound 10 4 twoParts (receiveData 10 4 twoParts) ∧
    Sound 10 4 twoParts (sendData 10 4 twoParts) := by
  have hlater : ∀ k, Moving twoParts (k + 2) → ¬ moved twoParts (k + 2) < 10 := by
    intro k hmoving
    have hle := hmoving.moved_mono (show 2 ≤ k + 2 by omega)
    change 10 ≤ _ at hle
    exact Int.not_lt.mpr hle
  have hreceive : Partial (numToReceive 10) 10 twoParts := by
    intro k hmoving hlt _
    match k with
    | 0 => decide
    | 1 => decide
    | k + 2 => exact absurd hlt (hlater k hmoving)
  have hsend : Partial (numToSend 10) 10 twoParts := by
    intro k hmoving hlt _
    match k with
    | 0 => decide
    | 1 => decide
    | k + 2 => exact absurd hlt (hlater k hmoving)
  have hmoving : Moving twoParts 2 := by
    intro i _
    unfold twoParts
    split <;> decide
  have hwhole : Whole (10 : UInt32).toNat twoParts := ⟨2, hmoving, by decide⟩
  exact ⟨((framed_iff 10 4 twoParts).2 hreceive).mpr (Or.inr ⟨rfl, by decide, hwhole⟩),
    ((framed_iff 10 4 twoParts).1 hsend).mpr (Or.inr ⟨rfl, by decide, hwhole⟩)⟩

/-- Four bytes, and nothing after them. -/
def goneAfterFour (i : Nat) : Int32 := if i = 0 then 4 else 0

/-- Four bytes, and errors after them. -/
def resetAfterFour (i : Nat) : Int32 := if i = 0 then 4 else -5

theorem partial_afterFour (num : Int32 → Int32) (returns : Nat → Int32) (hfirst : returns 0 = 4)
    (hnum : num 0 = 10) (hrest : ∀ k, (returns (k + 1)).toInt ≤ 0) :
    Partial num 10 returns ∧ ∀ k, ¬ Transferred 10 4 returns k := by
  refine ⟨fun k _ _ hpos => ?_, fun k ht => ?_⟩
  · match k with
    | 0 =>
        change (returns 0).toInt ≤ (num 0).toInt
        rw [hfirst, hnum]
        decide
    | k + 1 => exact absurd (hrest k) (Int.not_le.mpr hpos)
  · have hbody : 10 ≤ moved returns k := ht.body
    match k with
    | 0 =>
        rw [moved] at hbody
        omega
    | 1 =>
        rw [moved, moved, hfirst, show (4 : Int32).toInt = 4 by decide] at hbody
        omega
    | k + 2 => exact absurd (hrest 0) (Int.not_le.mpr (ht.moving 1 (by omega)))

/-- A receiver whose peer is gone after four of ten bytes, and a sender that gets
errors there: neither is told. -/
theorem framed_afterFour :
    ¬ (∀ (dataSize : UInt32) (readStatus : Int32) (returns : Nat → Int32),
      Partial (numToReceive (readLen dataSize readStatus)) (readLen dataSize readStatus).toInt
        returns → Sound dataSize readStatus returns (receiveData dataSize readStatus returns)) ∧
    ¬ ∀ (dataSize : UInt32) (writeStatus : Int32) (returns : Nat → Int32),
      Partial (numToSend dataSize) dataSize.toNat returns →
        Sound dataSize writeStatus returns (sendData dataSize writeStatus returns) := by
  constructor
  · intro hclaim
    obtain ⟨hpart, hpieces⟩ := partial_afterFour (numToReceive 10) goneAfterFour rfl rfl
      fun k => le_refl 0
    have hsound := hclaim 10 4 goneAfterFour hpart
    obtain ⟨fuel, b, hb⟩ := hsound.ends
    have hfalse := hsound.fails fuel b hb (hpieces _)
    rw [hfalse] at hb
    exact transferLoop_ne_false fuel 0 0 hb
  · intro hclaim
    obtain ⟨hpart, hpieces⟩ := partial_afterFour (numToSend 10) resetAfterFour rfl rfl
      fun k => by change (-5 : Int32).toInt ≤ 0; decide
    have hsound := hclaim 10 4 resetAfterFour hpart
    have hfalse := hsound.fails 3 true rfl (hpieces _)
    cases hfalse

end SSLConnection

end ShieldReduce

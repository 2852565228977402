import ShieldReduce.Lz4.Compress
import ShieldReduce.Lz4.Copies

/-!
# What the encoder finds and writes

The length of a match is the length of the longest common run in front of
`matchlimit`, though it is measured by words. That it is the longest is
what keeps the hash table behind the input position: a position that was
entered while a match was looked for lies inside that match.

What is written is stated as a string appended to the output (`Puts`),
whatever the code has written further than that.
-/

namespace ShieldReduce.Lz4

open ByteLib

/-! ## Measuring a match -/

variable {src : Mem} {iend oend limit : Nat}

/-- Fewer than `n` bytes from `p` and `m` on are the same. -/
def Short (src : Mem) (limit p m n : Nat) : Prop :=
  ¬ (p + n ≤ limit ∧ slice src p n = slice src m n)

theorem Short.step {p m n : Nat} (h : Short src limit p m (n + n))
    (heq : slice src p n = slice src m n) : Short src limit (p + n) (m + n) n := fun hmore =>
  h ⟨by omega, slice_eq_add heq hmore.2⟩

/-- Where a common run from `p` ends. -/
structure Common (src : Mem) (limit p m q : Nat) : Prop where
  le : p ≤ q
  le_limit : q ≤ limit
  same : slice src p (q - p) = slice src m (q - p)

theorem Common.refl {p m : Nat} (h : p ≤ limit) : Common src limit p m p :=
  ⟨le_refl _, h, by rw [Nat.sub_self, slice_zero, slice_zero]⟩

theorem Common.trans {p m n q : Nat} (heq : slice src p n = slice src m n)
    (h : Common src limit (p + n) (m + n) q) : Common src limit p m q := by
  have hle := h.le
  have hsub : q - p = n + (q - (p + n)) := by omega
  exact ⟨by omega, h.le_limit, hsub ▸ slice_eq_add heq h.same⟩

/-- A common run that cannot be longer. -/
def Longest (src : Mem) (limit p m q : Nat) : Prop :=
  Common src limit p m q ∧ Short src limit q (m + (q - p)) 1

/-- It is at least as long as any other. -/
theorem Longest.le {p m q n : Nat} (h : Longest src limit p m q) (hn : p + n ≤ limit)
    (heq : slice src p n = slice src m n) : p + n ≤ q := by
  by_contra hlt
  have hle := h.1.le
  refine h.2 ⟨by omega, ?_⟩
  have hbyte := slice_eq_iff.mp heq (q - p) (by omega)
  have hq : p + (q - p) = q := by omega
  rw [hq] at hbyte
  rw [slice, slice]
  simp [hbyte]

/-- Two reads of `n` bytes. -/
theorem inside_readTwo {p m n : Nat} {l : List Access} (hp : p + n ≤ iend) (hm : m ≤ p)
    (hl : ∀ a ∈ l, a.Inside iend oend) :
    ∀ a ∈ Access.src p n :: .src m n :: l, a.Inside iend oend := by
  intro a ha
  rcases List.mem_cons.mp ha with rfl | ha
  · exact hp
  · rcases List.mem_cons.mp ha with rfl | ha
    · show m + n ≤ iend
      omega
    · exact hl a ha

theorem countWords_spec (src : Mem) (oend : Nat) (hlimit : limit ≤ iend) :
    ∀ (fuel p m : Nat) (l : List Access),
    limit < p + fuel → p ≤ limit → m ≤ p → (∀ a ∈ l, a.Inside iend oend) →
    Common src limit p m (countWords src limit fuel p m l).1 ∧
      (if (countWords src limit fuel p m l).2.1 then
        Short src limit (countWords src limit fuel p m l).1
          (m + ((countWords src limit fuel p m l).1 - p)) 1
      else limit < (countWords src limit fuel p m l).1 + 8) ∧
      ∀ a ∈ (countWords src limit fuel p m l).2.2, a.Inside iend oend
  | 0, p, m, l, hfuel, hp, _, _ => absurd hp (by omega)
  | fuel + 1, p, m, l, hfuel, hp, hm, hl => by
      rw [countWords]
      split
      · rename_i hgo
        simp only [STEPSIZE] at hgo
        have hl' := inside_readTwo (show p + STEPSIZE ≤ iend by simp only [STEPSIZE]; omega) hm hl
        simp only
        split
        · rename_i hsame
          have heq := readLE_eq_iff.mp (Nat.xor_eq_zero_iff.mp hsame)
          obtain ⟨hcommon, hend, hin⟩ := countWords_spec src oend hlimit fuel (p + STEPSIZE) (m + STEPSIZE) _
            (by simp only [STEPSIZE]; omega) (by simp only [STEPSIZE]; omega) (by omega) hl'
          refine ⟨hcommon.trans heq.symm, ?_, hin⟩
          have hle := hcommon.le
          generalize countWords src limit fuel (p + STEPSIZE) (m + STEPSIZE) _ = w at hle hend ⊢
          have hpos : m + STEPSIZE + (w.1 - (p + STEPSIZE)) = m + (w.1 - p) := by omega
          rwa [hpos] at hend
        · rename_i hdiff
          obtain ⟨hlt, heq, hne⟩ := common_bytes hdiff
          have hc : nbCommonBytes (readLE src m STEPSIZE ^^^ readLE src p STEPSIZE) =
            ctz (8 * STEPSIZE) (readLE src m STEPSIZE ^^^ readLE src p STEPSIZE) / 8 := rfl
          rw [← hc] at hlt heq hne
          generalize nbCommonBytes (readLE src m STEPSIZE ^^^ readLE src p STEPSIZE) = c at *
          simp only [STEPSIZE] at hlt
          refine ⟨⟨by omega, by omega, ?_⟩, ?_, hl'⟩
          · rw [Nat.add_sub_cancel_left]
            exact heq.symm
          · rw [if_pos rfl, Nat.add_sub_cancel_left]
            rintro ⟨-, hsame⟩
            exact hne (List.head_eq_of_cons_eq hsame).symm
      · rename_i hstop
        simp only [STEPSIZE] at hstop
        refine ⟨.refl hp, ?_, hl⟩
        rw [if_neg Bool.false_ne_true]
        omega

/-- Steps each half as long as the one before, down to a single byte. -/
def Halving : Nat → List Nat → Prop
  | b, [] => b = 1
  | b, n :: sizes => b = n + n ∧ 0 < n ∧ Halving n sizes

theorem countTail_spec (src : Mem) (oend : Nat) (hlimit : limit ≤ iend) : ∀ (sizes : List Nat) (b p m : Nat)
    (l : List Access), Halving b sizes → Short src limit p m b → p ≤ limit → m ≤ p →
    (∀ a ∈ l, a.Inside iend oend) →
    Longest src limit p m (countTail src limit sizes p m l).1 ∧
      ∀ a ∈ (countTail src limit sizes p m l).2, a.Inside iend oend
  | [], b, p, m, l, hb, hshort, hp, _, hl => by
      have hb' : b = 1 := hb
      refine ⟨⟨.refl hp, ?_⟩, hl⟩
      rw [hb'] at hshort
      rwa [countTail, Nat.sub_self]
  | n :: sizes, b, p, m, l, hb, hshort, hp, hm, hl => by
      obtain ⟨rfl, hn, hsizes⟩ := hb
      rw [countTail]
      split
      · rename_i hroom
        have hroom' : p + n ≤ limit := by omega
        have hl' := inside_readTwo (show p + n ≤ iend by omega) hm hl
        simp only
        split
        · rename_i hsame
          have heq := (readLE_eq_iff.mp hsame).symm
          obtain ⟨⟨hcommon, hlast⟩, hin⟩ := countTail_spec src oend hlimit sizes n (p + n) (m + n) _ hsizes
            (hshort.step heq) hroom' (by omega) hl'
          refine ⟨⟨hcommon.trans heq, ?_⟩, hin⟩
          have hle := hcommon.le
          generalize countTail src limit sizes (p + n) (m + n) _ = w at hle hlast ⊢
          have hpos : m + n + (w.1 - (p + n)) = m + (w.1 - p) := by omega
          rwa [hpos] at hlast
        · rename_i hdiff
          exact countTail_spec src oend hlimit sizes n p m _ hsizes
            (fun hsame => hdiff (readLE_eq_iff.mpr hsame.2.symm)) hp hm hl'
      · rename_i hroom
        exact countTail_spec src oend hlimit sizes n p m _ hsizes (fun hsame => hroom (by omega)) hp hm hl

/-- `LZ4_count` measures the longest common run. -/
theorem count_spec (src : Mem) (oend : Nat) (p m limit : Nat) (hlimit : limit ≤ iend)
    (hp : p ≤ limit) (hm : m ≤ p) :
    Longest src limit p m (p + (count src p m limit).1) ∧
      ∀ a ∈ (count src p m limit).2, a.Inside iend oend := by
  obtain ⟨hcommon, hend, hin⟩ := countWords_spec src oend hlimit (limit + 1) p m [] (by omega)
    hp hm (fun a ha => absurd ha (List.not_mem_nil))
  have hle := hcommon.le
  rw [count]
  generalize countWords src limit (limit + 1) p m [] = w at hcommon hend hin hle ⊢
  have hq : p + (w.1 - p) = w.1 := by omega
  simp only
  split
  · rename_i hdiff
    rw [if_pos hdiff] at hend
    simp only [hq]
    exact ⟨⟨hcommon, hend⟩, hin⟩
  · rename_i hsame
    rw [if_neg hsame] at hend
    obtain ⟨⟨hcommon', hlast⟩, hin'⟩ := countTail_spec src oend hlimit [4, 2, 1] 8 w.1 (m + (w.1 - p)) w.2.2
      ⟨rfl, by decide, rfl, by decide, rfl, by decide, rfl⟩ (fun hshort => by omega)
      hcommon.le_limit (by omega) hin
    have hle' := hcommon'.le
    generalize countTail src limit [4, 2, 1] w.1 (m + (w.1 - p)) w.2.2 = r at *
    have hr : p + (r.1 - p) = r.1 := by omega
    have hcommon'' : Common src limit (p + (w.1 - p)) (m + (w.1 - p)) r.1 := hq.symm ▸ hcommon'
    simp only [hr]
    refine ⟨⟨hcommon''.trans hcommon.same, ?_⟩, hin'⟩
    have hpos : m + (w.1 - p) + (r.1 - w.1) = m + (r.1 - p) := by omega
    rwa [hpos] at hlast

/-- Going back as long as the bytes are the same. -/
theorem catchUp_spec (src : Mem) {iend : Nat} (oend anchor : Nat) :
    ∀ (m ip : Nat) (l : List Access), anchor ≤ ip → m < ip →
    ip ≤ iend → (∀ a ∈ l, a.Inside iend oend) →
    ∃ k, (catchUp src anchor ip m l).1 + k = ip ∧ (catchUp src anchor ip m l).2.1 + k = m ∧
      anchor ≤ (catchUp src anchor ip m l).1 ∧
      slice src (catchUp src anchor ip m l).1 k = slice src (catchUp src anchor ip m l).2.1 k ∧
      ∀ a ∈ (catchUp src anchor ip m l).2.2, a.Inside iend oend
  | 0, ip, l, hanchor, _, _, hl => ⟨0, rfl, rfl, hanchor, rfl, hl⟩
  | m + 1, ip, l, hanchor, hm, hip, hl => by
      rw [catchUp]
      split
      · rename_i hlt
        have hl' := inside_readTwo (show ip - 1 + 1 ≤ iend by omega) (show m ≤ ip - 1 by omega) hl
        simp only
        split
        · rename_i hsame
          obtain ⟨k, hk, hk', hanchor', heq, hin⟩ := catchUp_spec src oend anchor m (ip - 1) _ (by omega)
            (by omega) (show ip - 1 ≤ iend by omega) hl'
          refine ⟨k + 1, by omega, by omega, hanchor', slice_eq_succ heq ?_, hin⟩
          rwa [hk, hk']
        · exact ⟨0, rfl, rfl, hanchor, rfl, hl'⟩
      · exact ⟨0, rfl, rfl, hanchor, rfl, hl⟩

/-! ## Writing -/

namespace Encoder

variable {cap : Nat} {e e' e'' : Encoder}

/-- Everything that was accessed is in the buffers. -/
def Inside (iend oend : Nat) (e : Encoder) : Prop := ∀ a ∈ e.accesses, a.Inside iend oend

theorem Inside.log (h : e.Inside iend oend) {l : List Access} (hl : ∀ a ∈ l, a.Inside iend oend) :
    (e.log l).Inside iend oend := by
  intro a ha
  rcases List.mem_append.mp ha with ha | ha
  · exact hl a ha
  · exact h a ha

theorem Inside.read (h : e.Inside iend oend) {pos n : Nat} (hpos : pos + n ≤ iend) :
    (e.log [.src pos n]).Inside iend oend :=
  h.log fun a ha => by rw [List.mem_singleton.mp ha]; exact hpos

theorem Inside.store (h : e.Inside iend oend) {pos : Nat} {xs : Bytes}
    (hpos : pos + xs.length ≤ oend) : (e.store pos xs).Inside iend oend := by
  intro a ha
  rcases List.mem_cons.mp ha with rfl | ha
  · exact hpos
  · exact h a ha

theorem Inside.of_accesses (h : e.Inside iend oend) (heq : e'.accesses = e.accesses) :
    e'.Inside iend oend := fun a ha => h a (heq ▸ ha)

/-- `xs` was written behind the output. -/
structure Puts (iend cap : Nat) (e : Encoder) (xs : Bytes) (e' : Encoder) : Prop where
  ip_eq : e'.ip = e.ip
  anchor_eq : e'.anchor = e.anchor
  table_eq : e'.hashTable = e.hashTable
  op_eq : e'.op = e.op + xs.length
  below : ∀ i, i < e.op → e'.dst i = e.dst i
  written : slice e'.dst e.op xs.length = xs
  inside : e'.Inside iend cap

theorem Puts.refl (h : e.Inside iend cap) : Puts iend cap e [] e :=
  ⟨rfl, rfl, rfl, rfl, fun _ _ => rfl, rfl, h⟩

theorem Puts.trans {xs ys : Bytes} (h : Puts iend cap e xs e') (h' : Puts iend cap e' ys e'') :
    Puts iend cap e (xs ++ ys) e'' where
  ip_eq := h'.ip_eq.trans h.ip_eq
  anchor_eq := h'.anchor_eq.trans h.anchor_eq
  table_eq := h'.table_eq.trans h.table_eq
  op_eq := by rw [h'.op_eq, h.op_eq, List.length_append, Nat.add_assoc]
  below := fun i hi => (h'.below i (by rw [h.op_eq]; omega)).trans (h.below i hi)
  written := by
    have hfirst : slice e''.dst e.op xs.length = slice e'.dst e.op xs.length :=
      slice_congr fun i _ hi => h'.below i (by rw [h.op_eq]; exact hi)
    rw [List.length_append, slice_add, hfirst, h.written, ← h.op_eq, h'.written]
  inside := h'.inside

/-- Of what was written the end may be left to be written over. -/
theorem Puts.cut {xs : Bytes} (h : Puts iend cap e xs e') {k : Nat} (hk : k ≤ xs.length) :
    Puts iend cap e (xs.take k) { e' with op := e.op + k } where
  ip_eq := h.ip_eq
  anchor_eq := h.anchor_eq
  table_eq := h.table_eq
  op_eq := by rw [List.length_take, Nat.min_eq_left hk]
  below := h.below
  written := by rw [List.length_take, Nat.min_eq_left hk, ← take_slice hk, h.written]
  inside := h.inside

theorem Puts.log {xs : Bytes} (h : Puts iend cap e xs e') {l : List Access}
    (hl : ∀ a ∈ l, a.Inside iend cap) : Puts iend cap e xs (e'.log l) :=
  { h with inside := h.inside.log hl }

theorem Puts.move {xs : Bytes} (h : Puts iend cap e xs e') (ip : Nat) :
    Puts iend cap { e with ip := ip } xs { e' with ip := ip } :=
  ⟨rfl, h.anchor_eq, h.table_eq, h.op_eq, h.below, h.written, h.inside.of_accesses rfl⟩

theorem Puts.head {x : UInt8} {xs : Bytes} (h : Puts iend cap e (x :: xs) e') :
    e'.dst e.op = x := by
  have hbytes := h.written
  rw [List.length_cons, slice_succ'] at hbytes
  exact List.head_eq_of_cons_eq hbytes

/-- The first byte written again. -/
theorem Puts.patch {x : UInt8} {xs : Bytes} (h : Puts iend cap e (x :: xs) e') (y : UInt8)
    (hroom : e.op + 1 ≤ cap) : Puts iend cap e (y :: xs) (e'.store e.op [y]) where
  ip_eq := h.ip_eq
  anchor_eq := h.anchor_eq
  table_eq := h.table_eq
  op_eq := h.op_eq
  below := fun i hi => (Mem.write_of_lt [y] hi).trans (h.below i hi)
  written := by
    have hbytes := h.written
    have hy : e'.dst.write e.op [y] e.op = y := Mem.write_add (show 0 < [y].length from Nat.one_pos)
    have hrest : slice (e'.dst.write e.op [y]) (e.op + 1) xs.length =
        slice e'.dst (e.op + 1) xs.length :=
      slice_congr fun i hi _ => if_neg (by rw [List.length_singleton]; omega)
    rw [List.length_cons, slice_succ'] at hbytes ⊢
    show e'.dst.write e.op [y] e.op :: slice (e'.dst.write e.op [y]) (e.op + 1) xs.length = y :: xs
    rw [hy, hrest, List.tail_eq_of_cons_eq hbytes]
  inside := h.inside.store hroom

theorem puts_put (h : e.Inside iend cap) (xs : Bytes) (hroom : e.op + xs.length ≤ cap) :
    Puts iend cap e xs (e.put xs) where
  ip_eq := rfl
  anchor_eq := rfl
  table_eq := rfl
  op_eq := rfl
  below := fun i hi => Mem.write_of_lt xs hi
  written := by
    have htake : slice (e.dst.write e.op xs) e.op xs.length = xs.take xs.length :=
      slice_write_take (le_refl xs.length)
    rwa [List.take_length] at htake
  inside := (h.store hroom).of_accesses rfl

/-- `len` in bytes of which only the last is not 255. -/
def runBytes (len : Nat) : Bytes := List.replicate (len / 255) 255 ++ [UInt8.ofNat (len % 255)]

@[simp] theorem length_runBytes (len : Nat) : (runBytes len).length = len / 255 + 1 := by
  simp [runBytes]

theorem lengthBytes_eq_runBytes {n : Nat} (h : RUN_MASK ≤ n) :
    lengthBytes n = runBytes (n - RUN_MASK) := if_neg (by omega)

theorem runBytes_of_lt {len : Nat} (h : len < 255) : runBytes len = [UInt8.ofNat len] := by
  rw [runBytes, Nat.div_eq_of_lt h, Nat.mod_eq_of_lt h]
  rfl

theorem runBytes_add (len k : Nat) :
    runBytes (len + k * 255) = List.replicate k 255 ++ runBytes len := by
  rw [runBytes, runBytes, Nat.add_mul_div_right _ _ (by decide), Nat.add_mul_mod_self_right,
    Nat.add_comm, List.replicate_add, List.append_assoc]

theorem putLength_puts : ∀ (fuel len : Nat) {e : Encoder}, len < fuel → e.Inside iend cap →
    e.op + len / 255 + 1 ≤ cap → Puts iend cap e (runBytes len) (e.putLength fuel len)
  | 0, _, _, hfuel, _, _ => absurd hfuel (by omega)
  | fuel + 1, len, e, hfuel, h, hroom => by
      rw [putLength]
      split
      · obtain ⟨rest, rfl⟩ : ∃ rest, len = rest + 1 * 255 := ⟨len - 255, by omega⟩
        have hputs := puts_put h [255] (show e.op + [(255 : UInt8)].length ≤ cap by
          rw [List.length_singleton]
          omega)
        have hop : (e.put [255]).op = e.op + 1 := rfl
        have ih := putLength_puts fuel rest (e := e.put [255]) (by omega) hputs.inside
          (by rw [hop]; omega)
        rw [runBytes_add, Nat.add_sub_cancel]
        exact hputs.trans ih
      · rw [runBytes_of_lt (by omega)]
        exact puts_put h _ (by rw [List.length_singleton]; omega)

theorem putMatchLength_puts : ∀ (fuel matchCode : Nat) {e : Encoder}, matchCode < fuel →
    e.Inside iend cap → e.op + matchCode / 255 + 4 ≤ cap →
    Puts iend cap e (runBytes matchCode) (e.putMatchLength fuel matchCode)
  | 0, _, _, hfuel, _, _ => absurd hfuel (by omega)
  | fuel + 1, matchCode, e, hfuel, h, hroom => by
      have hroom4 : e.op + [(255 : UInt8), 255, 255, 255].length ≤ cap := by
        show e.op + 4 ≤ cap
        omega
      rw [putMatchLength]
      split
      · obtain ⟨rest, rfl⟩ : ∃ rest, matchCode = rest + 4 * 255 := ⟨matchCode - 4 * 255, by omega⟩
        have hputs := puts_put h _ hroom4
        have ih := putMatchLength_puts fuel rest
          (e := e.put [255, 255, 255, 255]) (by omega) hputs.inside
          (by show e.op + 4 + rest / 255 + 4 ≤ cap; omega)
        rw [runBytes_add, Nat.add_sub_cancel]
        exact hputs.trans ih
      · have hk : matchCode / 255 ≤ 4 := by omega
        have hputs := (puts_put h _ hroom4).cut (k := matchCode / 255) hk
        have hlast := puts_put hputs.inside [UInt8.ofNat (matchCode % 255)]
          (by show e.op + matchCode / 255 + 1 ≤ cap; omega)
        have htake : [(255 : UInt8), 255, 255, 255].take (matchCode / 255) =
            List.replicate (matchCode / 255) 255 := by
          have hreplicate : [(255 : UInt8), 255, 255, 255] = List.replicate 4 255 := rfl
          rw [hreplicate, List.take_replicate, Nat.min_eq_left hk]
        rw [htake] at hputs
        exact hputs.trans hlast

/-- Literals, in copies of eight bytes. -/
theorem wildCopy8_puts (src : Mem) (h : e.Inside iend cap) {ip n : Nat} (hroom : e.op + 8 ≤ cap)
    (hroom' : e.op + n + 7 ≤ cap) (hip : ip + n + 8 ≤ iend) :
    Puts iend cap e (slice src ip n)
      { e.wildCopy8 src e.op ip (e.op + n) with op := e.op + n } := by
  obtain ⟨last, hlast, -, -, hle, hputs⟩ := wildCopy_inv
    (fun pos e' => (e'.store pos (slice src (ip + (pos - e.op)) 8)).log
      [.src (ip + (pos - e.op)) 8]) 8 (e.op + n)
    (fun pos (t : Encoder) => e.op ≤ pos ∧
      Puts iend cap e (slice src ip (pos - e.op)) { t with op := pos }) (by decide)
    (e.op + n) e.op e (by omega)
    (fun p t hp hor ht => by
      refine ⟨by omega, ?_⟩
      have hput := puts_put ht.2.inside (slice src (ip + (p - e.op)) 8)
        (by rw [length_slice]; show p + 8 ≤ cap; omega)
      have hsub : p + 8 - e.op = (p - e.op) + 8 := by omega
      rw [hsub, slice_add]
      refine (ht.2.trans hput).log fun a ha => ?_
      rw [List.mem_singleton.mp ha]
      show ip + (p - e.op) + 8 ≤ iend
      omega)
    ⟨le_refl _, by rw [Nat.sub_self]; exact .refl h⟩
  have hcut := hputs.cut (k := n) (by rw [length_slice]; omega)
  rwa [take_slice (by omega)] at hcut

end Encoder

end ShieldReduce.Lz4

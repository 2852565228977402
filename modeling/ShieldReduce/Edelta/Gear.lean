import ShieldReduce.Lib.Bytes

/-!
# Gear chunking

The content-defined chunkers of `edelta/util.cc`, over a rolling gear
hash of 32 bits: `chunkGear` finds the end of one chunk, and
`rollingGearV3` cuts up to a given number of them. A chunk ends where
the bits of `STRAVG` in the fingerprint vanish, and after `STRMAX` bytes
at the latest; no cut is looked for in its first `STRMIN` bytes. Here
the chunkers only have to make progress and to stay inside the buffer.
-/

namespace ShieldReduce.Edelta

open ByteLib

def STRMIN : Nat := 12

def STRMAX : Nat := 64

def STRAVG : UInt32 := 28

/-- The initialiser of `GEAR[256]` has 255 entries; the last element is 0. -/
def GEAR : Array UInt32 := #[
    0x4b8fbc70, 0x95a75be0, 0x7fa97617, 0xdb51a0d, 0x7c71d5b3, 0x97842403, 0x87d60b89, 0x10c081cb,
    0x176c2faf, 0xc7392648, 0x2f15cf70, 0x842062ac, 0x7d19bc1b, 0xc9a22b6d, 0x29f65703, 0x54f0a470,
    0x4913c078, 0x91dd2661, 0xce401296, 0x1080796b, 0x3c6ba084, 0x291fd606, 0x1be96ae, 0x5e104df3,
    0x953a3946, 0xd59e7f77, 0x9f4734d9, 0xf095c27c, 0xe4448418, 0x47ca4676, 0xe9131404, 0xc6965ee3,
    0x2f46c05a, 0x8ba2c750, 0x5fb2fec6, 0xaae07db7, 0xf96ad818, 0xaed74a8d, 0x3b73296d, 0x42b47c83,
    0x3f14fa76, 0xe775583b, 0x8583a649, 0xe347effd, 0x1814ed33, 0xd747a499, 0x1241b4c, 0xc2ba1de6,
    0x9e459ecd, 0xf2cb801a, 0xb1575ba0, 0x57230ea3, 0xfd6e88ca, 0x1d0501a2, 0xf33ed508, 0x531f339c,
    0xece73621, 0x2171ee60, 0xc545563a, 0x3b68b071, 0x480657e4, 0x69b955c1, 0x954a24b1, 0xc458ee33,
    0x48958571, 0xccdd1652, 0xa67ad0f0, 0xa93e0890, 0x8255fe6, 0xc190ff58, 0x6d2966a, 0x1e3e1a20,
    0x1649fd23, 0xa5452efe, 0x247ce55, 0xf4220d84, 0xf817eb4b, 0xab0ff6bf, 0xd98c80da, 0xbb660cad,
    0xce39b4a0, 0xebfa6bfe, 0xc4baba1b, 0x5cfd0930, 0x7cdba262, 0xab2c4cdb, 0xdd1858e7, 0x7aa35c54,
    0x36c7793b, 0xc3298957, 0x5212e006, 0x772a10b3, 0x4b412801, 0x6348ea44, 0x90b7a8c, 0xf3903817,
    0x55ec8d5, 0xd39bca5e, 0xa19e4f8b, 0xf8472700, 0xd792025e, 0xcfdc83e0, 0x576880c7, 0xcbaa6558,
    0x692f5350, 0x1400ee49, 0x3a89aa8b, 0x46873d99, 0x63ecb853, 0x9860b122, 0x31685257, 0x32874e3d,
    0x6b44e063, 0x87525cd0, 0xf0a5025c, 0x6ccb4020, 0xf1d8849d, 0x414f66e7, 0x6afed5a4, 0x9a9befeb,
    0xd6e18fdc, 0x27129a4c, 0x7d6bcf28, 0x37fa944a, 0xe9b09b54, 0x9159093, 0x4a31242, 0x28d0d7d2,
    0x97e8d65a, 0xfcf68625, 0x1800702, 0x39dbe43f, 0x35da0210, 0xa6c68d9, 0x68500f4e, 0xc8a5ab6e,
    0x8b2b756a, 0xd5fb25bd, 0xb0c0405d, 0xc453b18c, 0xe2e66ea4, 0xda553370, 0x7dbc5759, 0x886eeab,
    0x9fafd0e5, 0x4e430b, 0x8331c2e5, 0x5a5d06b4, 0xe43f7b9d, 0xf3ec3644, 0x6a46d11, 0xcd41e503,
    0xa18a2e19, 0xadde1ea1, 0x36f7488e, 0x455255bd, 0x8075175e, 0x88d32d58, 0x9a0a25b0, 0x970e0c67,
    0x77b009e, 0x12d5bf75, 0xdc7fd18, 0xde77a2bb, 0x6ab176e0, 0xa6ab6c09, 0x6210efa8, 0xd947e049,
    0x5fb01605, 0xde4bd448, 0x5b2af7ba, 0xd2b49fe9, 0x1783f531, 0x66fffd39, 0x59e8a9ba, 0xc2ee818b,
    0x1f3b0f3c, 0x4cd0e620, 0xeaf278ba, 0x92045e3d, 0x64e6ebca, 0x9b70573, 0x3aaf57a4, 0xe287e26,
    0x54dcafbb, 0x8c25a8, 0x99642381, 0x5c8de9f0, 0x51fda6c0, 0x910e0b6d, 0xf6328e12, 0xec5e5389,
    0x8ed195f, 0xe80f0583, 0xa7185a25, 0xa83c3268, 0xa4e79433, 0xe6def4b, 0x77065b1f, 0x43678dc7,
    0x7e506399, 0x88503f60, 0x62c4983d, 0x70ece12, 0xe0d421a4, 0x71821295, 0x801310e8, 0x3bd7bf4b,
    0xe42779be, 0xefee3449, 0xd6aaaffc, 0xa5608bae, 0xf6e0b8ae, 0xdd79aa9f, 0x8bd6606d, 0x3b83977a,
    0x512a0c70, 0x2c6de88, 0x25f5ea97, 0x68ceb140, 0xdaa87097, 0x602b8497, 0x7767467a, 0xfee216a8,
    0x14512325, 0x142c4e04, 0x7bf5ac09, 0x384364d5, 0xf58188a8, 0xa410598, 0x799223f, 0xc1b76b42,
    0xd828d74b, 0x931ecbb1, 0x41922ad3, 0x787fb489, 0xf41c1d00, 0x3dbc3f88, 0x12a70e39, 0x26ae363d,
    0x47f7274, 0x86385074, 0x2ffb7263, 0xb8e3de33, 0x9496a61, 0x92025809, 0xbf8b296d, 0xf1a57003,
    0xa8057fb6, 0x2ce2e565, 0x56d7a64a, 0xa6e30007, 0xe0562996, 0xabec18bd, 0x6b8c68ed,
    0]

/-- `(fingerprint << 1) + GEAR[b]`. -/
def gearStep (fingerprint : UInt32) (b : UInt8) : UInt32 :=
  (fingerprint <<< 1) + GEAR.getD b.toNat 0

/-! ## The end of one chunk -/

/-- The loop of `chunk_gear` at index `i`. -/
def chunkGearLoop (p : Mem) (n : Nat) : Nat → (i : Nat) → UInt32 → Nat
  | 0, i, _ => i
  | fuel + 1, i, fingerprint =>
      if i ≤ n then
        let fingerprint := gearStep fingerprint (p i)
        if i ≤ STRMAX then
          if fingerprint &&& STRAVG = 0 then i
          else chunkGearLoop p n fuel (i + 1) fingerprint
        else i
      else i

/-- `chunk_gear(p, n)`. -/
def chunkGear (p : Mem) (n : Nat) : Nat :=
  if n ≤ STRMAX then n else chunkGearLoop p n n (STRMIN + 1) 0

theorem chunkGearLoop_bounds {p : Mem} {n : Nat} :
    ∀ (fuel i : Nat) (fp : UInt32), i ≤ STRMAX + 1 →
      i ≤ chunkGearLoop p n fuel i fp ∧ chunkGearLoop p n fuel i fp ≤ STRMAX + 1
  | 0, _, _, hi => ⟨le_refl _, hi⟩
  | fuel + 1, i, fp, hi => by
      simp only [chunkGearLoop]
      split_ifs with h1 h2 h3
      · exact ⟨le_refl _, hi⟩
      · have h := chunkGearLoop_bounds (p := p) (n := n) fuel (i + 1) (gearStep fp (p i))
          (by omega)
        omega
      · exact ⟨le_refl _, hi⟩
      · exact ⟨le_refl _, hi⟩

theorem chunkGear_bounds (p : Mem) (n : Nat) :
    chunkGear p n ≤ n ∧ (0 < n → 0 < chunkGear p n) := by
  rw [chunkGear]
  split
  · exact ⟨le_refl _, id⟩
  · have hb := chunkGearLoop_bounds (p := p) (n := n) n (STRMIN + 1) 0 (by decide)
    omega

/-- A short chunk is the rest of the data. -/
theorem chunkGear_last {p : Mem} {n : Nat} (h : chunkGear p n ≤ STRMIN) : chunkGear p n = n := by
  unfold chunkGear at h ⊢
  split
  · rfl
  · rename_i hn
    rw [if_neg hn] at h
    have hb := chunkGearLoop_bounds (p := p) (n := n) n (STRMIN + 1) 0 (by decide)
    omega

/-! ## Many cuts -/

/-- The loop of `rolling_gear_v3` with `num` cuts still to make, the last
one at `last`; it returns the cuts it makes. -/
def rollingGearLoop (p : Mem) (n : Nat) :
    Nat → (num : Nat) → (last i : Nat) → UInt32 → List Nat
  | 0, _, _, _, _ => []
  | _ + 1, 0, _, _, _ => []
  | fuel + 1, num + 1, last, i, fingerprint =>
      if i < n then
        let fingerprint := gearStep fingerprint (p i)
        if i ≤ last + STRMAX ∧ fingerprint &&& STRAVG ≠ 0 then
          rollingGearLoop p n fuel (num + 1) last (i + 1) fingerprint
        else i :: rollingGearLoop p n fuel num i (i + STRMIN + 1) 0
      else List.replicate (num + 1) n

/-- `rolling_gear_v3(p, n, num_of_chunks, cut)`: the cuts after `cut[0] = 0`.
The index grows in every round and is below `n` in all but the last one. -/
def rollingGearV3 (p : Mem) (n num : Nat) : List Nat :=
  rollingGearLoop p n (n + 1) num 0 (STRMIN + 1) 0

structure DeltaRecord where
  nHash : UInt64
  nOffset : Nat
  nLength : Nat

/-- The records between consecutive cuts, `cut` being the first of them. -/
def cutRecords (weakHash : Bytes → UInt64) (data : Mem) : Nat → List Nat → List DeltaRecord
  | _, [] => []
  | cut, next :: cuts =>
      { nHash := weakHash (slice data cut (next - cut)), nOffset := cut,
        nLength := next - cut } :: cutRecords weakHash data next cuts

/-- `Chunking_v3(data, len, num_of_chunks, subChunkLink)`: the records and the
number of bytes they cover. -/
def chunkingV3 (weakHash : Bytes → UInt64) (data : Mem) (len num : Nat) :
    List DeltaRecord × Nat :=
  let cut := rollingGearV3 data len num
  (cutRecords weakHash data 0 cut, cut.getLastD 0)

/-- Cuts never go back and never leave the buffer. -/
def Cuts (n : Nat) : Nat → List Nat → Prop
  | last, [] => last ≤ n
  | last, c :: cs => last ≤ c ∧ Cuts n c cs

theorem Cuts.le {n : Nat} : ∀ {cs : List Nat} {last : Nat}, Cuts n last cs → last ≤ n
  | [], _, h => h
  | _ :: _, _, ⟨h1, h2⟩ => h1.trans (Cuts.le h2)

theorem cuts_replicate {n : Nat} : ∀ (num : Nat) {last : Nat}, last ≤ n →
    Cuts n last (List.replicate num n)
  | 0, _, h => h
  | num + 1, _, h => ⟨h, cuts_replicate num (le_refl n)⟩

theorem rollingGearLoop_cuts {p : Mem} {n : Nat} :
    ∀ (fuel num last i : Nat) (fp : UInt32), last ≤ i → last ≤ n →
      Cuts n last (rollingGearLoop p n fuel num last i fp)
  | 0, _, _, _, _, _, hn => hn
  | _ + 1, 0, _, _, _, _, hn => hn
  | fuel + 1, num + 1, last, i, fp, hi, hn => by
      simp only [rollingGearLoop]
      split_ifs with h1 h2
      · exact rollingGearLoop_cuts fuel (num + 1) last (i + 1) _ (by omega) hn
      · exact ⟨hi, rollingGearLoop_cuts fuel num i (i + STRMIN + 1) 0 (by omega) (by omega)⟩
      · exact cuts_replicate (num + 1) hn

theorem rollingGearV3_cuts (p : Mem) (n num : Nat) : Cuts n 0 (rollingGearV3 p n num) :=
  rollingGearLoop_cuts _ _ _ _ _ (by omega) (by omega)

theorem Cuts.getLastD_le {n : Nat} : ∀ {cs : List Nat} {last : Nat}, Cuts n last cs →
    cs.getLastD last ≤ n
  | [], _, h => h
  | _ :: _, _, ⟨_, h⟩ => by
      rw [List.getLastD_cons]
      exact Cuts.getLastD_le h

theorem cutRecords_within {weakHash : Bytes → UInt64} {data : Mem} {n : Nat} :
    ∀ {cs : List Nat} {last : Nat}, Cuts n last cs →
      ∀ r ∈ cutRecords weakHash data last cs, r.nOffset + r.nLength ≤ n
  | [], _, _, _, hr => by cases hr
  | c :: cs, last, ⟨h1, h2⟩, r, hr => by
      rcases List.mem_cons.mp hr with rfl | hr'
      · have := Cuts.le h2
        simp only
        omega
      · exact cutRecords_within h2 r hr'

/-- The records of a chunking lie inside the data. -/
theorem chunkingV3_within (weakHash : Bytes → UInt64) (data : Mem) (len num : Nat) :
    (∀ r ∈ (chunkingV3 weakHash data len num).1, r.nOffset + r.nLength ≤ len) ∧
      (chunkingV3 weakHash data len num).2 ≤ len :=
  ⟨cutRecords_within (rollingGearV3_cuts data len num),
    (rollingGearV3_cuts data len num).getLastD_le⟩

end ShieldReduce.Edelta

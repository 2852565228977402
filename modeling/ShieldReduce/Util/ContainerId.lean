import Mathlib.Data.Nat.Digits.Lemmas
import ShieldReduce.ConstVar
import ShieldReduce.Lib.Bytes

/-!
# Container IDs

`tool::CreateUUID` of `define.h` counts to `times` in seven base-36
digits and spells the digits, most significant first. Its callers pass
the global `con_times` and increment it: two IDs for every upload
session, one for every container that rolls over, and one for every hot
container of an offline pass. `con_times` is an `int` that starts at 1
in every process, while container files and the index that names them
outlive the process. With `MULTI_CLIENT` the letters are random
(`drawUUID`).

The spelling is injective below `36 ^ 7`, so IDs repeat exactly when the
counter does: after a restart, and when it overflows
(`created_nodup_iff`).
-/

namespace ShieldReduce.ContainerId

open ByteLib

def ALPHABET : Bytes :=
  [48, 49, 50, 51, 52, 53, 54, 55, 56, 57, 97, 98, 99, 100, 101, 102, 103, 104, 105, 106, 107,
    108, 109, 110, 111, 112, 113, 114, 115, 116, 117, 118, 119, 120, 121, 122]

/-! ## The base-36 counter -/

/-- The carry pass over `container_id_num`, least significant digit first.
A carry out of the last digit would write behind the array; the counter
never gets that far. -/
def carry : List Nat → List Nat
  | [] => []
  | [d] => if d = 36 then [0] else [d]
  | d :: e :: ds => if d = 36 then 0 :: carry ((e + 1) :: ds) else d :: carry (e :: ds)

/-- One round of the counting loop. -/
def increment : List Nat → List Nat
  | [] => []
  | d :: ds => if d + 1 = 36 then carry ((d + 1) :: ds) else (d + 1) :: ds

/-- `container_id_num` after `times` rounds. -/
def digits (times : Nat) : List Nat :=
  Nat.iterate increment times (List.replicate CONTAINER_ID_LENGTH 0)

/-- The ID for a count of `times`. -/
def spell (times : Nat) : Bytes :=
  (digits times).reverse.map fun d => ALPHABET.getD d 0

/-- `CreateUUID(buffer, CONTAINER_ID_LENGTH, times)`: a negative `times` does
not count at all. -/
def createUUID (times : Int32) : Bytes := spell times.toInt.toNat

/-- With `MULTI_CLIENT` the count is not used: `rand` returned a number for each
letter. -/
def drawUUID (rands : List Nat) : Bytes := rands.map fun r => ALPHABET.getD (r % 36) 0

/-- The digits of a number that the counter can show. -/
def Shows (ds : List Nat) (n : Nat) : Prop :=
  ds.length = CONTAINER_ID_LENGTH ∧ (∀ d ∈ ds, d < 36) ∧ Nat.ofDigits 36 ds = n

theorem carry_spec : ∀ {d : Nat} {ds : List Nat}, d ≤ 36 → (∀ e ∈ ds, e < 36) →
    Nat.ofDigits 36 (d :: ds) < 36 ^ (ds.length + 1) →
    (carry (d :: ds)).length = ds.length + 1 ∧ (∀ e ∈ carry (d :: ds), e < 36) ∧
      Nat.ofDigits 36 (carry (d :: ds)) = Nat.ofDigits 36 (d :: ds)
  | d, [], hd, _, hlt => by
      have hd' : d ≠ 36 := by
        rintro rfl
        simp at hlt
      simp only [carry, if_neg hd']
      exact ⟨rfl, by simp; omega, trivial⟩
  | d, e :: ds, hd, hds, hlt => by
      have he : e < 36 := hds e (by simp)
      have hds' : ∀ x ∈ ds, x < 36 := fun x hx => hds x (by simp [hx])
      have htail : Nat.ofDigits 36 ds < 36 ^ ds.length :=
        Nat.ofDigits_lt_base_pow_length (by omega) hds'
      have hpow : 36 ^ (ds.length + 1 + 1) = 36 * 36 ^ (ds.length + 1) := by ring
      simp only [Nat.ofDigits_cons, List.length_cons] at hlt
      by_cases h36 : d = 36
      · subst h36
        obtain ⟨h1, h2, h3⟩ := carry_spec (d := e + 1) (by omega) hds' (by
          simp only [Nat.ofDigits_cons]
          omega)
        simp only [carry, if_true, List.length_cons, Nat.ofDigits_cons] at h3 ⊢
        refine ⟨by omega, ?_, by rw [h3]; omega⟩
        intro x hx
        rcases List.mem_cons.mp hx with rfl | hx'
        · omega
        · exact h2 x hx'
      · obtain ⟨h1, h2, h3⟩ := carry_spec (d := e) (by omega) hds' (by
          rw [← List.length_cons (a := e)]
          exact Nat.ofDigits_lt_base_pow_length (by omega) hds)
        simp only [carry, if_neg h36, List.length_cons]
        refine ⟨by omega, ?_, by rw [Nat.ofDigits_cons, h3]; rfl⟩
        intro x hx
        rcases List.mem_cons.mp hx with rfl | hx'
        · omega
        · exact h2 x hx'

theorem Shows.increment {ds : List Nat} {n : Nat} (h : Shows ds n)
    (hn : n + 1 < 36 ^ CONTAINER_ID_LENGTH) : Shows (increment ds) (n + 1) := by
  obtain ⟨hlen, hlt, rfl⟩ := h
  match ds, hlen with
  | d :: ds, hlen =>
      have hd : d < 36 := hlt d (by simp)
      have hds : ∀ x ∈ ds, x < 36 := fun x hx => hlt x (by simp [hx])
      have hval : Nat.ofDigits 36 ((d + 1) :: ds) = Nat.ofDigits 36 (d :: ds) + 1 := by
        simp only [Nat.ofDigits_cons]
        omega
      rw [ContainerId.increment]
      split
      · obtain ⟨h1, h2, h3⟩ := carry_spec (d := d + 1) (by omega) hds (by
          rw [hval, show ds.length + 1 = CONTAINER_ID_LENGTH from hlen]
          exact hn)
        exact ⟨h1.trans hlen, h2, h3.trans hval⟩
      · refine ⟨hlen, ?_, hval⟩
        intro x hx
        rcases List.mem_cons.mp hx with rfl | hx'
        · omega
        · exact hds x hx'

theorem shows_digits : ∀ {n : Nat}, n < 36 ^ CONTAINER_ID_LENGTH → Shows (digits n) n
  | 0, _ => by
      refine ⟨rfl, ?_, rfl⟩
      intro d hd
      rw [List.eq_of_mem_replicate hd]
      omega
  | n + 1, hn => by
      rw [digits, Function.iterate_succ_apply']
      exact (shows_digits (by omega)).increment hn

theorem idxOf_alphabet : ∀ d < 36, ALPHABET.idxOf (ALPHABET.getD d 0) = d := by
  decide

theorem length_spell {n : Nat} (hn : n < 36 ^ CONTAINER_ID_LENGTH) :
    (spell n).length = CONTAINER_ID_LENGTH := by
  simpa [spell] using (shows_digits hn).1

/-- The count can be read off the ID. -/
theorem ofDigits_spell {n : Nat} (hn : n < 36 ^ CONTAINER_ID_LENGTH) :
    Nat.ofDigits 36 ((spell n).map ALPHABET.idxOf).reverse = n := by
  obtain ⟨_, hlt, hval⟩ := shows_digits hn
  have hmap : (spell n).map ALPHABET.idxOf = (digits n).reverse := by
    rw [spell, List.map_map]
    refine (List.map_congr_left fun d hd => ?_).trans (List.map_id _)
    exact idxOf_alphabet d (hlt d (List.mem_reverse.mp hd))
  rw [hmap, List.reverse_reverse, hval]

/-- Different counts below `36 ^ 7` spell different IDs. -/
theorem spell_inj {m n : Nat} (hm : m < 36 ^ CONTAINER_ID_LENGTH)
    (hn : n < 36 ^ CONTAINER_ID_LENGTH) (h : spell m = spell n) : m = n := by
  rw [← ofDigits_spell hm, h, ofDigits_spell hn]

/-! ## The life of the counter -/

/-- What a server does that concerns container IDs. -/
inductive Event where
  /-- `ClientVar::InitUploadBuffer`: a base and a delta container. -/
  | initUploadBuffer
  /-- `Ocall_WriteContainer`: the base container rolls over. -/
  | writeContainer
  /-- `Ocall_WriteDeltaContainer`: the delta container rolls over. -/
  | writeDeltaContainer
  /-- `OFFLineBackward::Init`: the first hot container of an offline pass. -/
  | offlineInit
  /-- `InsertHot_container`: the hot container rolls over. -/
  | hotRollOver
  /-- The process ends cleanly and is started again. -/
  | restart

/-- The process's counter, and the IDs created so far by this process and
the ones before it, in order. -/
structure Server where
  conTimes : Int32
  created : List Bytes

/-- `int con_times = 1`. -/
def boot : Server := ⟨1, []⟩

/-- `CreateUUID(.., con_times); con_times++`, the increment in 32 bits. -/
def Server.create (s : Server) : Server :=
  ⟨s.conTimes + 1, s.created ++ [createUUID s.conTimes]⟩

def Server.step (s : Server) : Event → Server
  | .initUploadBuffer => s.create.create
  | .writeContainer => s.create
  | .writeDeltaContainer => s.create
  | .offlineInit => s.create
  | .hotRollOver => s.create
  | .restart => { s with conTimes := 1 }

def run (es : List Event) : Server := es.foldl Server.step boot

/-! ## When IDs repeat -/

/-- How many IDs an event creates. -/
def Event.count : Event → Nat
  | .initUploadBuffer => 2
  | .restart => 0
  | _ => 1

/-- Counts of the boots that ended, and of the running one. -/
def tally (p : List Nat × Nat) : Event → List Nat × Nat
  | .restart => (p.1 ++ [p.2], 0)
  | e => (p.1, p.2 + e.count)

/-- How many IDs each boot creates. -/
def perBoot (es : List Event) : List Nat :=
  let p := es.foldl tally ([], 0)
  p.1 ++ [p.2]

/-- The ID of the `i`-th container of a boot. -/
def nth (i : Nat) : Bytes := createUUID (Int32.ofNat (1 + i))

/-- The IDs of a boot that creates `n` containers. -/
def ofBoot (n : Nat) : List Bytes := (List.range n).map nth

theorem ofBoot_succ (n : Nat) : ofBoot (n + 1) = ofBoot n ++ [nth n] := by
  simp [ofBoot, List.range_succ]

/-- The server has created the IDs of the boots counted in `p`, and its
counter stands behind those of the running boot. -/
def Server.Counted (s : Server) (p : List Nat × Nat) : Prop :=
  s.conTimes = Int32.ofNat (1 + p.2) ∧ s.created = (p.1 ++ [p.2]).flatMap ofBoot

theorem Server.Counted.create {s : Server} {p : List Nat × Nat} (h : s.Counted p) :
    s.create.Counted (p.1, p.2 + 1) := by
  obtain ⟨hc, hids⟩ := h
  constructor
  · rw [Server.create, hc, ← Nat.add_assoc, Int32.ofNat_add (1 + p.2) 1]
    rfl
  · simp only [Server.create, hids, hc, List.flatMap_append, List.flatMap_singleton, ofBoot_succ,
      List.append_assoc]
    rfl

theorem Server.Counted.step {s : Server} {p : List Nat × Nat} (h : s.Counted p) (e : Event) :
    (s.step e).Counted (tally p e) := by
  cases e with
  | initUploadBuffer => exact h.create.create
  | writeContainer => exact h.create
  | writeDeltaContainer => exact h.create
  | offlineInit => exact h.create
  | hotRollOver => exact h.create
  | restart =>
      refine ⟨rfl, ?_⟩
      have hnil : ofBoot 0 = [] := rfl
      simp [Server.step, tally, h.2, hnil]

theorem Server.Counted.foldl : ∀ (es : List Event) {s : Server} {p : List Nat × Nat},
    s.Counted p → (es.foldl Server.step s).Counted (es.foldl tally p)
  | [], _, _, h => h
  | e :: es, _, _, h => Server.Counted.foldl es (h.step e)

/-- A run creates the IDs of its boots. -/
theorem created_run (es : List Event) : (run es).created = (perBoot es).flatMap ofBoot :=
  (Server.Counted.foldl es (s := boot) (p := ([], 0)) ⟨rfl, rfl⟩).2

/-! ## IDs of one boot -/

theorem toNat_counter {i : Nat} (hi : i + 1 < 2 ^ 31) :
    (Int32.ofNat (1 + i)).toInt.toNat = i + 1 := by
  rw [Int32.toInt_ofNat_of_lt (by omega)]
  omega

/-- A counter that has wrapped around is negative, and counts nothing. -/
theorem toNat_counter_wrapped {i : Nat} (hi : 2 ^ 31 ≤ i + 1) (hi' : i ≤ 2 ^ 31) :
    (Int32.ofNat (1 + i)).toInt.toNat = 0 := by
  rw [Int32.toInt_ofNat', Int32.size, Int.bmod]
  omega

theorem nth_inj {i j : Nat} (hi : i < 2 ^ 31) (hj : j < 2 ^ 31) (h : nth i = nth j) : i = j := by
  have hcount : ∀ k < 2 ^ 31, (Int32.ofNat (1 + k)).toInt.toNat = if k + 1 < 2 ^ 31 then k + 1
      else 0 := by
    intro k hk
    split
    · exact toNat_counter ‹_›
    · exact toNat_counter_wrapped (by omega) (by omega)
  have hspell := spell_inj (by rw [hcount i hi]; simp only [CONTAINER_ID_LENGTH]; split <;> omega)
    (by rw [hcount j hj]; simp only [CONTAINER_ID_LENGTH]; split <;> omega) h
  rw [hcount i hi, hcount j hj] at hspell
  split_ifs at hspell <;> omega

/-- One boot repeats no ID as long as its counter does not overflow twice. -/
theorem nodup_ofBoot_iff (n : Nat) : (ofBoot n).Nodup ↔ n ≤ 2 ^ 31 := by
  constructor
  · intro h
    by_contra hn
    have hsame : nth (2 ^ 31 - 1) = nth (2 ^ 31) := by
      rw [nth, nth, createUUID, createUUID, toNat_counter_wrapped (by omega) (by omega),
        toNat_counter_wrapped (by omega) (by omega)]
    have := List.inj_on_of_nodup_map h (x := 2 ^ 31 - 1) (List.mem_range.mpr (by omega))
      (y := 2 ^ 31) (List.mem_range.mpr (by omega)) hsame
    omega
  · intro hn
    refine List.Nodup.map_on (fun i hi j hj hij => ?_) List.nodup_range
    rw [List.mem_range] at hi hj
    exact nth_inj (by omega) (by omega) hij

/-- Two boots that both create a container create the same first ID. -/
theorem disjoint_ofBoot_iff (m n : Nat) :
    List.Disjoint (ofBoot m) (ofBoot n) ↔ m = 0 ∨ n = 0 := by
  constructor
  · intro h
    by_contra hne
    rw [not_or] at hne
    have hmem : ∀ k, k ≠ 0 → nth 0 ∈ ofBoot k := fun k hk =>
      List.mem_map.mpr ⟨0, List.mem_range.mpr (by omega), rfl⟩
    exact h (hmem m hne.1) (hmem n hne.2)
  · rintro (rfl | rfl)
    · exact List.disjoint_nil_left _
    · exact List.disjoint_nil_right _

/-- **Every ID differs from all earlier ones exactly when** at most one of
the boots creates containers, and it creates at most `2 ^ 31`. -/
theorem created_nodup_iff (es : List Event) :
    (run es).created.Nodup ↔
      (perBoot es).Pairwise (fun m n => m = 0 ∨ n = 0) ∧ ∀ n ∈ perBoot es, n ≤ 2 ^ 31 := by
  rw [created_run, List.nodup_flatMap, and_comm]
  refine and_congr ?_ (forall₂_congr fun n _ => nodup_ofBoot_iff n)
  exact List.Pairwise.iff fun m n => disjoint_ofBoot_iff m n

/-- A session, a restart and a session: the IDs of the second session are
those of the first. -/
theorem created_not_nodup_restart :
    ¬ (run [.initUploadBuffer, .restart, .initUploadBuffer]).created.Nodup := by
  rw [created_run]
  decide

end ShieldReduce.ContainerId

import ShieldReduce.System.State
import ShieldReduce.Lib.Catalog

/-!
# Where chunks are placed

The containers as files of records, and the fingerprint index over them.
`Rep env F idx abs` is the representation invariant: the files `F` are
containers, the index `idx` leads to one record of each fingerprint it
knows, and together they mean `abs`, a map from fingerprints to contents.
Whatever is written or moved is one of five operations on `F` and `idx`:
a new container (`Rep.fresh`), an empty one dropped (`Rep.drop`), a record
appended (`Rep.put`), a container compacted (`Rep.compact`), two containers
merged (`Rep.merge`). Only `put` changes `abs`.

`Cold` keeps track of the records that were left behind.
-/

namespace ShieldReduce

open ByteLib TilingLib CatalogLib

/-- What a record says of its chunk, wherever it stands. -/
structure Content where
  deltaFlag : UInt8
  basechunkHash : Fp
  superfeature : Sf
  data : Bytes

def Record.content (env : Env) (r : Record) : Content where
  deltaFlag := r.entry.deltaFlag
  basechunkHash := r.entry.basechunkHash
  superfeature := r.entry.superfeature
  data := env.decryptionWithKeyIV r.payload r.iv

def scheme (env : Env) : Scheme Fp Record Cipher Content where
  key := Record.fp
  addr := fun r => env.encEntry r.entry
  content := Record.content env

abbrev Containers := Files (Dir × ContainerName) Record

structure Rep (env : Env) (F : Containers) (idx : Fp → Option Cipher) (abs : Fp → Option Content) :
    Prop where
  catalog : Catalog (scheme env) F idx abs
  holds : ∀ {d n rs}, F (d, n) = some rs → Holds n (records.flat rs) rs
  flag : ∀ {d n r}, F.Has (d, n) r → r.entry.deltaFlag = d.flag
  apart : ∀ n, F (.base, n) = none ∨ F (.delta, n) = none

variable {env : Env} {F : Containers} {idx : Fp → Option Cipher} {abs : Fp → Option Content}

/-- Containers as files of records: each is tiled by its records, and a name is that
of one container. -/
structure Apart (F : Containers) : Prop where
  holds : ∀ {d n rs}, F (d, n) = some rs → Holds n (records.flat rs) rs
  apart : ∀ n, F (.base, n) = none ∨ F (.delta, n) = none

namespace Apart

theorem placed (h : Apart F) {d : Dir} {n : ContainerName} {r : Record} (hr : F.Has (d, n) r) :
    r.PlacedIn n := by
  obtain ⟨rs, hrs, hmem⟩ := hr
  exact (h.holds hrs).placed r hmem

theorem dir_unique (h : Apart F) {d d' : Dir} {n : ContainerName} {rs ts : List Record}
    (hd : F (d, n) = some rs) (hd' : F (d', n) = some ts) : d = d' := by
  have hap := h.apart n
  cases d <;> cases d' <;> first | rfl | (rw [hd, hd'] at hap; rcases hap with hap | hap <;> cases hap)

/-- Two records of one container with the same start are the same one. -/
theorem start_inj (h : Apart F) {d d' : Dir} {n : ContainerName} {r r' : Record}
    (hr : F.Has (d, n) r) (hr' : F.Has (d', n) r') (heq : r.start = r'.start) : d = d' ∧ r = r' := by
  obtain ⟨rs, hrs, hmem⟩ := hr
  obtain ⟨rs', hrs', hmem'⟩ := hr'
  obtain rfl := h.dir_unique hrs hrs'
  obtain rfl := Option.some.inj (hrs.symm.trans hrs')
  exact ⟨rfl, (h.holds hrs).tiles.eq_of_start hmem hmem' heq⟩

/-- An entry is that of one record. -/
theorem entry_inj (h : Apart F) {p p' : Dir × ContainerName} {r r' : Record} (hr : F.Has p r)
    (hr' : F.Has p' r') (heq : r.entry = r'.entry) : p = p' ∧ r = r' := by
  obtain ⟨d, n⟩ := p
  obtain ⟨d', n'⟩ := p'
  have hname : n = n' := by
    rw [← (h.placed hr).1, heq, (h.placed hr').1]
  subst hname
  obtain ⟨rfl, rfl⟩ := h.start_inj hr hr' (by rw [Record.start, heq]; rfl)
  exact ⟨rfl, rfl⟩

end Apart

/-- The record is the one that the index leads to. -/
abbrev Live (env : Env) (idx : Fp → Option Cipher) (r : Record) : Prop := (scheme env).Live idx r

namespace Rep

theorem files (h : Rep env F idx abs) : Apart F := ⟨h.holds, h.apart⟩

theorem placed (h : Rep env F idx abs) {d : Dir} {n : ContainerName} {r : Record}
    (hr : F.Has (d, n) r) : r.PlacedIn n := h.files.placed hr

/-- A name is that of one container. -/
theorem dir_unique (h : Rep env F idx abs) {d d' : Dir} {n : ContainerName} {rs ts : List Record}
    (hd : F (d, n) = some rs) (hd' : F (d', n) = some ts) : d = d' := h.files.dir_unique hd hd'

theorem distinct (henv : env.Lawful) (h : Rep env F idx abs) : (scheme env).Distinct F :=
  fun _ _ _ _ hr hr' haddr => h.files.entry_inj hr hr' (henv.encEntry_inj haddr)

theorem content_of_live (henv : env.Lawful) (h : Rep env F idx abs) {p : Dir × ContainerName}
    {r : Record} (hr : F.Has p r) (hlive : Live env idx r) : abs r.fp = some (r.content env) :=
  h.catalog.content_of_live (h.distinct henv) hr hlive

/-- The record that an index entry leads to. -/
theorem found (h : Rep env F idx abs) {f : Fp} {c : Content} (hf : abs f = some c) :
    ∃ d n r, F.Has (d, n) r ∧ r.fp = f ∧ idx f = some (env.encEntry r.entry) ∧
      r.content env = c := by
  obtain ⟨⟨d, n⟩, r, hr, hkey, hlive, hc⟩ := h.catalog.found f c hf
  refine ⟨d, n, r, hr, hkey, ?_, hc⟩
  rw [← hkey]
  exact hlive

theorem flag_cases (h : Rep env F idx abs) {f : Fp} {c : Content} (hf : abs f = some c) :
    c.deltaFlag = NO_DELTA ∨ c.deltaFlag = DELTA := by
  obtain ⟨d, n, r, hr, -, -, rfl⟩ := h.found hf
  have := h.flag hr
  cases d
  · exact Or.inl this
  · exact Or.inr this

/-! ## Containers come and go -/

/-- A container that no name clashes with. -/
theorem fresh (h : Rep env F idx abs) {n : ContainerName} (hn : ∀ d, F (d, n) = none) (d : Dir) :
    Rep env (Function.update F (d, n) (some [])) idx abs where
  catalog := by
    refine h.catalog.mono ?_
    rintro p r ⟨rs, hrs, hr⟩
    have hne : p ≠ (d, n) := by
      rintro rfl
      rw [hn d] at hrs
      cases hrs
    exact Files.Has.update_of_ne hne ⟨rs, hrs, hr⟩
  holds := by
    intro d' n' rs hrs
    by_cases heq : (d', n') = (d, n)
    · rw [heq, Function.update_self] at hrs
      obtain rfl := Option.some.inj hrs
      exact Holds.nil n'
    · rw [Function.update_of_ne heq] at hrs
      exact h.holds hrs
  flag := by
    intro d' n' r hr
    rcases hr.of_update with ⟨-, hmem⟩ | ⟨-, hr⟩
    · cases hmem
    · exact h.flag hr
  apart := by
    intro n'
    by_cases hname : n' = n
    · subst hname
      cases d
      · exact Or.inr (by rw [Function.update_of_ne (by simp), hn])
      · exact Or.inl (by rw [Function.update_of_ne (by simp), hn])
    · rw [Function.update_of_ne (by simp [hname]), Function.update_of_ne (by simp [hname])]
      exact h.apart n'

theorem drop (h : Rep env F idx abs) {p : Dir × ContainerName} (hp : F p = some []) :
    Rep env (Function.update F p none) idx abs where
  catalog := by
    refine h.catalog.mono fun q r hr => ?_
    have hne : q ≠ p := by
      rintro rfl
      obtain ⟨rs, hrs, hmem⟩ := hr
      rw [hp] at hrs
      obtain rfl := Option.some.inj hrs
      cases hmem
    exact hr.update_of_ne hne
  holds := by
    intro d n rs hrs
    by_cases heq : (d, n) = p
    · rw [heq, Function.update_self] at hrs
      cases hrs
    · rw [Function.update_of_ne heq] at hrs
      exact h.holds hrs
  flag := by
    rintro d n r ⟨rs, hrs, hmem⟩
    by_cases heq : (d, n) = p
    · rw [heq, Function.update_self] at hrs
      cases hrs
    · rw [Function.update_of_ne heq] at hrs
      exact h.flag ⟨rs, hrs, hmem⟩
  apart := by
    intro n
    rcases h.apart n with hn | hn
    · refine Or.inl ?_
      by_cases heq : ((.base, n) : Dir × ContainerName) = p
      · rw [heq, Function.update_self]
      · rw [Function.update_of_ne heq, hn]
    · refine Or.inr ?_
      by_cases heq : ((.delta, n) : Dir × ContainerName) = p
      · rw [heq, Function.update_self]
      · rw [Function.update_of_ne heq, hn]

/-- A container's records are replaced; what the catalog then says is shown
separately. -/
theorem replace (h : Rep env F idx abs) {d : Dir} {n : ContainerName} {rs ts : List Record}
    {idx' : Fp → Option Cipher} {abs' : Fp → Option Content} (hn : F (d, n) = some rs)
    (hcat : Catalog (scheme env) (Function.update F (d, n) (some ts)) idx' abs')
    (hts : Holds n (records.flat ts) ts) (hflag : ∀ r ∈ ts, r.entry.deltaFlag = d.flag) :
    Rep env (Function.update F (d, n) (some ts)) idx' abs' where
  catalog := hcat
  holds := by
    intro d' n' us hus
    by_cases heq : (d', n') = (d, n)
    · rw [heq, Function.update_self] at hus
      obtain rfl := Option.some.inj hus
      obtain ⟨-, rfl⟩ := Prod.mk.injEq .. |>.mp heq
      exact hts
    · rw [Function.update_of_ne heq] at hus
      exact h.holds hus
  flag := by
    intro d' n' r hr
    rcases hr.of_update with ⟨heq, hmem⟩ | ⟨-, hr⟩
    · obtain ⟨rfl, -⟩ := Prod.mk.injEq .. |>.mp heq
      exact hflag r hmem
    · exact h.flag hr
  apart := by
    intro n'
    have hap := h.apart n'
    by_cases hname : n' = n
    · subst hname
      cases d
      · rw [hn] at hap
        exact Or.inr (by rw [Function.update_of_ne (by simp)]; simpa using hap)
      · rw [hn] at hap
        exact Or.inl (by rw [Function.update_of_ne (by simp)]; simpa using hap)
    · rw [Function.update_of_ne (by simp [hname]), Function.update_of_ne (by simp [hname])]
      exact hap

/-! ## Records come and move -/

/-- A record is written behind the others of a container. -/
theorem put (h : Rep env F idx abs) {d : Dir} {n : ContainerName} {rs : List Record}
    (hn : F (d, n) = some rs) {r : Record} (hr : r.PlacedIn n)
    (hstart : r.start = (records.flat rs).length)
    (hsmall : (records.flat rs).length + r.toBytes.length < MAX_CONTAINER_SIZE)
    (hflag : r.entry.deltaFlag = d.flag) :
    Rep env (Function.update F (d, n) (some (rs ++ [r])))
      (Function.update idx r.fp (some (env.encEntry r.entry)))
      (Function.update abs r.fp (some (r.content env))) := by
  refine h.replace hn (h.catalog.put hn r) ?_ ?_
  · have happ := (h.holds hn).append hr hstart hsmall
    rwa [show records.flat (rs ++ [r]) = records.flat rs ++ r.toBytes by simp]
  · intro s hs
    rcases List.mem_append.mp hs with hs | hs
    · exact h.flag ⟨rs, hn, hs⟩
    · rw [List.mem_singleton.mp hs]
      exact hflag

end Rep

/-! ## Relocated records -/

@[simp] theorem map_fp_relocate (name : ContainerName) : ∀ (off : Nat) (rs : List Record),
    (relocate name off rs).map Record.fp = rs.map Record.fp
  | _, [] => rfl
  | off, r :: rs => by rw [relocate, List.map_cons, List.map_cons, map_fp_relocate]; rfl

theorem flag_of_mem_relocate {name : ContainerName} {off : Nat} {rs : List Record} {d : Dir}
    (h : ∀ r ∈ rs, r.entry.deltaFlag = d.flag) :
    ∀ s ∈ relocate name off rs, s.entry.deltaFlag = d.flag := by
  intro s hs
  obtain ⟨r, hr, off', rfl⟩ := mem_relocate hs
  exact h r hr

theorem length_flat_le_of_sublist {rs ts : List Record} (h : rs.Sublist ts) :
    (records.flat rs).length ≤ (records.flat ts).length := by
  induction h with
  | slnil => exact le_refl _
  | cons r _ ih =>
      rw [Layout.flat_cons, List.length_append]
      exact le_trans ih (Nat.le_add_left _ _)
  | cons_cons r _ ih =>
      rw [Layout.flat_cons, Layout.flat_cons, List.length_append, List.length_append]
      exact Nat.add_le_add_left ih _

namespace Rep

/-- Live records of one container have different fingerprints. -/
theorem fp_nodup (henv : env.Lawful) (h : Rep env F idx abs) {p : Dir × ContainerName}
    {rs ts : List Record} (hp : F p = some rs) (hsub : ts.Sublist rs)
    (hlive : ∀ r ∈ ts, Live env idx r) : (ts.map Record.fp).Nodup := by
  obtain ⟨d, n⟩ := p
  have hnd : ts.Nodup := hsub.nodup (List.Nodup.of_map _ (h.holds hp).tiles.start_nodup)
  refine List.Nodup.map_on (fun r hr s hs heq => ?_) hnd
  exact ((h.distinct henv).eq_of_live ⟨rs, hp, hsub.subset hr⟩ ⟨rs, hp, hsub.subset hs⟩
    (hlive r hr) (hlive s hs) heq).2

/-- What the index says after live records of one container were moved
elsewhere: records that were not moved stay live. -/
theorem live_reindex_of_ne (henv : env.Lawful) (h : Rep env F idx abs) {p q : Dir × ContainerName}
    {ts : List Record} {name : ContainerName} {off : Nat} (hts : ∀ r ∈ ts, F.Has p r)
    (hlive : ∀ r ∈ ts, Live env idx r) (hne : q ≠ p) {s : Record} (hs : F.Has q s)
    (hslive : Live env idx s) : Live env ((scheme env).reindex idx (relocate name off ts)) s := by
  refine hslive.reindex_of_notMem fun hmem => ?_
  have hmem' : s.fp ∈ ts.map Record.fp := by rwa [← map_fp_relocate name off]
  obtain ⟨r, hr, hfp⟩ := List.mem_map.mp hmem'
  exact hne ((h.distinct henv).eq_of_live hs (hts r hr) hslive (hlive r hr) hfp.symm).1

/-- Reindexing leads to no new fingerprint. -/
theorem reindex_none {ts : List Record} {name : ContainerName} {off : Nat}
    (hlive : ∀ r ∈ ts, Live env idx r) {f : Fp} (hf : idx f = none) :
    (scheme env).reindex idx (relocate name off ts) f = none := by
  rw [Scheme.reindex_of_notMem, hf]
  intro hmem
  have hmem' : f ∈ ts.map Record.fp := by rwa [← map_fp_relocate name off]
  obtain ⟨r, hr, rfl⟩ := List.mem_map.mp hmem'
  have hl : idx r.fp = some (env.encEntry r.entry) := hlive r hr
  rw [hf] at hl
  cases hl

/-- A container keeps its live records only, one after the other. -/
theorem compact (henv : env.Lawful) (h : Rep env F idx abs) {d : Dir} {n : ContainerName}
    {rs ts : List Record} (hn : F (d, n) = some rs) (hsub : ts.Sublist rs)
    (hlive : ∀ r ∈ rs, r ∈ ts ↔ Live env idx r) :
    Rep env (Function.update F (d, n) (some (relocate n 0 ts)))
      ((scheme env).reindex idx (relocate n 0 ts)) abs := by
  have htlive : ∀ r ∈ ts, Live env idx r := fun r hr => (hlive r (hsub.subset hr)).mp hr
  have hhas : ∀ r ∈ ts, F.Has (d, n) r := fun r hr => ⟨rs, hn, hsub.subset hr⟩
  have hnd := h.fp_nodup henv hn hsub htlive
  have hsmall : (records.flat ts).length < MAX_CONTAINER_SIZE :=
    lt_of_le_of_lt (length_flat_le_of_sublist hsub) (h.holds hn).small
  refine h.replace hn (h.catalog.transfer (fun f hf => reindex_none htlive hf) ?_) ?_ ?_
  · rintro q s hs hslive
    by_cases hq : q = (d, n)
    · subst hq
      obtain ⟨us, hus, hmem⟩ := hs
      obtain rfl := Option.some.inj (hn.symm.trans hus)
      obtain ⟨off', hoff⟩ := exists_mem_relocate ((hlive s hmem).mpr hslive)
      refine ⟨_, _, Files.has_update_self.mpr hoff, rfl, ?_, rfl⟩
      exact Scheme.live_reindex (by rwa [show (scheme env).key = Record.fp from rfl,
        map_fp_relocate]) _ hoff
    · exact ⟨q, s, hs.update_of_ne hq, rfl, h.live_reindex_of_ne henv hhas htlive hq hs hslive, rfl⟩
  · have := (Holds.nil n).append_relocate (fun r hr => h.placed (hhas r hr))
      (by rwa [List.length_nil, Nat.zero_add])
    exact this
  · exact flag_of_mem_relocate fun r hr => h.flag (hhas r hr)

/-- The records of one container go behind those of another, and the
container they came from is removed. -/
theorem merge (henv : env.Lawful) (h : Rep env F idx abs) {d : Dir} {n m : ContainerName}
    (hne : n ≠ m) {rs ts : List Record} (hn : F (d, n) = some rs) (hm : F (d, m) = some ts)
    (hlive : ∀ r ∈ ts, Live env idx r)
    (hsmall : (records.flat rs).length + (records.flat ts).length < MAX_CONTAINER_SIZE) :
    Rep env (Function.update (Function.update F (d, n)
        (some (rs ++ relocate n (records.flat rs).length ts))) (d, m) none)
      ((scheme env).reindex idx (relocate n (records.flat rs).length ts)) abs := by
  have hhas : ∀ r ∈ ts, F.Has (d, m) r := fun r hr => ⟨ts, hm, hr⟩
  have hnd := h.fp_nodup henv hm (List.Sublist.refl ts) hlive
  have hpair : ((d, n) : Dir × ContainerName) ≠ (d, m) := by simp [hne]
  -- first the records are copied, so that the second container is dead, then it goes
  have hcat : Catalog (scheme env) (Function.update (Function.update F (d, n)
      (some (rs ++ relocate n (records.flat rs).length ts))) (d, m) none)
      ((scheme env).reindex idx (relocate n (records.flat rs).length ts)) abs := by
    refine h.catalog.transfer (fun f hf => reindex_none hlive hf) ?_
    rintro q s hs hslive
    by_cases hq : q = (d, m)
    · subst hq
      obtain ⟨us, hus, hmem⟩ := hs
      obtain rfl := Option.some.inj (hm.symm.trans hus)
      obtain ⟨off', hoff⟩ := exists_mem_relocate hmem
      refine ⟨(d, n), _, Files.Has.update_of_ne hpair
        (Files.has_update_self.mpr (List.mem_append_right _ hoff)), rfl, ?_, rfl⟩
      exact Scheme.live_reindex (by rwa [show (scheme env).key = Record.fp from rfl,
        map_fp_relocate]) _ hoff
    · have hslive' : Live env ((scheme env).reindex idx
          (relocate n (records.flat rs).length ts)) s :=
        h.live_reindex_of_ne henv hhas hlive hq hs hslive
      exact ⟨q, s, Files.Has.update_of_ne hq (hs.append hn _), rfl, hslive', rfl⟩
  have hholds := (h.holds hn).append_relocate (fun r hr => h.placed (hhas r hr)) hsmall
  constructor
  · exact hcat
  · intro d' n' us hus
    by_cases h1 : (d', n') = (d, m)
    · rw [h1, Function.update_self] at hus
      cases hus
    · rw [Function.update_of_ne h1] at hus
      by_cases h2 : (d', n') = (d, n)
      · rw [h2, Function.update_self] at hus
        obtain rfl := Option.some.inj hus
        obtain ⟨-, rfl⟩ := Prod.mk.injEq .. |>.mp h2
        rwa [Layout.flat_append]
      · rw [Function.update_of_ne h2] at hus
        exact h.holds hus
  · rintro d' n' r ⟨us, hus, hr⟩
    by_cases h1 : (d', n') = (d, m)
    · rw [h1, Function.update_self] at hus
      cases hus
    · rw [Function.update_of_ne h1] at hus
      rcases Files.Has.of_update ⟨us, hus, hr⟩ with ⟨heq, hmem⟩ | ⟨-, hr⟩
      · obtain ⟨rfl, -⟩ := Prod.mk.injEq .. |>.mp heq
        rcases List.mem_append.mp hmem with hmem | hmem
        · exact h.flag ⟨rs, hn, hmem⟩
        · exact flag_of_mem_relocate (fun r hr => h.flag (hhas r hr)) r hmem
      · exact h.flag hr
  · intro n'
    have hnone : ∀ d' n', d' ≠ d → Function.update (Function.update F (d, n)
        (some (rs ++ relocate n (records.flat rs).length ts))) (d, m) none (d', n') =
          F (d', n') := by
      intro d' n' hd
      rw [Function.update_of_ne (by simp [hd]), Function.update_of_ne (by simp [hd])]
    by_cases hF : F (d, n') = none
    · have hkeep : Function.update (Function.update F (d, n)
          (some (rs ++ relocate n (records.flat rs).length ts))) (d, m) none (d, n') = none := by
        by_cases h1 : n' = m
        · rw [h1, Function.update_self]
        · rw [Function.update_of_ne (by simp [h1]), Function.update_of_ne, hF]
          rintro heq
          rw [heq, hn] at hF
          cases hF
      cases d
      · exact Or.inl hkeep
      · exact Or.inr hkeep
    · have hap := h.apart n'
      cases d
      · exact Or.inr (by rw [hnone .delta n' (by simp)]; exact hap.resolve_left hF)
      · exact Or.inl (by rw [hnone .base n' (by simp)]; exact hap.resolve_right hF)

end Rep

/-! ## Records left behind -/

/-- What a record takes of its container. -/
def Record.range (r : Record) : Nat × Nat := (r.start, r.toBytes.length)

/-- The ranges of a container are those of its dead records. -/
structure Cold (env : Env) (F : Containers) (idx : Fp → Option Cipher)
    (cold : ContainerName → List (Nat × Nat)) : Prop where
  nodup : ∀ n, (cold n).Nodup
  mem_iff : ∀ n p, p ∈ cold n ↔ ∃ d r, F.Has (d, n) r ∧ ¬ Live env idx r ∧ p = r.range

def AllLive (env : Env) (F : Containers) (idx : Fp → Option Cipher) : Prop :=
  ∀ p r, F.Has p r → Live env idx r

theorem AllLive.cold (h : AllLive env F idx) : Cold env F idx fun _ => [] where
  nodup := fun _ => List.nodup_nil
  mem_iff := by
    intro n p
    constructor
    · intro hp
      cases hp
    · rintro ⟨d, r, hr, hdead, -⟩
      exact absurd (h _ r hr) hdead

theorem Cold.allLive {cold : ContainerName → List (Nat × Nat)} (h : Cold env F idx cold)
    (hnil : ∀ n, cold n = []) : AllLive env F idx := by
  rintro ⟨d, n⟩ r hr
  by_contra hdead
  have := (h.mem_iff n r.range).mpr ⟨d, r, hr, hdead, rfl⟩
  rw [hnil n] at this
  cases this

theorem has_fresh {p q : Dir × ContainerName} {r : Record} (hp : F p = none) :
    Files.Has (Function.update F p (some [])) q r ↔ F.Has q r := by
  constructor
  · intro hr
    rcases hr.of_update with ⟨-, hmem⟩ | ⟨-, hr⟩
    · cases hmem
    · exact hr
  · intro hr
    refine hr.update_of_ne ?_
    rintro rfl
    obtain ⟨rs, hrs, -⟩ := hr
    rw [hp] at hrs
    cases hrs

theorem has_drop {p q : Dir × ContainerName} {r : Record} (hp : F p = some []) :
    Files.Has (Function.update F p none) q r ↔ F.Has q r := by
  constructor
  · rintro ⟨rs, hrs, hr⟩
    by_cases hq : q = p
    · rw [hq, Function.update_self] at hrs
      cases hrs
    · rw [Function.update_of_ne hq] at hrs
      exact ⟨rs, hrs, hr⟩
  · intro hr
    refine hr.update_of_ne ?_
    rintro rfl
    obtain ⟨rs, hrs, hmem⟩ := hr
    rw [hp] at hrs
    obtain rfl := Option.some.inj hrs
    cases hmem

/-- The same records in other containers. -/
theorem Cold.congr {F' : Containers} {cold : ContainerName → List (Nat × Nat)}
    (h : Cold env F idx cold) (hF : ∀ q r, F'.Has q r ↔ F.Has q r) : Cold env F' idx cold where
  nodup := h.nodup
  mem_iff := by
    intro n p
    rw [h.mem_iff n p]
    simp only [hF]

theorem AllLive.congr {F' : Containers} (h : AllLive env F idx)
    (hF : ∀ q r, F'.Has q r ↔ F.Has q r) : AllLive env F' idx :=
  fun p r hr => h p r ((hF p r).mp hr)

/-- A record of a fingerprint that is new leaves no other behind. -/
theorem AllLive.put (h : AllLive env F idx) {p : Dir × ContainerName} {rs : List Record}
    (hp : F p = some rs) {r : Record} (hnew : idx r.fp = none) :
    AllLive env (Function.update F p (some (rs ++ [r])))
      (Function.update idx r.fp (some (env.encEntry r.entry))) := by
  have hold : ∀ q s, F.Has q s →
      Live env (Function.update idx r.fp (some (env.encEntry r.entry))) s := by
    intro q s hs
    have hlive : idx s.fp = some (env.encEntry s.entry) := h q s hs
    have hne : s.fp ≠ r.fp := by
      intro heq
      rw [heq, hnew] at hlive
      cases hlive
    exact (Function.update_of_ne hne _ _).trans hlive
  intro q s hs
  rcases hs.of_update with ⟨-, hmem⟩ | ⟨-, hs⟩
  · rcases List.mem_append.mp hmem with hmem | hmem
    · exact hold p s ⟨rs, hp, hmem⟩
    · rw [List.mem_singleton.mp hmem]
      exact Function.update_self ..
  · exact hold q s hs

/-- A record that takes the place of another leaves that one behind. -/
theorem Cold.put (henv : env.Lawful) {cold : ContainerName → List (Nat × Nat)}
    (h : Cold env F idx cold) (hrep : Rep env F idx abs) {p : Dir × ContainerName} {rs : List Record}
    (hp : F p = some rs) {r : Record}
    (hrep' : (scheme env).Distinct (Function.update F p (some (rs ++ [r]))))
    (hstart : ∀ t ∈ rs, t ≠ r) {d : Dir} {m : ContainerName} {s : Record} (hs : F.Has (d, m) s)
    (hslive : Live env idx s) (hfp : s.fp = r.fp) :
    Cold env (Function.update F p (some (rs ++ [r])))
      (Function.update idx r.fp (some (env.encEntry r.entry)))
      (Function.update cold m (cold m ++ [s.range])) := by
  have hkeep : ∀ q t, F.Has q t → Files.Has (Function.update F p (some (rs ++ [r]))) q t :=
    fun q t ht => ht.append hp [r]
  have hrhas : Files.Has (Function.update F p (some (rs ++ [r]))) p r :=
    Files.has_update_self.mpr (by simp)
  have hrlive : Live env (Function.update idx r.fp (some (env.encEntry r.entry))) r :=
    Function.update_self ..
  -- of the records that were there, those of the fingerprint are dead now
  have hdead : ∀ q t, F.Has q t →
      (¬ Live env (Function.update idx r.fp (some (env.encEntry r.entry))) t ↔
        ¬ Live env idx t ∨ t = s) := by
    intro q t ht
    by_cases htfp : t.fp = r.fp
    · have hnot : ¬ Live env (Function.update idx r.fp (some (env.encEntry r.entry))) t := by
        intro htlive
        obtain ⟨rfl, rfl⟩ := hrep'.eq_of_live (hkeep q t ht) hrhas htlive hrlive htfp
        obtain ⟨us, hus, hmem⟩ := ht
        obtain rfl := Option.some.inj (hp.symm.trans hus)
        exact hstart t hmem rfl
      refine iff_of_true hnot ?_
      by_cases htlive : Live env idx t
      · exact Or.inr ((hrep.distinct henv).eq_of_live ht hs htlive hslive (htfp.trans hfp.symm)).2
      · exact Or.inl htlive
    · have hiff : Live env (Function.update idx r.fp (some (env.encEntry r.entry))) t ↔
          Live env idx t := by
        show Function.update idx r.fp (some (env.encEntry r.entry)) t.fp = _ ↔ idx t.fp = _
        rw [Function.update_of_ne htfp]
      rw [hiff]
      constructor
      · exact Or.inl
      · rintro (hd | rfl)
        · exact hd
        · exact absurd hfp htfp
  have hback : ∀ q t, Files.Has (Function.update F p (some (rs ++ [r]))) q t →
      ¬ Live env (Function.update idx r.fp (some (env.encEntry r.entry))) t → F.Has q t := by
    intro q t ht hd
    rcases ht.of_update with ⟨rfl, hmem⟩ | ⟨-, ht⟩
    · rcases List.mem_append.mp hmem with hmem | hmem
      · exact ⟨rs, hp, hmem⟩
      · rw [List.mem_singleton.mp hmem] at hd
        exact absurd hrlive hd
    · exact ht
  constructor
  · intro n
    by_cases hn : n = m
    · subst hn
      rw [Function.update_self]
      refine List.nodup_append.mpr ⟨h.nodup n, by simp, ?_⟩
      rintro x hx y hy rfl
      rw [List.mem_singleton.mp hy] at hx
      obtain ⟨d', t, ht, htdead, heq⟩ := (h.mem_iff n _).mp hx
      obtain ⟨us, hus, hsmem⟩ := hs
      obtain ⟨us', hus', htmem⟩ := ht
      obtain rfl := hrep.dir_unique hus hus'
      obtain rfl := Option.some.inj (hus.symm.trans hus')
      have hst : s = t := (hrep.holds hus).tiles.eq_of_start hsmem htmem (congrArg Prod.fst heq)
      rw [← hst] at htdead
      exact htdead hslive
    · rw [Function.update_of_ne hn]
      exact h.nodup n
  · intro n x
    constructor
    · intro hx
      have hcase : x ∈ cold n ∨ (n = m ∧ x = s.range) := by
        by_cases hn : n = m
        · subst hn
          rw [Function.update_self, List.mem_append, List.mem_singleton] at hx
          exact hx.imp_right fun hx => ⟨rfl, hx⟩
        · rw [Function.update_of_ne hn] at hx
          exact Or.inl hx
      rcases hcase with hx | ⟨rfl, rfl⟩
      · obtain ⟨d', t, ht, htdead, rfl⟩ := (h.mem_iff n x).mp hx
        exact ⟨d', t, hkeep _ t ht, (hdead _ t ht).mpr (Or.inl htdead), rfl⟩
      · exact ⟨d, s, hkeep _ s hs, (hdead _ s hs).mpr (Or.inr rfl), rfl⟩
    · rintro ⟨d', t, ht, htdead, rfl⟩
      have htF := hback _ t ht htdead
      rcases (hdead _ t htF).mp htdead with htdead | rfl
      · have hmem := (h.mem_iff n t.range).mpr ⟨d', t, htF, htdead, rfl⟩
        by_cases hn : n = m
        · subst hn
          rw [Function.update_self]
          exact List.mem_append_left _ hmem
        · rwa [Function.update_of_ne hn]
      · have hname : n = m := by rw [← (hrep.placed htF).1, (hrep.placed hs).1]
        rw [hname, Function.update_self]
        exact List.mem_append_right _ (by simp)

/-- Nothing is left behind in a container that was compacted. -/
theorem Cold.compact (henv : env.Lawful) {cold : ContainerName → List (Nat × Nat)}
    (h : Cold env F idx cold) (hrep : Rep env F idx abs) {d : Dir} {n : ContainerName}
    {rs ts : List Record} (hn : F (d, n) = some rs) (hsub : ts.Sublist rs)
    (hlive : ∀ r ∈ rs, r ∈ ts ↔ Live env idx r) :
    Cold env (Function.update F (d, n) (some (relocate n 0 ts)))
      ((scheme env).reindex idx (relocate n 0 ts)) (Function.update cold n []) := by
  have hrep' := hrep.compact henv hn hsub hlive
  have htlive : ∀ r ∈ ts, Live env idx r := fun r hr => (hlive r (hsub.subset hr)).mp hr
  have hhas : ∀ r ∈ ts, F.Has (d, n) r := fun r hr => ⟨rs, hn, hsub.subset hr⟩
  have hnew : ∀ t ∈ relocate n 0 ts, Live env ((scheme env).reindex idx (relocate n 0 ts)) t := by
    refine Scheme.live_reindex ?_
    rw [show (scheme env).key = Record.fp from rfl, map_fp_relocate]
    exact hrep.fp_nodup henv hn hsub htlive
  have hiff : ∀ q t, q ≠ (d, n) → F.Has q t →
      (Live env ((scheme env).reindex idx (relocate n 0 ts)) t ↔ Live env idx t) := by
    intro q t hq ht
    constructor
    · intro htl
      by_cases hmem : t.fp ∈ (relocate n 0 ts).map Record.fp
      · obtain ⟨u, hu, hfp⟩ := List.mem_map.mp hmem
        exact absurd ((hrep'.distinct henv).eq_of_live (ht.update_of_ne hq)
          (Files.has_update_self.mpr hu) htl (hnew u hu) hfp.symm).1 hq
      · exact (Scheme.reindex_of_notMem hmem).symm.trans htl
    · exact hrep.live_reindex_of_ne henv hhas htlive hq ht
  constructor
  · intro m
    by_cases hm : m = n
    · rw [hm, Function.update_self]
      exact List.nodup_nil
    · rw [Function.update_of_ne hm]
      exact h.nodup m
  · intro m x
    by_cases hm : m = n
    · subst hm
      rw [Function.update_self]
      constructor
      · intro hx
        cases hx
      · rintro ⟨d', t, ht, hdead, -⟩
        rcases ht.of_update with ⟨-, hmem⟩ | ⟨hne, us, hus, -⟩
        · exact absurd (hnew t hmem) hdead
        · exact absurd (by rw [hrep.dir_unique hus hn]) hne
    · have hne : ∀ d', ((d', m) : Dir × ContainerName) ≠ (d, n) := by
        intro d' heq
        exact hm (congrArg Prod.snd heq)
      rw [Function.update_of_ne hm, h.mem_iff m x]
      constructor
      · rintro ⟨d', t, ht, hdead, hx⟩
        exact ⟨d', t, ht.update_of_ne (hne d'), fun hl => hdead ((hiff _ t (hne d') ht).mp hl), hx⟩
      · rintro ⟨d', t, ht, hdead, hx⟩
        rcases ht.of_update with ⟨heq, -⟩ | ⟨-, ht⟩
        · exact absurd heq (hne d')
        · exact ⟨d', t, ht, fun hl => hdead ((hiff _ t (hne d') ht).mpr hl), hx⟩

theorem AllLive.merge (henv : env.Lawful) (h : AllLive env F idx) (hrep : Rep env F idx abs) {d : Dir}
    {n m : ContainerName} {rs ts : List Record} (hn : F (d, n) = some rs)
    (hm : F (d, m) = some ts) :
    AllLive env (Function.update (Function.update F (d, n)
        (some (rs ++ relocate n (records.flat rs).length ts))) (d, m) none)
      ((scheme env).reindex idx (relocate n (records.flat rs).length ts)) := by
  have hlive : ∀ r ∈ ts, Live env idx r := fun r hr => h _ r ⟨ts, hm, hr⟩
  have hold : ∀ q s, q ≠ (d, m) → F.Has q s →
      Live env ((scheme env).reindex idx (relocate n (records.flat rs).length ts)) s := by
    intro q s hq hs
    exact hrep.live_reindex_of_ne henv (fun r hr => ⟨ts, hm, hr⟩) hlive hq hs (h q s hs)
  rintro q s ⟨us, hus, hs⟩
  by_cases hq : q = (d, m)
  · rw [hq, Function.update_self] at hus
    cases hus
  rw [Function.update_of_ne hq] at hus
  rcases Files.Has.of_update ⟨us, hus, hs⟩ with ⟨rfl, hmem⟩ | ⟨-, hs⟩
  · rcases List.mem_append.mp hmem with hmem | hmem
    · exact hold _ s hq ⟨rs, hn, hmem⟩
    · refine Scheme.live_reindex ?_ s hmem
      rw [show (scheme env).key = Record.fp from rfl, map_fp_relocate]
      exact hrep.fp_nodup henv hm (List.Sublist.refl ts) hlive
  · exact hold q s hq hs

/-! ## Reading -/

/-- The files, as bytes. -/
def viewOf (F : Containers) : View := fun d n => (F (d, n)).map records.flat

/-- The chunk of a fingerprint, by contents. -/
def plainOf (env : Env) (abs : Fp → Option Content) (f : Fp) : Option Bytes := do
  let c ← abs f
  if c.deltaFlag = DELTA then
    let b ← abs c.basechunkHash
    return ed3Decode c.data (env.unpack b.data)
  else
    return env.unpack c.data

theorem Rep.file (h : Rep env F idx abs) {d : Dir} {n : ContainerName} {rs : List Record}
    (hrs : F (d, n) = some rs) : (viewOf F).file n = some (records.flat rs) := by
  unfold View.file viewOf
  cases d with
  | base => rw [hrs]; rfl
  | delta =>
      have hnone : F (.base, n) = none := by
        rcases h.apart n with hb | hd
        · exact hb
        · rw [hrs] at hd
          cases hd
      rw [hnone, hrs]
      rfl

/-- A record that is found in its file, and in the index. -/
theorem readData_of_found (henv : env.Lawful) {v : View} {n : ContainerName} {r : Record}
    {file : Bytes} (hidx : idx r.fp = some (env.encEntry r.entry)) (hp : r.PlacedIn n)
    (hfile : v.file n = some file) (hfound : r.FoundIn file) :
    readData env idx v r.fp = some (r.entry, env.decryptionWithKeyIV r.payload r.iv) := by
  simp only [readData, hidx, Option.bind_eq_bind, Option.bind_some, henv.decEntry_encEntry, hp.1,
    hfile, hfound.getChunkContent hp, hfound.getChunkIV hp]
  rfl

theorem Rep.readData (henv : env.Lawful) (h : Rep env F idx abs) {f : Fp} {c : Content}
    (hf : abs f = some c) : ∃ e, readData env idx (viewOf F) f = some (e, c.data) ∧
      e.deltaFlag = c.deltaFlag ∧ e.basechunkHash = c.basechunkHash := by
  obtain ⟨d, n, r, hr, rfl, hidx, rfl⟩ := h.found hf
  obtain ⟨rs, hrs, hmem⟩ := hr
  have hfound := (h.holds hrs).found hmem (List.prefix_refl _)
  exact ⟨r.entry, readData_of_found henv hidx (h.placed ⟨rs, hrs, hmem⟩) (h.file hrs) hfound,
    rfl, rfl⟩

theorem Rep.readData_none (h : Rep env F idx abs) {f : Fp} (hf : abs f = none) (v : View) :
    ShieldReduce.readData env idx v f = none := by
  rw [ShieldReduce.readData, h.catalog.known f hf]
  rfl

/-- Following the index gives the chunk that the contents stand for. -/
theorem Rep.plaintext_eq (henv : env.Lawful) (h : Rep env F idx abs) (f : Fp) :
    plaintext env idx (viewOf F) f = plainOf env abs f := by
  unfold plaintext plainOf
  cases hf : abs f with
  | none => rw [h.readData_none hf]; rfl
  | some c =>
      obtain ⟨e, hread, hflag, hbase⟩ := h.readData henv hf
      simp only [hread, Option.bind_eq_bind, Option.bind_some, hflag, hbase]
      split
      · cases hb : abs c.basechunkHash with
        | none => rw [h.readData_none hb]; rfl
        | some b =>
            obtain ⟨e', hread', -, -⟩ := h.readData henv hb
            rw [hread']
            rfl
      · rfl

end ShieldReduce

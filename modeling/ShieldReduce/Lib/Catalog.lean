import Mathlib.Logic.Function.Basic
import Mathlib.Data.List.Nodup

/-!
# Files of records behind an index

Records stand in files, and an index leads from a key to the address of
one record with that key, the *live* one. Records that no index entry
leads to are dead: something newer has taken their place. A `Catalog`
says what files and index mean together, as a map from keys to contents.

Appending a record changes the meaning at its key (`Catalog.put`).
Rewriting files does not change it as long as every live record has a
copy that is live afterwards (`Catalog.transfer`).
-/

namespace CatalogLib

variable {ν κ ρ ε γ : Type}

/-- What is read off a record. -/
structure Scheme (κ ρ ε γ : Type) where
  key : ρ → κ
  addr : ρ → ε
  content : ρ → γ

abbrev Files (ν ρ : Type) := ν → Option (List ρ)

def Files.Has (F : Files ν ρ) (n : ν) (r : ρ) : Prop := ∃ rs, F n = some rs ∧ r ∈ rs

/-- The index leads to the record. -/
def Scheme.Live (S : Scheme κ ρ ε γ) (idx : κ → Option ε) (r : ρ) : Prop :=
  idx (S.key r) = some (S.addr r)

/-- No two records have the same address. -/
def Scheme.Distinct (S : Scheme κ ρ ε γ) (F : Files ν ρ) : Prop :=
  ∀ n r n' r', F.Has n r → F.Has n' r' → S.addr r = S.addr r' → n = n' ∧ r = r'

structure Catalog (S : Scheme κ ρ ε γ) (F : Files ν ρ) (idx : κ → Option ε) (abs : κ → Option γ) :
    Prop where
  found : ∀ k c, abs k = some c → ∃ n r, F.Has n r ∧ S.key r = k ∧ S.Live idx r ∧ S.content r = c
  known : ∀ k, abs k = none → idx k = none

variable {S : Scheme κ ρ ε γ} {F F' : Files ν ρ} {idx idx' : κ → Option ε} {abs : κ → Option γ}

theorem Catalog.isSome_iff (h : Catalog S F idx abs) (k : κ) : (idx k).isSome ↔ (abs k).isSome := by
  cases habs : abs k with
  | none => simp [h.known k habs]
  | some c =>
      obtain ⟨n, r, -, rfl, hlive, -⟩ := h.found k c habs
      simp [show idx (S.key r) = some (S.addr r) from hlive]

/-- There is only one live record of a key. -/
theorem Scheme.Distinct.eq_of_live (hd : S.Distinct F) {n n' : ν} {r r' : ρ} (hr : F.Has n r)
    (hr' : F.Has n' r') (hlive : S.Live idx r) (hlive' : S.Live idx r') (hkey : S.key r = S.key r') :
    n = n' ∧ r = r' := by
  refine hd n r n' r' hr hr' ?_
  unfold Scheme.Live at hlive hlive'
  rw [hkey, hlive'] at hlive
  exact (Option.some.inj hlive).symm

/-- The live record of a key has the key's content. -/
theorem Catalog.content_of_live (h : Catalog S F idx abs) (hd : S.Distinct F) {n : ν} {r : ρ}
    (hr : F.Has n r) (hlive : S.Live idx r) : abs (S.key r) = some (S.content r) := by
  cases habs : abs (S.key r) with
  | none =>
      have := h.known _ habs
      rw [hlive] at this
      cases this
  | some c =>
      obtain ⟨n', r', hr', hkey, hlive', rfl⟩ := h.found _ c habs
      obtain ⟨-, rfl⟩ := hd.eq_of_live hr hr' hlive hlive' hkey.symm
      rfl

/-! ## Rewriting files -/

/-- Every live record has a copy that is live afterwards. -/
theorem Catalog.transfer (h : Catalog S F idx abs) (hkeys : ∀ k, idx k = none → idx' k = none)
    (hcopy : ∀ n r, F.Has n r → S.Live idx r → ∃ n' r', F'.Has n' r' ∧ S.key r' = S.key r ∧
      S.Live idx' r' ∧ S.content r' = S.content r) : Catalog S F' idx' abs where
  found := by
    intro k c habs
    obtain ⟨n, r, hr, rfl, hlive, rfl⟩ := h.found k c habs
    obtain ⟨n', r', hr', hkey, hlive', hcontent⟩ := hcopy n r hr hlive
    exact ⟨n', r', hr', hkey, hlive', hcontent⟩
  known := fun k hk => hkeys k (h.known k hk)

/-- No record is lost. -/
theorem Catalog.mono (h : Catalog S F idx abs) (hsub : ∀ n r, F.Has n r → F'.Has n r) :
    Catalog S F' idx abs :=
  h.transfer (fun _ hk => hk) fun n r hr hlive => ⟨n, r, hsub n r hr, rfl, hlive, rfl⟩

section Update

variable [DecidableEq ν] [DecidableEq κ]

theorem Files.Has.update_of_ne {n m : ν} {r : ρ} {rs : Option (List ρ)} (hne : n ≠ m)
    (h : F.Has n r) : Files.Has (Function.update F m rs) n r := by
  obtain ⟨ts, hts, hr⟩ := h
  exact ⟨ts, by rw [Function.update_of_ne hne, hts], hr⟩

theorem Files.has_update_self {n : ν} {r : ρ} {rs : List ρ} :
    Files.Has (Function.update F n (some rs)) n r ↔ r ∈ rs := by
  simp [Files.Has]

/-- Records that are appended take none away. -/
theorem Files.Has.append {n m : ν} {r : ρ} {rs : List ρ} (h : F.Has n r) (hm : F m = some rs)
    (ts : List ρ) : Files.Has (Function.update F m (some (rs ++ ts))) n r := by
  by_cases hn : n = m
  · subst hn
    obtain ⟨us, hus, hr⟩ := h
    obtain rfl := Option.some.inj (hm.symm.trans hus)
    exact Files.has_update_self.mpr (List.mem_append_left _ hr)
  · exact h.update_of_ne hn

/-- Where a record of the changed files is. -/
theorem Files.Has.of_update {n m : ν} {r : ρ} {rs : List ρ}
    (h : Files.Has (Function.update F m (some rs)) n r) :
    (n = m ∧ r ∈ rs) ∨ (n ≠ m ∧ F.Has n r) := by
  obtain ⟨ts, hts, hr⟩ := h
  by_cases hn : n = m
  · subst hn
    rw [Function.update_self] at hts
    obtain rfl := Option.some.inj hts
    exact Or.inl ⟨rfl, hr⟩
  · rw [Function.update_of_ne hn] at hts
    exact Or.inr ⟨hn, ts, hts, hr⟩

/-- A record is appended, and the index leads to it. -/
theorem Catalog.put (h : Catalog S F idx abs) {n : ν} {rs : List ρ} (hn : F n = some rs) (r : ρ) :
    Catalog S (Function.update F n (some (rs ++ [r])))
      (Function.update idx (S.key r) (some (S.addr r)))
      (Function.update abs (S.key r) (some (S.content r))) where
  found := by
    intro k c habs
    by_cases hk : k = S.key r
    · subst hk
      rw [Function.update_self] at habs
      exact ⟨n, r, Files.has_update_self.mpr (by simp), rfl, Function.update_self ..,
        Option.some.inj habs⟩
    · rw [Function.update_of_ne hk] at habs
      obtain ⟨m, s, hs, rfl, hlive, rfl⟩ := h.found k c habs
      exact ⟨m, s, hs.append hn [r], rfl, (Function.update_of_ne hk _ _).trans hlive, rfl⟩
  known := by
    intro k hk
    by_cases hkey : k = S.key r
    · subst hkey
      rw [Function.update_self] at hk
      cases hk
    · rw [Function.update_of_ne hkey] at hk ⊢
      exact h.known k hk

/-! ## The index after records were moved -/

/-- The index leads to all of the records. -/
def Scheme.reindex (S : Scheme κ ρ ε γ) (idx : κ → Option ε) (rs : List ρ) : κ → Option ε :=
  rs.foldl (fun idx r => Function.update idx (S.key r) (some (S.addr r))) idx

theorem Scheme.reindex_of_notMem : ∀ {rs : List ρ} {idx : κ → Option ε} {k : κ},
    k ∉ rs.map S.key → S.reindex idx rs k = idx k
  | [], _, _, _ => rfl
  | r :: rs, idx, k, h => by
      rw [List.map_cons, List.mem_cons, not_or] at h
      exact (Scheme.reindex_of_notMem h.2).trans (Function.update_of_ne h.1 _ _)

theorem Scheme.live_reindex : ∀ {rs : List ρ} {idx : κ → Option ε}, (rs.map S.key).Nodup →
    ∀ r ∈ rs, S.Live (S.reindex idx rs) r
  | [], _, _, _, hr => by cases hr
  | s :: rs, idx, hnd, r, hr => by
      obtain ⟨hs, hnd'⟩ := List.nodup_cons.mp hnd
      rcases List.mem_cons.mp hr with rfl | hr
      · exact (Scheme.reindex_of_notMem hs).trans (Function.update_self ..)
      · exact Scheme.live_reindex hnd' r hr

theorem Scheme.Live.reindex_of_notMem {rs : List ρ} {r : ρ} (h : S.Live idx r)
    (hr : S.key r ∉ rs.map S.key) : S.Live (S.reindex idx rs) r :=
  (Scheme.reindex_of_notMem hr).trans h

end Update

end CatalogLib

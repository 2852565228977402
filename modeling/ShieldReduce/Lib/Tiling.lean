import Mathlib.Data.List.Nodup
import ShieldReduce.Lib.Bytes

/-!
# Byte strings tiled by records

A file that is nothing but records, one after the other, each of which
says at which position it starts. `Tiles` is that every record tells the
truth; a record is then found by its start, and by nothing else.
-/

namespace TilingLib

open ByteLib

/-- How records are spelled, and where each says it starts. -/
structure Layout (ρ : Type) where
  bytes : ρ → Bytes
  start : ρ → Nat
  bytes_pos : ∀ r, 0 < (bytes r).length

variable {ρ : Type} {L : Layout ρ}

/-- The records, one after the other. -/
def Layout.flat (L : Layout ρ) (rs : List ρ) : Bytes := rs.flatMap L.bytes

/-- The records start where they say, the first of them at `off`. -/
def Layout.Tiles (L : Layout ρ) : Nat → List ρ → Prop
  | _, [] => True
  | off, r :: rs => L.start r = off ∧ Tiles L (off + (L.bytes r).length) rs

@[simp] theorem Layout.flat_nil : L.flat [] = [] := rfl

@[simp] theorem Layout.flat_cons (r : ρ) (rs : List ρ) :
    L.flat (r :: rs) = L.bytes r ++ L.flat rs := rfl

@[simp] theorem Layout.flat_append (rs ts : List ρ) :
    L.flat (rs ++ ts) = L.flat rs ++ L.flat ts := List.flatMap_append

theorem tiles_append : ∀ {off : Nat} {rs ts : List ρ},
    L.Tiles off (rs ++ ts) ↔ L.Tiles off rs ∧ L.Tiles (off + (L.flat rs).length) ts
  | off, [], ts => by simp [Layout.Tiles]
  | off, r :: rs, ts => by
      simp only [List.cons_append, Layout.Tiles, tiles_append, Layout.flat_cons,
        List.length_append, Nat.add_assoc, and_assoc]

/-- A record stands behind the records before it. -/
theorem Layout.Tiles.split {off : Nat} {rs : List ρ} (h : L.Tiles off rs) {r : ρ} (hr : r ∈ rs) :
    ∃ us vs, rs = us ++ r :: vs ∧ L.start r = off + (L.flat us).length := by
  obtain ⟨us, vs, rfl⟩ := List.append_of_mem hr
  exact ⟨us, vs, rfl, (tiles_append.mp h).2.1⟩

/-- What is found at a record's start: the record. -/
theorem Layout.Tiles.drop_start {rs : List ρ} (h : L.Tiles 0 rs) {r : ρ} (hr : r ∈ rs) :
    ∃ rest, (L.flat rs).drop (L.start r) = L.bytes r ++ rest := by
  obtain ⟨us, vs, rfl, hstart⟩ := h.split hr
  refine ⟨L.flat vs, ?_⟩
  rw [hstart, Nat.zero_add, Layout.flat_append, List.drop_left, Layout.flat_cons]

theorem Layout.Tiles.le_start : ∀ {off : Nat} {rs : List ρ}, L.Tiles off rs → ∀ r ∈ rs, off ≤ L.start r
  | _, [], _, r, hr => by cases hr
  | off, s :: rs, h, r, hr => by
      rcases List.mem_cons.mp hr with rfl | hr
      · exact le_of_eq h.1.symm
      · exact le_trans (Nat.le_add_right _ _) (Layout.Tiles.le_start h.2 r hr)

theorem Layout.Tiles.start_nodup : ∀ {off : Nat} {rs : List ρ}, L.Tiles off rs → (rs.map L.start).Nodup
  | _, [], _ => List.nodup_nil
  | off, r :: rs, h => by
      refine List.nodup_cons.mpr ⟨fun hmem => ?_, Layout.Tiles.start_nodup h.2⟩
      obtain ⟨s, hs, heq⟩ := List.mem_map.mp hmem
      have hle := Layout.Tiles.le_start h.2 s hs
      have hpos := L.bytes_pos r
      rw [heq, h.1] at hle
      omega

theorem Layout.Tiles.start_lt {rs : List ρ} (h : L.Tiles 0 rs) {r : ρ} (hr : r ∈ rs) :
    L.start r < (L.flat rs).length := by
  obtain ⟨us, vs, rfl, hstart⟩ := h.split hr
  have hpos := L.bytes_pos r
  rw [Layout.flat_append, Layout.flat_cons, List.length_append, List.length_append]
  omega

theorem Layout.Tiles.pairwise_start {off : Nat} {rs : List ρ} (h : L.Tiles off rs) :
    rs.Pairwise fun r s => L.start r ≤ L.start s := by
  induction rs generalizing off with
  | nil => exact .nil
  | cons r rs ih =>
      refine .cons (fun s hs => ?_) (ih h.2)
      rw [h.1]
      exact le_trans (Nat.le_add_right _ _) (Layout.Tiles.le_start h.2 s hs)

/-- Two records with the same start are the same one. -/
theorem Layout.Tiles.eq_of_start {off : Nat} {rs : List ρ} (h : L.Tiles off rs) {r s : ρ}
    (hr : r ∈ rs) (hs : s ∈ rs) (heq : L.start r = L.start s) : r = s :=
  List.inj_on_of_nodup_map h.start_nodup hr hs heq

end TilingLib

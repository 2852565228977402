import Mathlib.Algebra.Group.Nat.Defs
import Mathlib.Tactic.Common

/-!
# The chained hash table of EDelta

`htable` of `edelta/htable.cc`: an array of chain heads indexed by a
multiplicative hash of the 8-byte key. `insert` links the item in front
of its chain and doubles the table when it is full; `lookup` walks the
chain to the first item with an equal key. Items are linked through
pointers in the source; here a chain is the list of its (key, item)
pairs and the array of heads is a map from bucket numbers to chains.

What the encoder needs of the table is one fact, `Htable.All`: whatever
`lookup` answers was inserted before.
-/

namespace ShieldReduce.Edelta

structure Htable (α : Type) where
  table : Nat → List (UInt64 × α)
  numItems : Nat
  maxItems : Nat
  buckets : Nat
  mask : UInt32

namespace Htable

variable {α : Type}

/-- `for (pwr=0; tsize; pwr++) tsize >>= 1`: the bit length of `tsize`. -/
def pwr (tsize : Nat) : Nat := if tsize = 0 then 0 else tsize.log2 + 1

/-- `init(offset, nhlen, tsize)`; the link offset and the key length are
those of the record type and carry no state here. -/
def init (tsize : Nat) : Htable α where
  table := fun _ => []
  numItems := 0
  maxItems := 2 ^ pwr (tsize / 4) * 4
  buckets := 2 ^ pwr (tsize / 4)
  mask := UInt32.ofNat (2 ^ pwr (tsize / 4) - 1)

/-- `(*(uint64_t*)key * 2654435761U) & mask`, stored in a 32-bit index. -/
def index (t : Htable α) (key : UInt64) : Nat :=
  ((key * 2654435761) &&& t.mask.toUInt64).toUInt32.toNat

/-- The linking half of `insert`: the item becomes the head of its chain. -/
def link (t : Htable α) (key : UInt64) (item : α) : Htable α :=
  { t with
    table := fun b => if b = t.index key then (key, item) :: t.table b else t.table b
    numItems := t.numItems + 1 }

/-- `grow_table`: every item, bucket by bucket and each chain from its
head, is inserted into an empty table of twice the size. That table is
never filled by them, so its own growth test is left out. -/
def growTable (t : Htable α) : Htable α :=
  let big : Htable α :=
    { table := fun _ => [], numItems := 0, maxItems := t.buckets * 2 * 4,
      buckets := t.buckets * 2, mask := t.mask <<< 1 ||| 1 }
  ((List.range t.buckets).flatMap t.table).foldl (fun b e => b.link e.1 e.2) big

def insert (t : Htable α) (key : UInt64) (item : α) : Htable α :=
  let t' := t.link key item
  if t'.maxItems ≤ t'.numItems then t'.growTable else t'

def lookup (t : Htable α) (key : UInt64) : Option α :=
  ((t.table (t.index key)).find? fun e => e.1 == key).map Prod.snd

def resetTable (t : Htable α) : Htable α :=
  { t with table := fun _ => [], numItems := 0 }

/-! ## What is in a table -/

/-- Every item linked into the table satisfies `P`. -/
def All (P : α → Prop) (t : Htable α) : Prop :=
  ∀ b, ∀ e ∈ t.table b, P e.2

/-- The state a table is in between two encodings. -/
def Clean (t : Htable α) : Prop := ∀ b, t.table b = []

theorem clean_init (tsize : Nat) : (init tsize : Htable α).Clean := fun _ => rfl

theorem clean_resetTable (t : Htable α) : t.resetTable.Clean := fun _ => rfl

theorem Clean.all {t : Htable α} (h : t.Clean) (P : α → Prop) : t.All P := by
  intro b e he
  rw [h b] at he
  cases he

theorem All.link {P : α → Prop} {t : Htable α} (h : t.All P) (key : UInt64) {item : α}
    (hi : P item) : (t.link key item).All P := by
  intro b e he
  simp only [Htable.link] at he
  split at he
  · rcases List.mem_cons.mp he with rfl | he'
    · exact hi
    · exact h b e he'
  · exact h b e he

theorem All.foldl_link {P : α → Prop} :
    ∀ (es : List (UInt64 × α)) {t : Htable α}, t.All P → (∀ e ∈ es, P e.2) →
      (es.foldl (fun b e => b.link e.1 e.2) t).All P
  | [], _, h, _ => h
  | e :: es, _, h, hes =>
      All.foldl_link es (h.link e.1 (hes e (by simp))) fun e' he' => hes e' (by simp [he'])

theorem All.growTable {P : α → Prop} {t : Htable α} (h : t.All P) : t.growTable.All P := by
  refine All.foldl_link _ (fun b e he => by cases he) ?_
  intro e he
  obtain ⟨b, _, hb⟩ := List.mem_flatMap.mp he
  exact h b e hb

theorem All.insert {P : α → Prop} {t : Htable α} (h : t.All P) (key : UInt64) {item : α}
    (hi : P item) : (t.insert key item).All P := by
  simp only [Htable.insert]
  split
  · exact (h.link key hi).growTable
  · exact h.link key hi

theorem All.lookup {P : α → Prop} {t : Htable α} (h : t.All P) {key : UInt64} {item : α}
    (hl : t.lookup key = some item) : P item := by
  simp only [Htable.lookup, Option.map_eq_some_iff] at hl
  obtain ⟨e, hfind, rfl⟩ := hl
  exact h _ e (List.mem_of_find?_eq_some hfind)

end Htable

end ShieldReduce.Edelta

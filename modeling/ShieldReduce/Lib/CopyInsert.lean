import ShieldReduce.Lib.Bytes

/-!
# Copy/insert deltas

A delta over a base is a list of operations, each of which copies a
range of the base or inserts literal bytes. Its text is the
concatenation of what the operations contribute. The two `snoc` lemmas
extend a delta that spells a prefix of a target to one that spells a
longer prefix, which is how an encoder that walks its target front to
back is proved right.
-/

namespace ByteLib

inductive DeltaOp where
  | copy (off len : Nat)
  | lit (bs : Bytes)

/-- The bytes one operation contributes. -/
def DeltaOp.text (base : Mem) : DeltaOp → Bytes
  | .copy off len => slice base off len
  | .lit bs => bs

/-- Copies read only the first `n` bytes of the base. -/
def DeltaOp.Within (n : Nat) : DeltaOp → Prop
  | .copy off len => off + len ≤ n
  | .lit _ => True

def applyOps (base : Mem) (ops : List DeltaOp) : Bytes := ops.flatMap (DeltaOp.text base)

@[simp] theorem applyOps_nil (base : Mem) : applyOps base [] = [] := rfl

@[simp] theorem applyOps_cons (base : Mem) (op : DeltaOp) (ops : List DeltaOp) :
    applyOps base (op :: ops) = op.text base ++ applyOps base ops := rfl

theorem applyOps_append (base : Mem) (xs ys : List DeltaOp) :
    applyOps base (xs ++ ys) = applyOps base xs ++ applyOps base ys := by
  simp [applyOps]

theorem applyOps_snoc_copy {base target : Mem} {ops : List DeltaOp} {pos off len : Nat}
    (h : applyOps base ops = slice target 0 pos)
    (hc : slice base off len = slice target pos len) :
    applyOps base (ops ++ [.copy off len]) = slice target 0 (pos + len) := by
  rw [applyOps_append, h, slice_add, Nat.zero_add]
  simp [DeltaOp.text, hc]

theorem applyOps_snoc_lit {base target : Mem} {ops : List DeltaOp} {pos : Nat}
    (h : applyOps base ops = slice target 0 pos) (len : Nat) :
    applyOps base (ops ++ [.lit (slice target pos len)]) = slice target 0 (pos + len) := by
  rw [applyOps_append, h, slice_add, Nat.zero_add]
  simp [DeltaOp.text]

/-- The base decides the bytes of the text, not how many there are. -/
theorem length_applyOps (base base' : Mem) :
    ∀ ops : List DeltaOp, (applyOps base ops).length = (applyOps base' ops).length
  | [] => rfl
  | op :: ops => by
      rw [applyOps_cons, applyOps_cons, List.length_append, List.length_append,
        length_applyOps base base' ops]
      cases op with
      | copy off len => simp [DeltaOp.text]
      | lit bs => rfl

/-- A delta whose copies stay below `n` does not see the base beyond `n`. -/
theorem applyOps_congr {base base' : Mem} {n : Nat} (hb : slice base 0 n = slice base' 0 n) :
    ∀ {ops : List DeltaOp}, (∀ op ∈ ops, op.Within n) →
      applyOps base ops = applyOps base' ops
  | [], _ => rfl
  | op :: ops, h => by
      have hrest := applyOps_congr hb fun o ho => h o (List.mem_cons_of_mem _ ho)
      have hop : op.text base = op.text base' := by
        cases op with
        | lit bs => rfl
        | copy off len =>
            have hle : off + len ≤ n := h (.copy off len) (by simp)
            refine slice_eq_iff.mpr fun i hi => ?_
            simpa using slice_eq_iff.mp hb (off + i) (by omega)
      rw [applyOps_cons, applyOps_cons, hop, hrest]

end ByteLib

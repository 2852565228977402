import Mathlib.Algebra.Order.Field.Rat
import Mathlib.Data.Nat.Cast.Order.Ring
import Mathlib.Tactic.Linarith
import Mathlib.Tactic.Positivity
import ShieldReduce.Edelta.RoundTrip

/-!
# The locals that are assigned late

`EDeltaEncode` declares `flag_handle_probe`, `probe_match` and the array
`InputLink` without a value; they are assigned in the block behind the
pacing test. Here each of them is a cell that holds nothing until it is
assigned, and reading an empty cell ends the run. The run reaches its end
with the delta of `Encode` exactly if the pacing test of the first round
is passed, or no round is made: that is a relation between the sizes of
the chunks and the length of their common head.
-/

namespace ShieldReduce.Edelta

open ByteLib LoopLib

/-- The locals of the main loop, with those that the declarations leave
unassigned. -/
structure Locals where
  enc : Enc
  psDupSubCnk : Option DeltaRecord
  flagHandleProbe : Option Bool
  probeMatch : Option Nat
  inputLink : Nat → Option InputString

namespace Locals

/-- The declarations. -/
def declare (s : Enc) : Locals := ⟨s, none, none, none, fun _ => none⟩

/-- The first round of chunking: `n` strings of the input are still to be cut
from `cursor`, the next of them into `InputLink[j]`, until one of them is
found. -/
def fillProbes (f : Job) (h : Heuristics) : (n j cursor : Nat) → Locals → Locals × Bool
  | 0, _, _, v => (v, false)
  | n + 1, j, cursor, v =>
      let length := chunkGear (fun i => f.newBuf (cursor + i)) (f.newEnd - cursor)
      let probe : InputString := ⟨length, h.weakHash (slice f.newBuf cursor length)⟩
      let v := { v with
        inputLink := Function.update v.inputLink j (some probe)
        psDupSubCnk := v.enc.psHTable.lookup probe.nHash }
      if v.psDupSubCnk.isSome then ({ v with probeMatch := some j }, true)
      else fillProbes f h n (j + 1) (cursor + length) v

/-- The later rounds look the strings up again. -/
def rescanProbes : (n j : Nat) → Locals → Option (Locals × Bool)
  | 0, _, v => some (v, false)
  | n + 1, j, v => do
      let probe ← v.inputLink j
      let v := { v with psDupSubCnk := v.enc.psHTable.lookup probe.nHash }
      if v.psDupSubCnk.isSome then some ({ v with probeMatch := some j }, true)
      else rescanProbes n (j + 1) v

/-- The lookups of round `i`. -/
def lookupProbes (f : Job) (h : Heuristics) (i : Nat) (v : Locals) : Option (Locals × Bool) :=
  if i = 0 then some (fillProbes f h INPUT_TRY 0 v.enc.cursorInput v) else rescanProbes INPUT_TRY 0 v

/-- The `for (i < BASE_STEP)` loop, `n` rounds before its end. -/
def chunkBase (f : Job) (h : Heuristics) : (n i chunkNumber : Nat) → Locals → Option Locals
  | 0, _, _, v => some v
  | n + 1, i, chunkNumber, v => do
      let (recs, numBytes) := chunkingV3 h.weakHash (fun k => f.baseBuf (v.enc.cursorBase + k))
        (f.baseEnd - v.enc.cursorBase) chunkNumber
      let (t, flagChunk) := insertBase v.enc.cursorBase recs v.enc.psHTable
      let v := { v with enc := { v.enc with
        psHTable := t, cursorBase := v.enc.cursorBase + numBytes, flagChunk := flagChunk } }
      let (v, found) ← lookupProbes f h i v
      if found || !flagChunk then some v else chunkBase f h n (i + 1) (chunkNumber * BASE_EXPAND) v

/-- The `for (i < INPUT_TRY)` loop over the probes; the flag says that it was
left for the label `match`. -/
def handleProbes (f : Job) : (n i : Nat) → Locals → Option (Locals × Bool)
  | 0, _, v => some ({ v with flagHandleProbe := some false }, false)
  | n + 1, i, v => do
      let probe ← v.inputLink i
      let probeMatch ← v.probeMatch
      if i = probeMatch then
        let psDupSubCnk ← v.psDupSubCnk
        some ({ v with
          enc := v.enc.matched f probe.nLength psDupSubCnk, flagHandleProbe := some false }, true)
      else handleProbes f n (i + 1) { v with enc := v.enc.unmatched f probe.nLength }

/-- The block behind the pacing test. -/
def pacing (f : Job) (h : Heuristics) (v : Locals) : Option Locals :=
  if v.enc.flagChunk && h.pace v.enc.cursorInput f.newSize v.enc.cursorBase f.baseSize then
    chunkBase f h BASE_STEP 0 BASE_BEGIN
      { v with flagHandleProbe := some true, probeMatch := some INPUT_TRY }
  else some v

/-- The block behind `flag_handle_probe`. -/
def probing (f : Job) (v : Locals) : Option (Locals × Bool) := do
  let flagHandleProbe ← v.flagHandleProbe
  if flagHandleProbe then handleProbes f INPUT_TRY 0 v else some (v, false)

/-- One iteration of the main loop. -/
def step (f : Job) (h : Heuristics) (v : Locals) : Option Locals := do
  let v ← v.pacing f h
  let (v, matched) ← v.probing f
  if matched then some v
  else
    let length := chunkGear (fun i => f.newBuf (v.enc.inputPos + i)) (f.newEnd - v.enc.inputPos)
    some { v with
      enc := v.enc.nextString f h
      psDupSubCnk :=
        v.enc.psHTable.lookup (h.weakHash (slice f.newBuf v.enc.inputPos length)) }

/-- The main loop. -/
def mainLoop (f : Job) (h : Heuristics) : (fuel : Nat) → Locals → Option Locals
  | 0, v => some v
  | fuel + 1, v => if v.enc.inputPos < f.newEnd then (v.step f h).bind (mainLoop f h fuel) else some v

/-- Head, main loop and tail. -/
def searched (f : Job) (h : Heuristics) (s : Enc) : Option Enc := do
  let s := if f.begSize ≠ 0 then s.copyUnit 0 f.begSize else s
  let v ← mainLoop f h (f.newSize + 1) (declare s)
  let s := if v.enc.flag = .unit2 then v.enc.patchHeader else v.enc
  return s.putTail f

end Locals

/-- `EcallFreqIndex::EDeltaEncode`: `none` when it reads an unassigned variable. -/
def EcallFreqIndex.eDeltaEncodeLocals (h : Heuristics) (t : CleanTable) (f : Job) : Option Bytes :=
  let s := Enc.init f t.1
  if f.baseSize ≤ f.begSize + f.endSize then some (s.trimmed f).output
  else (Locals.searched f h s).map Enc.output

/-- `OFFLineBackward::EDeltaEncode` in the same way. -/
def OFFLineBackward.eDeltaEncodeLocals (h : Heuristics) (t : Htable DeltaRecord) (f : Job) :
    Option Bytes :=
  if f.baseSize ≤ f.begSize + f.endSize then some ((Enc.init f t).trimmed f).output
  else (Locals.searched f h (Enc.init f t.resetTable)).map Enc.output

namespace Locals

/-! ## The probes -/

/-- `InputLink[j..]` holds the strings. -/
def Filled (link : Nat → Option InputString) : (j : Nat) → List InputString → Prop
  | _, [] => True
  | j, c :: cs => link j = some c ∧ Filled link (j + 1) cs

/-- What the lookups of the probes `cs` leave, from `InputLink[j]` on: `v` before,
`v'` after. -/
structure Probed (cs : List InputString) (j : Nat) (v v' : Locals) : Prop where
  enc : v'.enc = v.enc
  flagHandleProbe : v'.flagHandleProbe = v.flagHandleProbe
  hit : ∀ hit, findProbe v.enc.psHTable cs = some hit → v'.probeMatch = some (j + hit.before.length) ∧
    v'.psDupSubCnk = some hit.psDupSubCnk ∧ Filled v'.inputLink j (hit.before ++ [hit.probe])
  miss : findProbe v.enc.psHTable cs = none → v'.probeMatch = v.probeMatch ∧ Filled v'.inputLink j cs

theorem findProbe_cons_some {t : Htable DeltaRecord} {c : InputString} {r : DeltaRecord}
    (cs : List InputString) (h : t.lookup c.nHash = some r) : findProbe t (c :: cs) = some ⟨[], c, r⟩ := by
  rw [findProbe, h]

theorem findProbe_cons_none {t : Htable DeltaRecord} {c : InputString} (cs : List InputString)
    (h : t.lookup c.nHash = none) :
    findProbe t (c :: cs) = (findProbe t cs).map fun p => { p with before := c :: p.before } := by
  rw [findProbe, h]

/-- The first of the probes is found. -/
theorem Probed.here {c : InputString} {cs : List InputString} {j : Nat} {v v' : Locals}
    {r : DeltaRecord} (hlook : v.enc.psHTable.lookup c.nHash = some r) (henc : v'.enc = v.enc)
    (hflag : v'.flagHandleProbe = v.flagHandleProbe) (hmatch : v'.probeMatch = some j)
    (hdup : v'.psDupSubCnk = some r) (hlink : v'.inputLink j = some c) : Probed (c :: cs) j v v' where
  enc := henc
  flagHandleProbe := hflag
  hit := by
    intro hit hhit
    rw [findProbe_cons_some cs hlook] at hhit
    obtain rfl := Option.some.inj hhit
    exact ⟨hmatch, hdup, hlink, trivial⟩
  miss := by
    intro hnone
    rw [findProbe_cons_some cs hlook] at hnone
    cases hnone

/-- The first of them is not found, and `w` are the locals after its lookup. -/
theorem Probed.there {c : InputString} {cs : List InputString} {j : Nat} {v w v' : Locals}
    (hlook : v.enc.psHTable.lookup c.nHash = none) (h : Probed cs (j + 1) w v') (henc : w.enc = v.enc)
    (hflag : w.flagHandleProbe = v.flagHandleProbe) (hmatch : w.probeMatch = v.probeMatch)
    (hlink : v'.inputLink j = some c) : Probed (c :: cs) j v v' where
  enc := h.enc.trans henc
  flagHandleProbe := h.flagHandleProbe.trans hflag
  hit := by
    intro hit hhit
    rw [findProbe_cons_none cs hlook, ← henc] at hhit
    obtain ⟨rest, hrest, rfl⟩ := Option.map_eq_some_iff.mp hhit
    obtain ⟨hm, hdup, hfilled⟩ := h.hit rest hrest
    refine ⟨?_, hdup, hlink, hfilled⟩
    rw [hm, List.length_cons, Nat.add_right_comm, Nat.add_assoc]
  miss := by
    intro hnone
    rw [findProbe_cons_none cs hlook, ← henc] at hnone
    obtain ⟨hm, hfilled⟩ := h.miss (Option.map_eq_none_iff.mp hnone)
    exact ⟨hm.trans hmatch, hlink, hfilled⟩

theorem Probed.nil (j : Nat) (v : Locals) : Probed [] j v v where
  enc := rfl
  flagHandleProbe := rfl
  hit := fun _ hhit => by cases hhit
  miss := fun _ => ⟨rfl, trivial⟩

/-- The first round: the probes are cut and looked up. -/
theorem fillProbes_spec (f : Job) (h : Heuristics) (n j cursor : Nat) (v : Locals) :
    Probed (Edelta.inputLink f h n cursor) j v (fillProbes f h n j cursor v).1 ∧
      (fillProbes f h n j cursor v).2 =
        (findProbe v.enc.psHTable (Edelta.inputLink f h n cursor)).isSome ∧
      ∀ k < j, (fillProbes f h n j cursor v).1.inputLink k = v.inputLink k := by
  induction n generalizing j cursor v with
  | zero => exact ⟨.nil j v, rfl, fun k _ => rfl⟩
  | succ n ih =>
      rw [fillProbes, Edelta.inputLink]
      dsimp only
      generalize chunkGear (fun i => f.newBuf (cursor + i)) (f.newEnd - cursor) = length
      generalize h.weakHash (slice f.newBuf cursor length) = hash
      cases hlook : v.enc.psHTable.lookup hash with
      | some r =>
          rw [if_pos (by rfl), findProbe_cons_some _ hlook]
          refine ⟨.here hlook rfl rfl rfl rfl (Function.update_self ..), rfl, fun k hk => ?_⟩
          exact Function.update_of_ne (Nat.ne_of_lt hk) _ _
      | none =>
          rw [if_neg (by simp), findProbe_cons_none _ hlook]
          obtain ⟨hprobed, hfound, hkeep⟩ := ih (j + 1) (cursor + length)
            { v with
              inputLink := Function.update v.inputLink j (some ⟨length, hash⟩)
              psDupSubCnk := none }
          have hhead := hkeep j (Nat.lt_succ_self j)
          dsimp only at hhead
          rw [Function.update_self] at hhead
          refine ⟨.there hlook hprobed rfl rfl rfl hhead, ?_, fun k hk => ?_⟩
          · rw [hfound, Option.isSome_map]
          · rw [hkeep k (Nat.lt_succ_of_lt hk)]
            exact Function.update_of_ne (Nat.ne_of_lt hk) _ _

/-- The later rounds: only assigned entries are read. -/
theorem rescanProbes_spec (cs : List InputString) (j : Nat) (v : Locals)
    (hfilled : Filled v.inputLink j cs) : ∃ v', rescanProbes cs.length j v =
      some (v', (findProbe v.enc.psHTable cs).isSome) ∧ Probed cs j v v' ∧
        v'.inputLink = v.inputLink := by
  induction cs generalizing j v with
  | nil => exact ⟨v, rfl, .nil j v, rfl⟩
  | cons c cs ih =>
      obtain ⟨hc, hcs⟩ := hfilled
      rw [List.length_cons, rescanProbes, hc]
      dsimp only [Option.bind_eq_bind, Option.bind_some]
      cases hlook : v.enc.psHTable.lookup c.nHash with
      | some r =>
          rw [if_pos (by rfl), findProbe_cons_some _ hlook]
          exact ⟨_, rfl, .here hlook rfl rfl rfl rfl hc, rfl⟩
      | none =>
          rw [if_neg (by simp), findProbe_cons_none _ hlook]
          obtain ⟨v', hrun, hprobed, hlink⟩ := ih (j + 1) { v with psDupSubCnk := none } hcs
          refine ⟨v', ?_, .there hlook hprobed rfl rfl rfl ((congrFun hlink j).trans hc), hlink⟩
          rw [hrun, Option.isSome_map]

theorem length_inputLink (f : Job) (h : Heuristics) (n cursor : Nat) :
    (Edelta.inputLink f h n cursor).length = n := by
  induction n generalizing cursor with
  | zero => rfl
  | succ n ih => rw [Edelta.inputLink, List.length_cons, ih]

/-! ## The chunking rounds -/

/-- What a series of chunking rounds leaves: `v` before, `v'` after. -/
structure Chunked (link : List InputString) (r : Rounds) (v v' : Locals) : Prop where
  enc : v'.enc = { v.enc with
    psHTable := r.psHTable, cursorBase := r.cursorBase, flagChunk := r.flagChunk }
  flagHandleProbe : v'.flagHandleProbe = v.flagHandleProbe
  hit : ∀ hit, r.hit = some hit → v'.probeMatch = some hit.before.length ∧
    v'.psDupSubCnk = some hit.psDupSubCnk ∧ Filled v'.inputLink 0 (hit.before ++ [hit.probe])
  miss : r.hit = none → v'.probeMatch = v.probeMatch ∧ Filled v'.inputLink 0 link

/-- The rounds read no unassigned entry: all of them but the first find the
probes in their place. -/
theorem chunkBase_spec (f : Job) (h : Heuristics) (n i chunkNumber : Nat) (v : Locals)
    (hflag : v.enc.flagChunk = true) (hfirst : i = 0 → 0 < n)
    (hlater : i ≠ 0 → Filled v.inputLink 0 (Edelta.inputLink f h INPUT_TRY v.enc.cursorInput)) :
    ∃ v', chunkBase f h n i chunkNumber v = some v' ∧
      Chunked (Edelta.inputLink f h INPUT_TRY v.enc.cursorInput)
        (chunkRounds f h (Edelta.inputLink f h INPUT_TRY v.enc.cursorInput) n chunkNumber
          v.enc.cursorBase v.enc.psHTable) v v' := by
  induction n generalizing i chunkNumber v with
  | zero =>
      refine ⟨v, rfl, ?_, rfl, fun hit hhit => ?_, fun _ => ⟨rfl, ?_⟩⟩
      · rw [chunkRounds, ← hflag]
      · cases hhit
      · exact hlater fun hi => absurd (hfirst hi) (Nat.lt_irrefl 0)
  | succ n ih =>
      rw [chunkBase, chunkRounds]
      generalize chunkingV3 h.weakHash (fun k => f.baseBuf (v.enc.cursorBase + k))
        (f.baseEnd - v.enc.cursorBase) chunkNumber = chunked
      obtain ⟨recs, numBytes⟩ := chunked
      dsimp only
      generalize insertBase v.enc.cursorBase recs v.enc.psHTable = inserted
      obtain ⟨t, flagChunk⟩ := inserted
      dsimp only
      generalize hlink : Edelta.inputLink f h INPUT_TRY v.enc.cursorInput = link at hlater ⊢
      generalize hw : ({ v with enc := { v.enc with
        psHTable := t, cursorBase := v.enc.cursorBase + numBytes, flagChunk := flagChunk } } : Locals) = w
      -- the lookups of the round, whichever it is
      have hround : ∃ w', lookupProbes f h i w = some (w', (findProbe t link).isSome) ∧
          Probed link 0 w w' := by
        unfold lookupProbes
        by_cases hi : i = 0
        · obtain ⟨hprobed, hfound, -⟩ := fillProbes_spec f h INPUT_TRY 0 w.enc.cursorInput w
          rw [show w.enc.cursorInput = v.enc.cursorInput by rw [← hw], hlink] at hprobed hfound
          refine ⟨_, ?_, hprobed⟩
          rw [if_pos hi, show w.enc.cursorInput = v.enc.cursorInput by rw [← hw],
            show t = w.enc.psHTable by rw [← hw], ← hfound]
        · have hfilled : Filled w.inputLink 0 link := by
            rw [← hw]
            exact hlater hi
          obtain ⟨w', hrun, hprobed, -⟩ := rescanProbes_spec link 0 w hfilled
          rw [← hlink, length_inputLink, hlink] at hrun
          refine ⟨w', ?_, hprobed⟩
          rw [if_neg hi, hrun, show t = w.enc.psHTable by rw [← hw]]
      obtain ⟨w', hrun, hprobed⟩ := hround
      have htable : w.enc.psHTable = t := by rw [← hw]
      have hwflag : w.flagHandleProbe = v.flagHandleProbe := by rw [← hw]
      have hwmatch : w.probeMatch = v.probeMatch := by rw [← hw]
      rw [hrun]
      dsimp only [Option.bind_eq_bind, Option.bind_some]
      cases hfind : findProbe t link with
      | some hit =>
          rw [Option.isSome_some, Bool.true_or, if_pos rfl]
          refine ⟨w', rfl, ?_, hprobed.flagHandleProbe.trans hwflag, fun hit' hhit => ?_, fun hnone => ?_⟩
          · rw [hprobed.enc, ← hw]
          · obtain rfl := Option.some.inj hhit
            have := hprobed.hit hit (by rw [htable, hfind])
            rwa [Nat.zero_add] at this
          · cases hnone
      | none =>
          obtain ⟨hmatch, hfilled⟩ := hprobed.miss (by rw [htable, hfind])
          rw [Option.isSome_none, Bool.false_or]
          cases flagChunk with
          | false =>
              rw [if_pos (by rfl), if_neg (by simp)]
              refine ⟨w', rfl, ?_, hprobed.flagHandleProbe.trans hwflag, fun hit hhit => ?_, fun _ => ?_⟩
              · rw [hprobed.enc, ← hw]
              · cases hhit
              · exact ⟨hmatch.trans hwmatch, hfilled⟩
          | true =>
              rw [if_neg (by simp), if_pos rfl]
              have hcursor : w'.enc.cursorInput = v.enc.cursorInput := by rw [hprobed.enc, ← hw]
              have hrest := ih (i + 1) (chunkNumber * BASE_EXPAND) w' (by rw [hprobed.enc, ← hw])
                (fun hi => absurd hi (Nat.succ_ne_zero i))
                (fun _ => by rw [hcursor, hlink]; exact hfilled)
              rw [hcursor, hlink, show w'.enc.cursorBase = v.enc.cursorBase + numBytes by
                rw [hprobed.enc, ← hw], show w'.enc.psHTable = t by rw [hprobed.enc, htable]] at hrest
              obtain ⟨v', hv', hchunked⟩ := hrest
              refine ⟨v', hv', ?_, ?_, hchunked.hit, fun hnone => ?_⟩
              · rw [hchunked.enc, hprobed.enc, ← hw]
              · exact hchunked.flagHandleProbe.trans (hprobed.flagHandleProbe.trans hwflag)
              · obtain ⟨hm, hf⟩ := hchunked.miss hnone
                exact ⟨hm.trans (hmatch.trans hwmatch), hf⟩

/-- A probe that is found is one of the probes. -/
theorem chunkRounds_hit (f : Job) (h : Heuristics) (link : List InputString) (n chunkNumber cursorBase : Nat)
    (t : Htable DeltaRecord) (hit : ProbeHit)
    (hhit : (chunkRounds f h link n chunkNumber cursorBase t).hit = some hit) :
    hit.before.length < link.length := by
  induction n generalizing chunkNumber cursorBase t with
  | zero => cases hhit
  | succ n ih =>
      rw [chunkRounds] at hhit
      generalize chunkingV3 h.weakHash (fun i => f.baseBuf (cursorBase + i)) (f.baseEnd - cursorBase)
        chunkNumber = chunked at hhit
      dsimp only at hhit
      generalize insertBase cursorBase chunked.1 t = inserted at hhit
      split at hhit
      · rename_i hit' hfind
        obtain rfl := Option.some.inj hhit
        obtain ⟨-, rest, hlink⟩ := findProbe_some hfind
        rw [hlink, List.length_append, List.length_cons]
        omega
      · split at hhit
        · exact ih _ _ _ hhit
        · cases hhit

/-! ## The probes become units -/

/-- The probes up to the one that was found. -/
theorem handleProbes_hit (f : Job) {probe : InputString} {r : DeltaRecord} (before : List InputString)
    (n i : Nat) (v : Locals) (hn : before.length < n)
    (hfilled : Filled v.inputLink i (before ++ [probe]))
    (hmatch : v.probeMatch = some (i + before.length)) (hdup : v.psDupSubCnk = some r) :
    handleProbes f n i v = some ({ v with
      enc := (before.foldl (fun s c => s.unmatched f c.nLength) v.enc).matched f probe.nLength r
      flagHandleProbe := some false }, true) := by
  induction before generalizing n i v with
  | nil =>
      obtain ⟨n, rfl⟩ : ∃ m, n = m + 1 := ⟨n - 1, by omega⟩
      rw [handleProbes, hfilled.1, hmatch]
      dsimp only [Option.bind_eq_bind, Option.bind_some, List.length_nil, Nat.add_zero]
      rw [if_pos rfl, hdup]
      rfl
  | cons c before ih =>
      obtain ⟨n, rfl⟩ : ∃ m, n = m + 1 := ⟨n - 1, by omega⟩
      obtain ⟨hc, hcs⟩ := hfilled
      rw [List.length_cons] at hn hmatch
      obtain ⟨enc, psDupSubCnk, flagHandleProbe, probeMatch, link⟩ := v
      dsimp only at hc hcs hmatch hdup
      subst hmatch
      rw [handleProbes]
      dsimp only
      rw [hc]
      dsimp only [Option.bind_eq_bind, Option.bind_some]
      rw [if_neg (by omega)]
      exact ih n (i + 1) _ (by omega) hcs (by dsimp only; congr 1; omega) hdup

/-- All of them, when none was found. -/
theorem handleProbes_miss (f : Job) (cs : List InputString) (i : Nat) (v : Locals) {m : Nat}
    (hfilled : Filled v.inputLink i cs) (hmatch : v.probeMatch = some m) (hm : i + cs.length ≤ m) :
    handleProbes f cs.length i v = some ({ v with
      enc := cs.foldl (fun s c => s.unmatched f c.nLength) v.enc
      flagHandleProbe := some false }, false) := by
  induction cs generalizing i v with
  | nil => rfl
  | cons c cs ih =>
      obtain ⟨hc, hcs⟩ := hfilled
      rw [List.length_cons] at hm ⊢
      obtain ⟨enc, psDupSubCnk, flagHandleProbe, probeMatch, link⟩ := v
      dsimp only at hc hcs hmatch
      subst hmatch
      rw [handleProbes]
      dsimp only
      rw [hc]
      dsimp only [Option.bind_eq_bind, Option.bind_some]
      rw [if_neg (by omega)]
      exact ih (i + 1) _ hcs rfl (by omega)

/-! ## The main loop -/

/-- An iteration that passes the pacing test, or that comes after one that did,
reads no unassigned variable, and does what `Enc.step` does. -/
theorem step_spec (f : Job) (h : Heuristics) (v : Locals)
    (hready : (v.enc.flagChunk && h.pace v.enc.cursorInput f.newSize v.enc.cursorBase f.baseSize) = true ∨
      v.flagHandleProbe = some false) :
    ∃ v', step f h v = some v' ∧ v'.enc = v.enc.step f h ∧ v'.flagHandleProbe = some false := by
  unfold step pacing
  rw [Enc.step]
  cases hpace : v.enc.flagChunk && h.pace v.enc.cursorInput f.newSize v.enc.cursorBase f.baseSize with
  | false =>
      have hflag : v.flagHandleProbe = some false := by
        rcases hready with hready | hready
        · rw [hpace] at hready
          cases hready
        · exact hready
      rw [if_neg (by simp), if_neg (by simp)]
      dsimp only [Option.bind_eq_bind, Option.bind_some]
      rw [probing, hflag]
      exact ⟨_, rfl, rfl, hflag⟩
  | true =>
      have hchunk : v.enc.flagChunk = true := (Bool.and_eq_true_iff.mp hpace).1
      rw [if_pos rfl, if_pos rfl]
      obtain ⟨w, hw, hchunked⟩ := chunkBase_spec f h BASE_STEP 0 BASE_BEGIN
        { v with flagHandleProbe := some true, probeMatch := some INPUT_TRY } hchunk
        (fun _ => by decide) (fun hi => absurd rfl hi)
      rw [hw]
      dsimp only [Option.bind_eq_bind, Option.bind_some] at hchunked ⊢
      have hlength := length_inputLink f h INPUT_TRY v.enc.cursorInput
      generalize Edelta.inputLink f h INPUT_TRY v.enc.cursorInput = link at hchunked hlength ⊢
      have hbefore := chunkRounds_hit f h link BASE_STEP BASE_BEGIN v.enc.cursorBase v.enc.psHTable
      generalize chunkRounds f h link BASE_STEP BASE_BEGIN v.enc.cursorBase v.enc.psHTable = r
        at hchunked hbefore ⊢
      rw [probing, hchunked.flagHandleProbe]
      dsimp only [Option.bind_eq_bind, Option.bind_some]
      rw [if_pos rfl]
      cases hhit : r.hit with
      | some hit =>
          obtain ⟨hmatch, hdup, hfilled⟩ := hchunked.hit hit hhit
          rw [handleProbes_hit f hit.before INPUT_TRY 0 w (by rw [← hlength]; exact hbefore hit hhit)
            hfilled (by rw [hmatch, Nat.zero_add]) hdup, hchunked.enc]
          exact ⟨_, rfl, rfl, rfl⟩
      | none =>
          obtain ⟨hmatch, hfilled⟩ := hchunked.miss hhit
          have hrun := handleProbes_miss f link 0 w hfilled hmatch (by rw [hlength, Nat.zero_add])
          rw [hlength] at hrun
          rw [hrun, hchunked.enc]
          exact ⟨_, rfl, rfl, rfl⟩

/-- Otherwise `flag_handle_probe` is read before it was assigned. -/
theorem step_eq_none (f : Job) (h : Heuristics) (v : Locals)
    (hpace : (v.enc.flagChunk && h.pace v.enc.cursorInput f.newSize v.enc.cursorBase f.baseSize) = false)
    (hflag : v.flagHandleProbe = none) : step f h v = none := by
  unfold step pacing
  rw [if_neg (by rw [hpace]; simp)]
  dsimp only [Option.bind_eq_bind, Option.bind_some]
  rw [probing, hflag]
  rfl

/-- Once the flag is assigned, the loop is that of `Enc.mainLoop`. -/
theorem mainLoop_assigned (f : Job) (h : Heuristics) (fuel : Nat) (v : Locals)
    (hflag : v.flagHandleProbe = some false) : ∃ v', mainLoop f h fuel v = some v' ∧
      v'.enc = whileLoop (fun s => decide (s.inputPos < f.newEnd)) (Enc.step f h) fuel v.enc := by
  induction fuel generalizing v with
  | zero => exact ⟨v, rfl, rfl⟩
  | succ fuel ih =>
      rw [mainLoop, whileLoop]
      by_cases hin : v.enc.inputPos < f.newEnd
      · rw [if_pos hin, if_pos (by simpa using hin)]
        obtain ⟨w, hw, henc, hassigned⟩ := step_spec f h v (Or.inr hflag)
        rw [hw, ← henc]
        exact ih w hassigned
      · rw [if_neg hin, if_neg (by simpa using hin)]
        exact ⟨v, rfl, rfl⟩

/-- From the declarations on only the first pacing test matters. -/
theorem mainLoop_declare (f : Job) (h : Heuristics) (fuel : Nat) (s : Enc) (hchunk : s.flagChunk = true)
    (hfirst : s.inputPos < f.newEnd → h.pace s.cursorInput f.newSize s.cursorBase f.baseSize = true) :
    ∃ v', mainLoop f h (fuel + 1) (declare s) = some v' ∧
      v'.enc = whileLoop (fun s => decide (s.inputPos < f.newEnd)) (Enc.step f h) (fuel + 1) s := by
  rw [mainLoop, whileLoop, show (declare s).enc = s from rfl]
  by_cases hin : s.inputPos < f.newEnd
  · rw [if_pos hin, if_pos (decide_eq_true hin)]
    obtain ⟨w, hw, henc, hassigned⟩ := step_spec f h (declare s)
      (Or.inl (by rw [show (declare s).enc = s from rfl, hchunk, hfirst hin]; rfl))
    rw [hw, show s.step f h = w.enc from henc.symm]
    exact mainLoop_assigned f h fuel w hassigned
  · rw [if_neg hin, if_neg (by rw [decide_eq_true_eq]; exact hin)]
    exact ⟨_, rfl, rfl⟩

theorem mainLoop_declare_eq_none (f : Job) (h : Heuristics) (fuel : Nat) (s : Enc)
    (hin : s.inputPos < f.newEnd)
    (hpace : h.pace s.cursorInput f.newSize s.cursorBase f.baseSize = false) :
    mainLoop f h (fuel + 1) (declare s) = none := by
  rw [mainLoop, show (declare s).enc = s from rfl, if_pos hin, step_eq_none f h (declare s)
    (by rw [show (declare s).enc = s from rfl, hpace, Bool.and_false]) rfl]
  rfl

/-- The cursors at the start of the loop. -/
theorem head_cursors (f : Job) (t : Htable DeltaRecord) :
    let s := if f.begSize ≠ 0 then (Enc.init f t).copyUnit 0 f.begSize else Enc.init f t
    s.inputPos = f.begSize ∧ s.cursorInput = f.begSize ∧ s.cursorBase = f.begSize ∧
      s.flagChunk = true := by
  intro s
  by_cases hbeg : f.begSize ≠ 0
  · rw [show s = (Enc.init f t).copyUnit 0 f.begSize from if_pos hbeg]
    exact ⟨rfl, rfl, rfl, rfl⟩
  · rw [show s = Enc.init f t from if_neg hbeg]
    exact ⟨rfl, rfl, rfl, rfl⟩

theorem searched_eq (f : Job) (h : Heuristics) (t : Htable DeltaRecord)
    (hfirst : f.begSize < f.newEnd → h.pace f.begSize f.newSize f.begSize f.baseSize = true) :
    searched f h (Enc.init f t) = some ((Enc.init f t).searched f h) := by
  obtain ⟨hpos, hinput, hbase, hchunk⟩ := head_cursors f t
  unfold searched Enc.searched
  generalize (if f.begSize ≠ 0 then (Enc.init f t).copyUnit 0 f.begSize else Enc.init f t) = s
    at hpos hinput hbase hchunk ⊢
  obtain ⟨v', hv', henc⟩ := mainLoop_declare f h f.newSize s hchunk
    (fun hin => by rw [hinput, hbase]; exact hfirst (by rwa [hpos] at hin))
  dsimp only [Option.bind_eq_bind]
  rw [hv', Option.bind_some, henc, Enc.mainLoop]
  rfl

theorem searched_eq_none (f : Job) (h : Heuristics) (t : Htable DeltaRecord) (hin : f.begSize < f.newEnd)
    (hpace : h.pace f.begSize f.newSize f.begSize f.baseSize = false) :
    searched f h (Enc.init f t) = none := by
  obtain ⟨hpos, hinput, hbase, -⟩ := head_cursors f t
  unfold searched
  generalize (if f.begSize ≠ 0 then (Enc.init f t).copyUnit 0 f.begSize else Enc.init f t) = s
    at hpos hinput hbase ⊢
  dsimp only [Option.bind_eq_bind]
  rw [mainLoop_declare_eq_none f h f.newSize s (by rw [hpos]; exact hin)
    (by rw [hinput, hbase]; exact hpace)]
  rfl

end Locals

/-! ## The common head and tail of two byte strings -/

/-- The encoding of one byte string against another. -/
def Job.of (new base : Bytes) : Job := ⟨memOf new, new.length, memOf base, base.length⟩

/-- The length of the longest common prefix. -/
def commonPrefix : Bytes → Bytes → Nat
  | a :: as, b :: bs => if a = b then commonPrefix as bs + 1 else 0
  | _, _ => 0

/-- The common head, if it is longer than 16 bytes. -/
def commonHead (new base : Bytes) : Nat :=
  if 16 < commonPrefix base new then commonPrefix base new else 0

/-- The common tail behind the head, if it is longer than 16 bytes. -/
def commonTail (new base : Bytes) : Nat :=
  let tail := min (commonPrefix base.reverse new.reverse) (new.length - commonHead new base)
  if 16 < tail then tail else 0

theorem commonPrefix_eq {as bs : Bytes} {j : Nat} (ha : j ≤ as.length) (hb : j ≤ bs.length)
    (hsame : as.take j = bs.take j)
    (hend : ∀ (hja : j < as.length) (hjb : j < bs.length), as[j] ≠ bs[j]) : commonPrefix as bs = j := by
  induction j generalizing as bs with
  | zero =>
      cases as with
      | nil => rfl
      | cons a as =>
          cases bs with
          | nil => rfl
          | cons b bs => exact if_neg (hend (Nat.zero_lt_succ _) (Nat.zero_lt_succ _))
  | succ j ih =>
      cases as with
      | nil => cases ha
      | cons a as =>
          cases bs with
          | nil => cases hb
          | cons b bs =>
              rw [List.take_succ_cons, List.take_succ_cons, List.cons.injEq] at hsame
              rw [commonPrefix, if_pos hsame.1, ih (Nat.le_of_succ_le_succ ha)
                (Nat.le_of_succ_le_succ hb) hsame.2 fun hja hjb => ?_]
              exact hend (Nat.succ_lt_succ hja) (Nat.succ_lt_succ hjb)

/-- A common run does not end while the bytes agree. -/
theorem commonRun_exit {limit : Nat} {inside : Nat → Bool} {same : Nat → Nat → Bool}
    (hlimit : ∀ k, inside k = true → k < limit) :
    (inside (commonRun limit inside same) && same (commonRun limit inside same) 1) = false := by
  unfold commonRun
  exact whileLoop_add_exit Nat.one_pos (fun k hk => hlimit k (Bool.and_eq_true_iff.mp hk).1) limit _
    (Nat.le_add_left _ _)

theorem Job.headRun_exit (f : Job) (hb : f.headRun < f.baseSize) (hn : f.headRun < f.newSize) :
    slice f.baseBuf f.headRun 1 ≠ slice f.newBuf f.headRun 1 := by
  intro heq
  have hexit : ((decide (f.headRun < f.baseSize) && decide (f.headRun < f.newSize)) &&
      (slice f.baseBuf f.headRun 1 == slice f.newBuf f.headRun 1)) = false :=
    @commonRun_exit f.newSize (fun j => j < f.baseSize && j < f.newSize)
      (fun j w => slice f.baseBuf j w == slice f.newBuf j w) fun k hk =>
        of_decide_eq_true (Bool.and_eq_true_iff.mp hk).2
  rw [decide_eq_true hb, decide_eq_true hn, heq, beq_self_eq_true] at hexit
  cases hexit

theorem Job.tailRun_exit (f : Job) (hb : f.tailRun < f.baseSize) (hn : f.tailRun < f.newSize) :
    slice f.baseBuf (f.baseSize - f.tailRun - 1) 1 ≠ slice f.newBuf (f.newSize - f.tailRun - 1) 1 := by
  intro heq
  have hexit : ((decide (f.tailRun < f.baseSize) && decide (f.tailRun < f.newSize)) &&
      (slice f.baseBuf (f.baseSize - f.tailRun - 1) 1 ==
        slice f.newBuf (f.newSize - f.tailRun - 1) 1)) = false :=
    @commonRun_exit f.newSize (fun j => j < f.baseSize && j < f.newSize)
      (fun j w => slice f.baseBuf (f.baseSize - j - w) w == slice f.newBuf (f.newSize - j - w) w)
      fun k hk => of_decide_eq_true (Bool.and_eq_true_iff.mp hk).2
  rw [decide_eq_true hb, decide_eq_true hn, heq, beq_self_eq_true] at hexit
  cases hexit

theorem slice_memOf_one {l : Bytes} {i : Nat} (hi : i < l.length) : slice (memOf l) i 1 = [l[i]] := by
  rw [slice_memOf (by omega), List.drop_eq_getElem_cons hi]
  rfl

theorem headRun_of (new base : Bytes) : (Job.of new base).headRun = commonPrefix base new := by
  obtain ⟨hsame, hb, hn⟩ := (Job.of new base).headRun_spec
  have hexit := (Job.of new base).headRun_exit
  generalize (Job.of new base).headRun = j at hsame hb hn hexit ⊢
  dsimp only [Job.of] at hsame hb hn hexit
  rw [slice_memOf (by omega), slice_memOf (by omega), List.drop_zero, List.drop_zero] at hsame
  refine (commonPrefix_eq hb hn hsame fun hjb hjn heq => hexit hjb hjn ?_).symm
  rw [slice_memOf_one hjb, slice_memOf_one hjn, heq]

theorem take_reverse_slice {l : Bytes} {j : Nat} (hj : j ≤ l.length) :
    l.reverse.take j = (slice (memOf l) (l.length - j) j).reverse := by
  have hslice : slice (memOf l) (l.length - j) j = l.drop (l.length - j) := by
    rw [slice_memOf (by omega), List.take_of_length_le]
    rw [List.length_drop]
    omega
  rw [hslice, List.take_reverse]

theorem tailRun_of (new base : Bytes) :
    (Job.of new base).tailRun = commonPrefix base.reverse new.reverse := by
  obtain ⟨hb, hn, hsame⟩ := (Job.of new base).tailRun_spec
  have hexit := (Job.of new base).tailRun_exit
  generalize (Job.of new base).tailRun = j at hsame hb hn hexit ⊢
  dsimp only [Job.of] at hsame hb hn hexit
  refine (commonPrefix_eq (by rwa [List.length_reverse]) (by rwa [List.length_reverse]) ?_ ?_).symm
  · rw [take_reverse_slice hb, take_reverse_slice hn, hsame]
  · intro hjb hjn heq
    rw [List.length_reverse] at hjb hjn
    refine hexit hjb hjn ?_
    rw [slice_memOf_one (by omega), slice_memOf_one (by omega)]
    rw [List.getElem_reverse, List.getElem_reverse] at heq
    have hb1 : base.length - 1 - j = base.length - j - 1 := by omega
    have hn1 : new.length - 1 - j = new.length - j - 1 := by omega
    simp only [hb1, hn1] at heq
    rw [heq]

theorem begSize_of (new base : Bytes) : (Job.of new base).begSize = commonHead new base := by
  rw [Job.begSize, headRun_of, commonHead]

theorem Job.endSize_eq (f : Job) : f.endSize =
    if 16 < min f.tailRun (f.newSize - f.begSize) then min f.tailRun (f.newSize - f.begSize) else 0 := by
  have hle := f.begSize_spec.2.2
  have hmin : (if f.newSize < f.begSize + f.tailRun then f.newSize - f.begSize else f.tailRun) =
      min f.tailRun (f.newSize - f.begSize) := by
    split <;> omega
  rw [Job.endSize, hmin]

theorem endSize_of (new base : Bytes) : (Job.of new base).endSize = commonTail new base := by
  rw [Job.endSize_eq, begSize_of, tailRun_of]
  rfl

/-! ## The pacing test of the first round -/

/-- The pacing test over the rationals. -/
def Heuristics.exact (weakHash : Bytes → UInt64) : Heuristics where
  weakHash := weakHash
  pace := fun cursorInput newSize cursorBase baseSize =>
    decide ((cursorBase : ℚ) / baseSize ≤ (cursorInput : ℚ) / newSize + 1 / 2)

theorem exact_pace_iff (weakHash : Bytes → UInt64) {p newSize baseSize : Nat} (hn : 0 < newSize)
    (hb : 0 < baseSize) : (Heuristics.exact weakHash).pace p newSize p baseSize = true ↔
      2 * p * (newSize - baseSize) ≤ newSize * baseSize := by
  have hn' : (0 : ℚ) < newSize := Nat.cast_pos.mpr hn
  have hb' : (0 : ℚ) < baseSize := Nat.cast_pos.mpr hb
  have hcross : (p : ℚ) / baseSize ≤ (p : ℚ) / newSize + 1 / 2 ↔
      2 * p * newSize ≤ 2 * p * baseSize + newSize * baseSize := by
    rw [div_add_div _ _ hn'.ne' two_ne_zero, div_le_div_iff₀ hb' (by positivity)]
    rw [← Nat.cast_le (α := ℚ)]
    push_cast
    constructor <;> intro h <;> linarith
  rw [show (Heuristics.exact weakHash).pace p newSize p baseSize =
    decide ((p : ℚ) / baseSize ≤ (p : ℚ) / newSize + 1 / 2) from rfl, decide_eq_true_eq, hcross]
  rcases Nat.le_total newSize baseSize with hle | hle
  · rw [Nat.sub_eq_zero_of_le hle, Nat.mul_zero]
    have := Nat.mul_le_mul_left (2 * p) hle
    omega
  · rw [Nat.mul_sub]
    omega

/-- The first pacing test is passed, or is not made: the common head and tail
cover the base, or the new chunk is not so much longer than the base that
the head is behind half of the base when it is at the start of the chunk. -/
def PacesFirst (new base : Bytes) : Prop :=
  base.length ≤ commonHead new base + commonTail new base ∨
    2 * commonHead new base * (new.length - base.length) ≤ new.length * base.length

instance (new base : Bytes) : Decidable (PacesFirst new base) := by
  unfold PacesFirst
  infer_instance

/-- The two ways out of the main loop. -/
theorem searched_isSome_iff (weakHash : Bytes → UInt64) (t : Htable DeltaRecord) {new base : Bytes}
    (hnew : new ≠ []) (hbase : base ≠ [])
    (hlarge : ¬ base.length ≤ commonHead new base + commonTail new base) :
    ((Locals.searched (Job.of new base) (.exact weakHash) (Enc.init (Job.of new base) t)).isSome ↔
        PacesFirst new base) ∧
      (PacesFirst new base →
        Locals.searched (Job.of new base) (.exact weakHash) (Enc.init (Job.of new base) t) =
          some ((Enc.init (Job.of new base) t).searched (Job.of new base) (.exact weakHash))) := by
  have hn : 0 < new.length := List.length_pos_iff.mpr hnew
  have hb : 0 < base.length := List.length_pos_iff.mpr hbase
  have hpace : (Heuristics.exact weakHash).pace (Job.of new base).begSize (Job.of new base).newSize
      (Job.of new base).begSize (Job.of new base).baseSize = true ↔ PacesFirst new base := by
    rw [begSize_of]
    refine (exact_pace_iff weakHash hn hb).trans ?_
    exact (or_iff_right hlarge).symm
  have heq : PacesFirst new base →
      Locals.searched (Job.of new base) (.exact weakHash) (Enc.init (Job.of new base) t) =
        some ((Enc.init (Job.of new base) t).searched (Job.of new base) (.exact weakHash)) :=
    fun hfirst => Locals.searched_eq _ _ t fun _ => hpace.mpr hfirst
  refine ⟨⟨fun hsome => ?_, fun hfirst => by rw [heq hfirst]; rfl⟩, heq⟩
  by_contra hfirst
  -- the head is shorter than the base, so the loop is entered
  have hin : (Job.of new base).begSize < (Job.of new base).newEnd := by
    rw [Job.newEnd, begSize_of, endSize_of]
    change commonHead new base < new.length - commonTail new base
    have hlt : ¬ 2 * commonHead new base * (new.length - base.length) ≤ new.length * base.length :=
      fun h => hfirst (Or.inr h)
    have hsub : 0 < new.length - base.length := by
      rcases Nat.eq_zero_or_pos (new.length - base.length) with h | h
      · rw [h, Nat.mul_zero] at hlt
        exact absurd (Nat.zero_le _) hlt
      · exact h
    omega
  rw [Locals.searched_eq_none _ _ t hin (by rw [← Bool.not_eq_true]; exact fun h => hfirst (hpace.mp h))]
    at hsome
  cases hsome

/-- **No variable is read before it is assigned** exactly if the first pacing test
is passed or not made, and then the delta is the one that does not depend on
what was in the variables. -/
theorem eDeltaEncodeLocals_isSome_iff (weakHash : Bytes → UInt64) (t : CleanTable)
    (t' : Htable DeltaRecord) {new base : Bytes} (hnew : new ≠ []) (hbase : base ≠ []) :
    ((EcallFreqIndex.eDeltaEncodeLocals (.exact weakHash) t (Job.of new base)).isSome ↔
        PacesFirst new base) ∧
      ((OFFLineBackward.eDeltaEncodeLocals (.exact weakHash) t' (Job.of new base)).isSome ↔
        PacesFirst new base) ∧
      (PacesFirst new base →
        EcallFreqIndex.eDeltaEncodeLocals (.exact weakHash) t (Job.of new base) =
            some (EcallFreqIndex.eDeltaEncode (.exact weakHash) t (Job.of new base)).1 ∧
          OFFLineBackward.eDeltaEncodeLocals (.exact weakHash) t' (Job.of new base) =
            some (OFFLineBackward.eDeltaEncode (.exact weakHash) t' (Job.of new base)).1) := by
  unfold EcallFreqIndex.eDeltaEncodeLocals OFFLineBackward.eDeltaEncodeLocals
    EcallFreqIndex.eDeltaEncode OFFLineBackward.eDeltaEncode
  by_cases hsmall : (Job.of new base).baseSize ≤ (Job.of new base).begSize + (Job.of new base).endSize
  · have hfirst : PacesFirst new base := by
      rw [begSize_of, endSize_of] at hsmall
      exact Or.inl hsmall
    simp only [if_pos hsmall, Option.isSome_some, hfirst, iff_self, and_self, imp_self]
  · have hlarge := hsmall
    rw [begSize_of, endSize_of] at hlarge
    obtain ⟨hiff, heq⟩ := searched_isSome_iff weakHash t.1 hnew hbase hlarge
    obtain ⟨hiff', heq'⟩ := searched_isSome_iff weakHash t'.resetTable hnew hbase hlarge
    simp only [if_neg hsmall, Option.isSome_map]
    refine ⟨hiff, hiff', fun hfirst => ?_⟩
    rw [heq hfirst, heq' hfirst]
    exact ⟨rfl, rfl⟩

/-- Two chunks of the same length that differ in the middle. -/
theorem eDeltaEncodeLocals_isSome_iff_sameLength :
    (EcallFreqIndex.eDeltaEncodeLocals (.exact fun _ => 0) ⟨.init 16, Htable.clean_init 16⟩
        (Job.of [1, 2, 3] [1, 4, 3])).isSome ↔ PacesFirst [1, 2, 3] [1, 4, 3] :=
  (eDeltaEncodeLocals_isSome_iff (fun _ => 0) ⟨.init 16, Htable.clean_init 16⟩ (.init 16)
    (by decide) (by decide)).1

/-- A base of 18 bytes, all but the last of which start a chunk of 40 bytes. -/
def pacedBase : Bytes := List.replicate 17 0 ++ [1]

def pacedNew : Bytes := List.replicate 17 0 ++ List.replicate 23 2

theorem eDeltaEncodeLocals_pacedNew :
    EcallFreqIndex.eDeltaEncodeLocals (.exact fun _ => 0) ⟨.init 16, Htable.clean_init 16⟩
        (Job.of pacedNew pacedBase) = none ∧
      OFFLineBackward.eDeltaEncodeLocals (.exact fun _ => 0) (.init 16)
        (Job.of pacedNew pacedBase) = none := by
  decide +kernel

end ShieldReduce.Edelta

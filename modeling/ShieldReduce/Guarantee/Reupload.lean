import ShieldReduce.Invariant.Extends
import ShieldReduce.Guarantee.RecipeFile
import ShieldReduce.Guarantee.Interrupted

/-!
# A file name that is uploaded again

`InitUploadBuffer` truncates the recipe file of the name and writes a
placeholder for its head; full groups of fingerprints follow while the
batches come in. A session that is cut leaves the file like that. The
old recipe is gone unless it held the very same bytes, but nothing else
is: every other recipe is restored as before.
-/

namespace ShieldReduce

open ByteLib UMapLib Restore

variable {env : Env}

/-! ## The recipe of a session that is cut -/

/-- The full groups of `n` fingerprints; those behind the last one are left out. -/
def fullGroups (n : Nat) (hashes : List Fp) : List (List Fp) :=
  (List.range (hashes.length / n)).map fun i => (hashes.drop (n * i)).take n

theorem length_flatten_groups {n : Nat} (gs : List (List Fp)) (hfull : ∀ g ∈ gs, g.length = n) :
    gs.flatten.length = n * gs.length := by
  induction gs with
  | nil => rfl
  | cons g gs ih =>
      rw [List.flatten_cons, List.length_append, hfull g (List.mem_cons_self ..),
        ih fun g' hg' => hfull g' (List.mem_cons_of_mem _ hg'), List.length_cons, Nat.mul_succ,
        Nat.add_comm]

theorem count_groups {n : Nat} (hn : 0 < n) (gs : List (List Fp)) {rest : List Fp}
    (hfull : ∀ g ∈ gs, g.length = n) (hrest : rest.length < n) :
    (gs.flatten ++ rest).length / n = gs.length := by
  rw [List.length_append, length_flatten_groups gs hfull, Nat.add_comm, Nat.add_mul_div_left _ _ hn,
    Nat.div_eq_of_lt hrest, Nat.zero_add]

theorem fullGroups_append {n : Nat} (hn : 0 < n) (gs : List (List Fp)) {rest : List Fp}
    (hfull : ∀ g ∈ gs, g.length = n) (hrest : rest.length < n) :
    fullGroups n (gs.flatten ++ rest) = gs := by
  rw [fullGroups, count_groups hn gs hfull hrest]
  induction gs with
  | nil => rfl
  | cons g gs ih =>
      rw [List.length_cons, List.range_succ_eq_map, List.map_cons, List.map_map, List.flatten_cons,
        List.append_assoc]
      have hg := hfull g (List.mem_cons_self ..)
      congr 1
      · exact List.take_left' hg
      · refine Eq.trans (List.map_congr_left fun i _ => ?_)
          (ih fun g' hg' => hfull g' (List.mem_cons_of_mem _ hg'))
        show ((g ++ (gs.flatten ++ rest)).drop (n * (i + 1))).take n = _
        rw [Nat.mul_succ, Nat.add_comm, ← List.drop_drop, List.drop_left' hg]

/-- What the recipe file of a session holds before the end of its recipe. -/
def Upload.cutRecipe (env : Env) (u : Upload) : Bytes :=
  u.login.virtualRecipeEnd.1 ++
    (fullGroups env.sendRecipeBatchSize (u.chunks.map fun c => env.generateHash c.1)).flatMap
      (recipeGroup env u.login.masterKey)

theorem recipes_cut (henv : env.Lawful) (hB : 1 ≤ env.sendRecipeBatchSize) (s : Server) (u : Upload) :
    (s.receiveUpload env u false).recipes =
      s.recipes.insert u.login.recipePath (u.cutRecipe env) := by
  obtain ⟨hsame, hrecipe⟩ := frame_batches henv u u.login.virtualRecipeEnd.1 u.batches
    (Session.start s u.login) rfl
  obtain ⟨⟨gs, hgroups, hfull, hall⟩, hrest⟩ := hrecipe [] (recipeOk_start hB s u.login)
  rw [List.nil_append] at hall
  have hcut : (u.filled env s).client.recipe = u.cutRecipe env := by
    have hkey : (u.filled env s).client.masterKey = u.login.masterKey := hsame.masterKey
    rw [Upload.cutRecipe, Upload.chunks, ← hall, fullGroups_append hB gs hfull hrest, ← hkey]
    exact hgroups
  have hc := Session.closed_close (u.filled env s)
  rw [receiveUpload_false]
  show (u.filled env s).close.server.recipes.insert (u.filled env s).close.client.recipePath
    (u.filled env s).close.client.recipe = _
  rw [hc.recipes, hc.recipePath, hc.recipe, hcut]
  exact congrArg₂ (fun (r : UMap Fp Bytes) p => r.insert p (u.cutRecipe env)) hsame.recipes
    hsame.recipePath

/-! ## Restores after it -/

/-- The server has the recipe, and every fingerprint in it leads to a chunk. -/
def Complete (env : Env) (s : Server) (l : RestoreLogin) : Prop :=
  ∃ recipe, s.recipes.lookup l.recipePath = some recipe ∧
    ∀ buf ∈ recipeBuffers env recipe, KeysKnown env s l buf

/-- A recipe that is still there is restored as before. -/
theorem enclaveRecvDecoderRun_extends {s s' : Server} {l : RestoreLogin} (h : Extends s s')
    (hcomplete : Complete env s l)
    (hsame : s'.recipes.lookup l.recipePath = s.recipes.lookup l.recipePath)
    {msgs : List RestoreMessage} (hrun : enclaveRecvDecoderRun env s l = some msgs) :
    enclaveRecvDecoderRun env s' l = some msgs := by
  obtain ⟨recipe, hrecipe, hknown⟩ := hcomplete
  unfold enclaveRecvDecoderRun at hrun ⊢
  rw [hsame]
  rw [hrecipe] at hrun ⊢
  simp only [Option.bind_eq_bind, Option.bind_some, readRecipe_eq, Option.bind_eq_some_iff,
    Option.pure_def, Option.some.injEq] at hrun ⊢
  obtain ⟨r, hbatches, r', htail, rfl⟩ := hrun
  obtain ⟨hbatches', hr⟩ := procRecipeBatches_extends h hknown (.start env s l) hbatches
  exact ⟨r, hbatches', r', procRecipeTailBatch_extends h hr htail, rfl⟩

/-- What a session that is cut leaves of the recipes. -/
structure Overwrites (env : Env) (s s' : Server) (u : Upload) (old : Bytes) : Prop where
  /-- The placeholder and the full groups of the session take the place of the old recipe. -/
  recipe : s'.recipes.lookup u.login.recipePath = some (u.cutRecipe env)
  /-- The old file is still restored if the old recipe held the same bytes, and only then. -/
  name : (s'.recipes.lookup u.login.recipePath = some old ∧
    ∀ l msgs, l.recipePath = u.login.recipePath → Complete env s l →
      enclaveRecvDecoderRun env s l = some msgs → enclaveRecvDecoderRun env s' l = some msgs) ↔
    u.cutRecipe env = old
  /-- Every other file is. -/
  others : ∀ l msgs, l.recipePath ≠ u.login.recipePath → Complete env s l →
    enclaveRecvDecoderRun env s l = some msgs →
      s'.recipes.lookup l.recipePath = s.recipes.lookup l.recipePath ∧
        enclaveRecvDecoderRun env s' l = some msgs
  /-- The chunks of the old file are all there. -/
  chunks : Extends s s'

/-- **A failed re-upload**, without an offline pass after it. -/
theorem overwrites_cut (henv : env.Lawful) (hB : 1 ≤ env.sendRecipeBatchSize) (s : Server) (u : Upload)
    (hcounts : (s.receiveUpload env u false).Counts) {old : Bytes}
    (hold : s.recipes.lookup u.login.recipePath = some old) :
    Overwrites env s (s.receiveUpload env u false).updateOnlineInfo u old := by
  have hextends : Extends s (s.receiveUpload env u false).updateOnlineInfo := by
    obtain ⟨hindex, hfiles⟩ := extends_cut henv s u hcounts
    exact ⟨hindex, hfiles⟩
  have hlookup : ∀ path, (s.receiveUpload env u false).updateOnlineInfo.recipes.lookup path =
      if path = u.login.recipePath then some (u.cutRecipe env) else s.recipes.lookup path := by
    intro path
    show (s.receiveUpload env u false).recipes.lookup path = _
    rw [recipes_cut henv hB, lookup_eq_if]
  have hrecipe := (hlookup u.login.recipePath).trans (if_pos rfl)
  refine ⟨hrecipe, ⟨fun h => ?_, fun heq => ⟨by rw [hrecipe, heq], fun l msgs hpath => ?_⟩⟩,
    fun l msgs hpath hcomplete hrun => ?_, hextends⟩
  · exact Option.some.inj (hrecipe.symm.trans h.1)
  · exact fun hcomplete hrun => enclaveRecvDecoderRun_extends hextends hcomplete
      (by rw [hpath, hrecipe, hold, heq]) hrun
  · have hsame := (hlookup l.recipePath).trans (if_neg hpath)
    exact ⟨hsame, enclaveRecvDecoderRun_extends hextends hcomplete hsame hrun⟩

/-- The server that has a file of three chunks, two of which fill a group. -/
def threeChunkServer : Server :=
  ((Server.boot .plain blankResidue).receiveUpload .plain threeChunkUpload true).updateOnlineInfo

theorem overwrites_threeChunks :
    ∃ old, threeChunkServer.recipes.lookup (BytesN.ofBytes 32 [1]) = some old ∧
      threeChunkUpload.cutRecipe .plain ≠ threeChunkUpload.login.virtualRecipeEnd.1 ∧
      Overwrites .plain threeChunkServer
        (threeChunkServer.receiveUpload .plain threeChunkUpload false).updateOnlineInfo
        threeChunkUpload old :=
  ⟨BytesN.ofBytes 16 [9] ++ (BytesN.ofBytes 32 [1, 2] ++ (BytesN.ofBytes 32 [3] ++
      BytesN.ofBytes 32 [1, 2])), by decide +kernel, by decide +kernel,
    overwrites_cut Env.lawful_plain (by decide) threeChunkServer threeChunkUpload
      (by unfold Server.Counts; decide +kernel) (by decide +kernel)⟩

/-- The server that has the file of one byte. -/
def oneByteServer : Server :=
  ((Server.boot .plain blankResidue).receiveUpload .plain oneByteUpload true).updateOnlineInfo

def oneByteLogin : RestoreLogin where
  recipePath := BytesN.ofBytes 32 [1]
  sessionKey := BytesN.ofBytes 32 [2]
  masterKey := BytesN.ofBytes 32 [3]
  evict := id
  containerArray := fun _ => []
  baseAddr := fun _ => zeroCipher

theorem lost_reupload_oneByte :
    (enclaveRecvDecoderRun .plain oneByteServer oneByteLogin).map
        (restoredChunks .plain oneByteLogin.sessionKey) = some [[7]] ∧
      (enclaveRecvDecoderRun .plain
          (oneByteServer.receiveUpload .plain oneByteUpload false).updateOnlineInfo oneByteLogin).map
        (restoredChunks .plain oneByteLogin.sessionKey) = some [] ∧
      (oneByteServer.receiveUpload .plain oneByteUpload
          false).updateOnlineInfo.recipes.lookup oneByteLogin.recipePath ≠
        oneByteServer.recipes.lookup oneByteLogin.recipePath := by
  decide +kernel

end ShieldReduce

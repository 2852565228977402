import ShieldReduce.Invariant.Upload

/-!
# Recipes are read back as they were written

An upload encrypts its fingerprints in groups: a full one whenever a
counter that outlives the batches comes round, and the rest at the end.
A restore cuts the file by position. Both come to the same groups, so
that each one is decrypted as the buffer it was encrypted as.
-/

namespace ShieldReduce

open ByteLib UMapLib

namespace Restore

variable {env : Env}

theorem length_flatMap_val (g : List Fp) :
    (g.flatMap Subtype.val).length = g.length * CHUNK_HASH_SIZE := by
  induction g with
  | nil => rfl
  | cons f g ih =>
      rw [List.flatMap_cons, List.length_append, ih, f.2, List.length_cons, Nat.succ_mul,
        Nat.add_comm]
      rfl

theorem splitFps_flatMap : ∀ (g : List Fp), splitFps g.length (g.flatMap Subtype.val) = g
  | [] => rfl
  | f :: g => by
      unfold splitFps
      rw [List.length_cons, List.range_succ_eq_map, List.map_cons, List.map_map]
      congr 1
      · exact BytesN.ofBytes_append f _
      · refine Eq.trans (List.map_congr_left fun i _ => ?_) (splitFps_flatMap g)
        have hdrop : (f.1 ++ g.flatMap Subtype.val).drop (CHUNK_HASH_SIZE * (i + 1)) =
            (g.flatMap Subtype.val).drop (CHUNK_HASH_SIZE * i) := by
          rw [Nat.mul_succ, Nat.add_comm, ← List.drop_drop,
            show CHUNK_HASH_SIZE = f.1.length from f.2.symm, List.drop_left]
        exact congrArg (BytesN.ofBytes 32) hdrop

theorem length_recipeGroup (henv : env.Lawful) (masterKey : Key) (g : List Fp) :
    (recipeGroup env masterKey g).length = g.length * CHUNK_HASH_SIZE := by
  rw [recipeGroup, henv.length_masterKey, length_flatMap_val]

/-- A group that is decrypted as a whole. -/
theorem recipeFps_recipeGroup (henv : env.Lawful) (masterKey : Key) (g : List Fp) :
    recipeFps env masterKey (recipeGroup env masterKey g) = g := by
  have hnum : (recipeGroup env masterKey g).length / CHUNK_HASH_SIZE = g.length := by
    rw [length_recipeGroup henv]
    exact Nat.mul_div_cancel _ (by decide)
  have htake : (recipeGroup env masterKey g).take (g.length * CHUNK_HASH_SIZE) =
      recipeGroup env masterKey g := by
    rw [← length_recipeGroup henv masterKey g, List.take_length]
  rw [recipeFps, hnum, htake, recipeGroup, henv.masterKey, splitFps_flatMap]

/-- The groups of a recipe, the last one included if there is one. -/
def groupsOf (gs : List (List Fp)) (last : List Fp) : List (List Fp) :=
  gs ++ if last = [] then [] else [last]

theorem flatten_groupsOf (gs : List (List Fp)) (last : List Fp) :
    (groupsOf gs last).flatten = gs.flatten ++ last := by
  unfold groupsOf
  split
  · rename_i hnil
    rw [hnil, List.append_nil, List.append_nil]
  · rw [List.flatten_append, List.flatten_singleton]

/-- The last group is shorter, so that the read behind it is a short one. -/
theorem readBuffers_last (henv : env.Lawful) (masterKey : Key) {last : List Fp}
    (hlast : last.length < env.sendRecipeBatchSize) (fuel : Nat) :
    readBuffers env (fuel + 1) (if last = [] then [] else recipeGroup env masterKey last) =
      (groupsOf [] last).map (recipeGroup env masterKey) := by
  rw [readBuffers]
  by_cases hnil : last = []
  · simp [hnil, groupsOf]
  · have hshort : (recipeGroup env masterKey last).length <
        CHUNK_HASH_SIZE * env.sendRecipeBatchSize := by
      rw [length_recipeGroup henv, Nat.mul_comm]
      exact Nat.mul_lt_mul_of_pos_left hlast (by decide)
    have hpos : (recipeGroup env masterKey last).length ≠ 0 := by
      rw [length_recipeGroup henv]
      have : 0 < last.length := List.length_pos_of_ne_nil hnil
      exact Nat.ne_of_gt (Nat.mul_pos this (by decide))
    rw [if_neg hnil, List.take_of_length_le (le_of_lt hshort), if_neg hpos, if_pos hshort, groupsOf,
      if_neg hnil]
    rfl

/-- The reads of a recipe file are its groups. -/
theorem readBuffers_groups (henv : env.Lawful) (masterKey : Key) {last : List Fp}
    (hlast : last.length < env.sendRecipeBatchSize) : ∀ (gs : List (List Fp)) (fuel : Nat),
      (∀ g ∈ gs, g.length = env.sendRecipeBatchSize) → gs.length < fuel →
      readBuffers env fuel (gs.flatMap (recipeGroup env masterKey) ++
          if last = [] then [] else recipeGroup env masterKey last) =
        (groupsOf gs last).map (recipeGroup env masterKey)
  | [], fuel + 1, _, _ => readBuffers_last henv masterKey hlast fuel
  | g :: gs, fuel + 1, hfull, hfuel => by
      have hlen : (recipeGroup env masterKey g).length =
          CHUNK_HASH_SIZE * env.sendRecipeBatchSize := by
        rw [length_recipeGroup henv, hfull g (by simp), Nat.mul_comm]
      have hpos : CHUNK_HASH_SIZE * env.sendRecipeBatchSize ≠ 0 := by
        have : 0 < env.sendRecipeBatchSize := lt_of_le_of_lt (Nat.zero_le _) hlast
        exact Nat.ne_of_gt (Nat.mul_pos (by decide) this)
      have hrest := readBuffers_groups henv masterKey hlast gs fuel
        (fun g' hg' => hfull g' (by simp [hg'])) (by simpa using hfuel)
      rw [readBuffers, List.flatMap_cons, List.append_assoc, ← hlen, List.take_left, List.drop_left,
        hrest]
      simp only [hlen, hpos, if_false, lt_irrefl]
      rfl

/-- The file is long enough for the loop to see its end. -/
theorem length_le_groups (henv : env.Lawful) (masterKey : Key) (hB : 1 ≤ env.sendRecipeBatchSize) :
    ∀ (gs : List (List Fp)), (∀ g ∈ gs, g.length = env.sendRecipeBatchSize) →
      gs.length ≤ (gs.flatMap (recipeGroup env masterKey)).length
  | [], _ => Nat.zero_le _
  | g :: gs, hfull => by
      have hpos : 0 < (recipeGroup env masterKey g).length := by
        rw [length_recipeGroup henv, hfull g (by simp)]
        exact Nat.mul_pos hB (by decide)
      have := length_le_groups henv masterKey hB gs fun g' hg' => hfull g' (by simp [hg'])
      rw [List.flatMap_cons, List.length_append, List.length_cons]
      omega

end Restore

open Restore

variable {env : Env}

/-- What `Run` reads from a recipe file: the file behind its head, in parts. -/
def recipeBuffers (env : Env) (recipe : Bytes) : List Bytes :=
  readBuffers env ((recipe.drop 16).length + 1) (recipe.drop 16)

/-- The reads of a finished recipe are the groups that were encrypted. -/
theorem FullRecipe.recipeBuffers (henv : env.Lawful) {masterKey : Key} {head : BytesN 16}
    {hashes : List Fp} {recipe : Bytes} (h : FullRecipe env masterKey head.1 hashes recipe) :
    ∃ groups : List (List Fp), groups.flatten = hashes ∧
      ShieldReduce.recipeBuffers env recipe = groups.map (recipeGroup env masterKey) := by
  obtain ⟨gs, last, rfl, hfull, hlast, rfl⟩ := h
  refine ⟨groupsOf gs last, flatten_groupsOf gs last, ?_⟩
  have hdrop : (head.1 ++ gs.flatMap (recipeGroup env masterKey) ++
      if last = [] then [] else recipeGroup env masterKey last).drop 16 =
      gs.flatMap (recipeGroup env masterKey) ++
        if last = [] then [] else recipeGroup env masterKey last := by
    rw [List.append_assoc]
    exact List.drop_left' head.2
  have hfuel := length_le_groups henv masterKey (lt_of_le_of_lt (Nat.zero_le _) hlast) gs hfull
  rw [ShieldReduce.recipeBuffers, hdrop]
  refine readBuffers_groups henv masterKey hlast gs _ hfull ?_
  rw [List.length_append]
  omega

/-- The groups of a recipe are decrypted to its fingerprints. -/
theorem flatMap_recipeFps (henv : env.Lawful) (masterKey : Key) (groups : List (List Fp)) :
    (groups.map (recipeGroup env masterKey)).flatMap (recipeFps env masterKey) = groups.flatten := by
  induction groups with
  | nil => rfl
  | cons g groups ih =>
      rw [List.map_cons, List.flatMap_cons, ih, recipeFps_recipeGroup henv, List.flatten_cons]

/-- **Recipe round trip.** What a restore reads from the recipe of an upload
are buffers that the upload encrypted, each as a whole, and together they
hold the fingerprints of its chunks, in order. -/
theorem recipe_read_back (henv : env.Lawful) (hB : 1 ≤ env.sendRecipeBatchSize) (s : Server)
    (u : Upload) : ∃ (recipe : Bytes) (groups : List (List Fp)),
      (s.receiveUpload env u true).recipes.lookup u.login.recipePath = some recipe ∧
      recipeBuffers env recipe = groups.map (fun g =>
        env.encryptWithKey u.login.masterKey (g.flatMap Subtype.val)) ∧
      groups.flatten = u.chunks.map (fun c => env.generateHash c.1) ∧
      (recipeBuffers env recipe).flatMap (recipeFps env u.login.masterKey) =
        u.chunks.map fun c => env.generateHash c.1 := by
  obtain ⟨recipe, hrecipes, hfull⟩ := recipes_upload henv hB s u
  obtain ⟨groups, hall, hread⟩ := hfull.recipeBuffers henv
  refine ⟨recipe, groups, ?_, hread, hall, ?_⟩
  · rw [hrecipes, lookup_eq_if, if_pos rfl]
  · rw [hread, flatMap_recipeFps henv, hall]

/-- Three chunks in two batches, the first and the last of them the same. -/
def threeChunkUpload : Upload where
  login := ⟨BytesN.ofBytes 32 [1], BytesN.ofBytes 32 [2], BytesN.ofBytes 32 [3],
    BytesN.ofBytes 16 [], BytesN.ofBytes 16 []⟩
  batches := [⟨[⟨[1, 2], by decide⟩, ⟨[3], by decide⟩], fun _ => RecipeEntry.ofBytes []⟩,
    ⟨[⟨[1, 2], by decide⟩], fun _ => RecipeEntry.ofBytes []⟩]
  head := BytesN.ofBytes 16 [9]

theorem recipe_read_back_threeChunks : 1 ≤ Env.plain.sendRecipeBatchSize ∧
    ∃ (recipe : Bytes) (groups : List (List Fp)),
      ((Server.boot .plain ⟨[], fun _ => []⟩).receiveUpload .plain threeChunkUpload
        true).recipes.lookup (BytesN.ofBytes 32 [1]) = some recipe ∧
      recipeBuffers .plain recipe = groups.map (fun g =>
        Env.plain.encryptWithKey (BytesN.ofBytes 32 [3]) (g.flatMap Subtype.val)) ∧
      groups.flatten = threeChunkUpload.chunks.map (fun c => Env.plain.generateHash c.1) ∧
      (recipeBuffers .plain recipe).flatMap (recipeFps .plain (BytesN.ofBytes 32 [3])) =
        threeChunkUpload.chunks.map fun c => Env.plain.generateHash c.1 :=
  ⟨by decide, recipe_read_back Env.lawful_plain (by decide) (.boot .plain ⟨[], fun _ => []⟩)
    threeChunkUpload⟩

end ShieldReduce

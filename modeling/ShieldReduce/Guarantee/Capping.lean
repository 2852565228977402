import ShieldReduce.System.Restore

/-!
# The container request list

`idBuffer` has room for `CONTAINER_CAPPING_VALUE` names. Between two
entries of the recipe the names in it and the pending bases are fewer
than that (`Roomy`). An entry adds one name at most, but a delta chunk
adds a pending base as well, and the capping test comes after both: when
one place is left and the chunk and all the pending bases are in
containers of their own, looking up the bases writes one name too many
(`Overfull`). Nothing else goes wrong: `idNum_le_iff`.
-/

namespace ShieldReduce

open ByteLib UMapLib

namespace Restore

variable {env : Env} {s : Server} {l : RestoreLogin} {r r' r'' : Restore}

/-! ## Asking for containers -/

/-- From `r` to `r'` the containers `ns` were asked for. Each takes at most one
new slot, and each takes one exactly if all are new and different. -/
structure Asks (r : Restore) (ns : List ContainerName) (r' : Restore) : Prop where
  le : r.idBuffer.length ≤ r'.idBuffer.length
  grows : r'.idBuffer.length ≤ r.idBuffer.length + ns.length
  full : r'.idBuffer.length = r.idBuffer.length + ns.length ↔
    ns.Nodup ∧ ∀ n ∈ ns, r.tmpContainerMap.lookup n = none
  known : ∀ m, r'.tmpContainerMap.lookup m = none ↔ m ∉ ns ∧ r.tmpContainerMap.lookup m = none

theorem Asks.refl (r : Restore) : Asks r [] r :=
  ⟨le_refl _, le_refl _, by simp, by simp⟩

theorem Asks.congr {ns : List ContainerName} (h : Asks r ns r') (hids : r''.idBuffer = r'.idBuffer)
    (hmap : r''.tmpContainerMap = r'.tmpContainerMap) : Asks r ns r'' := by
  constructor
  · rw [hids]
    exact h.le
  · rw [hids]
    exact h.grows
  · rw [hids]
    exact h.full
  · rw [hmap]
    exact h.known

theorem Asks.trans {ns ms : List ContainerName} (h : Asks r ns r') (h' : Asks r' ms r'') :
    Asks r (ns ++ ms) r'' := by
  have hle := h.le
  have hgrows := h.grows
  have hgrows' := h'.grows
  refine ⟨le_trans hle h'.le, ?_, ?_, ?_⟩
  · rw [List.length_append]
    omega
  · have hboth : r''.idBuffer.length = r.idBuffer.length + (ns ++ ms).length ↔
        r'.idBuffer.length = r.idBuffer.length + ns.length ∧
          r''.idBuffer.length = r'.idBuffer.length + ms.length := by
      rw [List.length_append]
      omega
    rw [hboth, h.full, h'.full, List.nodup_append]
    constructor
    · rintro ⟨⟨hns, hnew⟩, hms, hnew'⟩
      refine ⟨⟨hns, hms, ?_⟩, fun n hn => ?_⟩
      · rintro n hn _ hm rfl
        exact ((h.known n).mp (hnew' n hm)).1 hn
      · rcases List.mem_append.mp hn with hn | hn
        · exact hnew n hn
        · exact ((h.known n).mp (hnew' n hn)).2
    · rintro ⟨⟨hns, hms, hdisj⟩, hnew⟩
      refine ⟨⟨hns, fun n hn => hnew n (List.mem_append_left _ hn)⟩, hms, fun n hn => ?_⟩
      exact (h.known n).mpr ⟨fun hmem => hdisj n hmem n hn rfl, hnew n (List.mem_append_right _ hn)⟩
  · intro m
    rw [h'.known, h.known, List.mem_append]
    tauto

theorem asks_slotOf (r : Restore) (n : ContainerName) : Asks r [n] (r.slotOf n).2 := by
  unfold slotOf
  cases hm : r.tmpContainerMap.lookup n with
  | some k =>
      refine ⟨le_refl _, Nat.le_add_right _ _, ?_, fun m => ?_⟩
      · simp [hm]
      · simp only [List.mem_singleton]
        refine ⟨fun h => ⟨?_, h⟩, fun h => h.2⟩
        rintro rfl
        rw [hm] at h
        cases h
  | none =>
      refine ⟨?_, ?_, ?_, fun m => ?_⟩
      · simp
      · simp
      · simp [hm]
      · show (r.tmpContainerMap.insert n r.idBuffer.length).lookup m = none ↔ _
        rw [lookup_eq_if, List.mem_singleton]
        by_cases heq : m = n <;> simp [heq]

/-! ## Looking up bases -/

variable (env s) in
/-- The containers of the pending bases. -/
def baseNames (r : Restore) : List ContainerName :=
  (List.range r.baseQuery.length).map fun i =>
    (env.decEntry ((queryBaseIndex s r).baseAddr i)).containerName

theorem asks_addBase (r : Restore) (i : Nat) :
    Asks r [(env.decEntry (r.baseAddr i)).containerName] (addBase env r i) :=
  (asks_slotOf r _).congr rfl rfl

theorem asks_foldl_addBase : ∀ (is : List Nat) (r : Restore),
    Asks r (is.map fun i => (env.decEntry (r.baseAddr i)).containerName) (is.foldl (addBase env) r)
  | [], r => .refl r
  | i :: is, r => by
      have hrest := asks_foldl_addBase is (addBase env r i)
      rw [baseAddr_addBase] at hrest
      exact (asks_addBase r i).trans hrest

/-- The bases that are pending are asked for. -/
theorem asks_lookUp (env : Env) (s : Server) (r : Restore) :
    Asks r (r.baseNames env s)
      ((List.range r.baseQuery.length).foldl (addBase env) (queryBaseIndex s r)) := by
  have h : Asks (queryBaseIndex s r) (r.baseNames env s)
      ((List.range r.baseQuery.length).foldl (addBase env) (queryBaseIndex s r)) :=
    asks_foldl_addBase _ _
  exact ⟨h.le, h.grows, h.full, h.known⟩

theorem mem_scanl_addBase : ∀ (is : List Nat) (r t : Restore), t ∈ is.scanl (addBase env) r →
    t.idBuffer.length ≤ (is.foldl (addBase env) r).idBuffer.length
  | [], r, t, ht => by
      rw [List.scanl_nil, List.mem_singleton] at ht
      rw [ht]
      exact le_refl _
  | i :: is, r, t, ht => by
      rw [List.scanl_cons] at ht
      rcases List.mem_cons.mp ht with rfl | ht
      · exact le_trans (asks_addBase t i).le (asks_foldl_addBase is _).le
      · exact mem_scanl_addBase is _ t ht

theorem foldl_mem_scanl : ∀ (is : List Nat) (r : Restore),
    is.foldl (addBase env) r ∈ is.scanl (addBase env) r
  | [], r => by rw [List.scanl_nil]; exact List.mem_singleton.mpr rfl
  | i :: is, r => by
      rw [List.scanl_cons]
      exact List.mem_cons_of_mem _ (foldl_mem_scanl is _)

/-- While the bases are looked up the list grows towards its length at the
end. -/
theorem forall_lookUpStates_iff (r : Restore) (n : Nat) :
    (∀ t ∈ r.lookUpStates env s, t.idBuffer.length ≤ n) ↔
      ((List.range r.baseQuery.length).foldl (addBase env) (queryBaseIndex s r)).idBuffer.length ≤ n :=
  ⟨fun h => h _ (foldl_mem_scanl _ _), fun h t ht => le_trans (mem_scanl_addBase _ _ t ht) h⟩

/-! ## One entry -/

/-- What holds between two entries. -/
structure Roomy (r : Restore) : Prop where
  room : r.idBuffer.length + r.baseQuery.length < containerCappingValue
  bases : r.baseQuery.length ≤ baseQueryMax

variable (env s) in
/-- The containers that an entry asks for if it makes the list full: those of
the pending bases and of its own base, and its own. -/
def askedNames (r : Restore) (value : Cipher) : List ContainerName :=
  let e := env.decEntry value
  if r.baseQuery.length < baseQueryMax then
    e.containerName :: baseNames env s { r with baseQuery := r.baseQuery ++ [e.basechunkHash] }
  else
    baseNames env s r ++ e.containerName ::
      baseNames env s { r.flushBaseQuery env s with baseQuery := [e.basechunkHash] }

variable (env s) in
/-- One place is left, and a delta chunk comes whose container is new, like
those of all pending bases and of its own base. -/
def Overfull (r : Restore) (value : Cipher) : Prop :=
  (env.decEntry value).deltaFlag = DELTA ∧
    r.idBuffer.length + r.baseQuery.length + 1 = containerCappingValue ∧
    (r.askedNames env s value).Nodup ∧
    ∀ n ∈ r.askedNames env s value, r.tmpContainerMap.lookup n = none

theorem length_baseNames (r : Restore) : (r.baseNames env s).length = r.baseQuery.length := by
  rw [baseNames, List.length_map, List.length_range]

/-- The lengths that a whole chunk leaves. -/
theorem addEntry_whole (s : Server) (r : Restore) {value : Cipher}
    (hflag : (env.decEntry value).deltaFlag ≠ DELTA) :
    Asks r [(env.decEntry value).containerName] (r.addEntry env s value) ∧
      (r.addEntry env s value).baseQuery = r.baseQuery := by
  unfold addEntry
  simp only [hflag, if_false]
  exact ⟨(asks_slotOf r _).congr rfl rfl, baseQuery_slotOf r _⟩

/-- A delta chunk whose base finds room in the query. -/
theorem addEntry_delta (s : Server) {value : Cipher} (hflag : (env.decEntry value).deltaFlag = DELTA)
    (hq : r.baseQuery.length < baseQueryMax) :
    Asks r [(env.decEntry value).containerName] (r.addEntry env s value) ∧
      (r.addEntry env s value).baseQuery = r.baseQuery ++ [(env.decEntry value).basechunkHash] ∧
      (r.addEntry env s value).baseAddr = r.baseAddr := by
  have hasks := asks_slotOf { r with baseQuery := r.baseQuery ++ [(env.decEntry value).basechunkHash] }
    (env.decEntry value).containerName
  unfold addEntry
  simp only [hflag, hq, if_true]
  exact ⟨⟨hasks.le, hasks.grows, hasks.full, hasks.known⟩, baseQuery_slotOf _ _,
    baseAddr_slotOf _ _⟩

/-- A delta chunk that has the query looked up first. -/
theorem addEntry_delta_full (s : Server) {value : Cipher} (hflag : (env.decEntry value).deltaFlag = DELTA)
    (hq : ¬ r.baseQuery.length < baseQueryMax) :
    Asks r (r.baseNames env s ++ [(env.decEntry value).containerName]) (r.addEntry env s value) ∧
      (r.addEntry env s value).baseQuery = [(env.decEntry value).basechunkHash] ∧
      (r.addEntry env s value).baseAddr = (r.flushBaseQuery env s).baseAddr := by
  have hown := asks_slotOf { r.flushBaseQuery env s with
    baseQuery := [(env.decEntry value).basechunkHash] } (env.decEntry value).containerName
  have hasks : Asks r (r.baseNames env s) { r.flushBaseQuery env s with
      baseQuery := [(env.decEntry value).basechunkHash] } := (asks_lookUp env s r).congr rfl rfl
  unfold addEntry
  simp only [hflag, hq, if_true, if_false]
  exact ⟨(hasks.trans hown).congr rfl rfl, baseQuery_slotOf _ _, baseAddr_slotOf _ _⟩

/-- All containers that an entry asks for, with those of its flush. -/
theorem asks_flush (s : Server) (r : Restore) {value : Cipher}
    (hflag : (env.decEntry value).deltaFlag = DELTA) :
    Asks r (r.askedNames env s value)
      ((List.range (r.addEntry env s value).baseQuery.length).foldl (addBase env)
        (queryBaseIndex s (r.addEntry env s value))) := by
  have hbases := asks_lookUp env s (r.addEntry env s value)
  unfold askedNames
  simp only
  split
  · rename_i hq
    obtain ⟨hown, hquery, haddr⟩ := addEntry_delta s hflag hq
    have hnames : (r.addEntry env s value).baseNames env s = baseNames env s
        { r with baseQuery := r.baseQuery ++ [(env.decEntry value).basechunkHash] } := by
      unfold baseNames queryBaseIndex
      rw [hquery, haddr]
    rw [hnames] at hbases
    exact hown.trans hbases
  · rename_i hq
    obtain ⟨hown, hquery, haddr⟩ := addEntry_delta_full s hflag hq
    have hnames : (r.addEntry env s value).baseNames env s = baseNames env s
        { r.flushBaseQuery env s with baseQuery := [(env.decEntry value).basechunkHash] } := by
      unfold baseNames queryBaseIndex
      rw [hquery, haddr]
    rw [hnames] at hbases
    have hall := hown.trans hbases
    rwa [List.append_assoc] at hall

theorem length_askedNames (r : Restore) (value : Cipher) :
    (r.askedNames env s value).length = r.baseQuery.length + 2 := by
  unfold askedNames
  simp only
  split
  · rw [List.length_cons, length_baseNames, List.length_append]
    rfl
  · rw [List.length_append, List.length_cons, length_baseNames, length_baseNames]
    rfl

/-- The list while an entry is processed, up to the flush. -/
theorem Roomy.length_addEntry (h : Roomy r) (value : Cipher) :
    (r.addEntry env s value).idBuffer.length ≤ containerCappingValue := by
  have hroom := h.room
  have hbases := h.bases
  unfold containerCappingValue at *
  by_cases hflag : (env.decEntry value).deltaFlag = DELTA
  · by_cases hq : r.baseQuery.length < baseQueryMax
    · have hgrows := (addEntry_delta s hflag hq).1.grows
      rw [List.length_singleton] at hgrows
      omega
    · have hgrows := (addEntry_delta_full s hflag hq).1.grows
      rw [List.length_append, length_baseNames, List.length_singleton] at hgrows
      omega
  · have hgrows := (addEntry_whole s r hflag).1.grows
    rw [List.length_singleton] at hgrows
    omega

/-- The flush is where the list can get too long. -/
theorem Roomy.forall_entryStates_iff (h : Roomy r) (value : Cipher) :
    (∀ t ∈ r.entryStates env s value, t.idBuffer.length ≤ containerCappingValue) ↔
      ((r.addEntry env s value).Capped → ((List.range (r.addEntry env s value).baseQuery.length).foldl
        (addBase env) (queryBaseIndex s (r.addEntry env s value))).idBuffer.length ≤
          containerCappingValue) := by
  have hfirst : ∀ t ∈ r.lookUpStates env s, t.idBuffer.length ≤ containerCappingValue := by
    rw [forall_lookUpStates_iff]
    have hgrows := (asks_lookUp env s r).grows
    have hroom := h.room
    rw [length_baseNames] at hgrows
    omega
  rw [← forall_lookUpStates_iff, entryStates]
  constructor
  · intro hall hcap t ht
    refine hall t (List.mem_append_right _ (List.mem_cons_of_mem _ ?_))
    rwa [if_pos hcap]
  · intro hlast t ht
    rcases List.mem_append.mp ht with ht | ht
    · split at ht
      · exact hfirst t ht
      · cases ht
    · rcases List.mem_cons.mp ht with rfl | ht
      · exact h.length_addEntry value
      · split at ht
        · rename_i hcap
          exact hlast hcap t ht
        · cases ht

/-- An entry overflows the list exactly if it makes it overfull. -/
theorem Roomy.entryStates_iff (h : Roomy r) (value : Cipher) :
    (∀ t ∈ r.entryStates env s value, t.idBuffer.length ≤ containerCappingValue) ↔
      ¬ r.Overfull env s value := by
  rw [h.forall_entryStates_iff]
  have hroom := h.room
  have hlast := (asks_lookUp env s (r.addEntry env s value)).grows
  rw [length_baseNames] at hlast
  by_cases hflag : (env.decEntry value).deltaFlag = DELTA
  · have hall := asks_flush s r hflag
    have hgrows := hall.grows
    have hfull := hall.full
    rw [length_askedNames] at hgrows hfull
    constructor
    · rintro hle ⟨-, hleft, hnew⟩
      have hlen := hfull.mpr hnew
      have := hle (by unfold Capped; omega)
      omega
    · intro hnot hcap
      by_contra hgt
      refine hnot ⟨hflag, by omega, hfull.mp (by omega)⟩
  · obtain ⟨hown, hquery⟩ := addEntry_whole s r hflag
    have hgrows := hown.grows
    rw [List.length_singleton] at hgrows
    rw [hquery] at hlast ⊢
    refine ⟨fun _ hover => hflag hover.1, fun _ _ => ?_⟩
    omega

/-! ## All entries -/

theorem roomy_of_nil (hids : r.idBuffer = []) (hquery : r.baseQuery = []) : Roomy r :=
  ⟨by rw [hids, hquery]; decide, by rw [hquery]; decide⟩

theorem Roomy.procEntry (h : Roomy r) {value : Cipher} (hr : r.procEntry env s l value = some r') :
    Roomy r' := by
  rw [procEntry_eq] at hr
  split at hr
  · obtain ⟨r₁, -, rfl⟩ := Option.map_eq_some_iff.mp hr
    exact roomy_of_nil rfl rfl
  · rename_i hcap
    obtain rfl := Option.some.inj hr
    refine ⟨Nat.lt_of_not_le hcap, ?_⟩
    have hbases := h.bases
    by_cases hflag : (env.decEntry value).deltaFlag = DELTA
    · by_cases hq : r.baseQuery.length < baseQueryMax
      · rw [(addEntry_delta s hflag hq).2.1, List.length_append]
        exact hq
      · rw [(addEntry_delta_full s hflag hq).2.1, List.length_singleton]
        decide
    · rw [(addEntry_whole s r hflag).2]
      exact hbases

theorem roomy_start (l : RestoreLogin) : Roomy (start l) := roomy_of_nil rfl rfl

theorem Roomy.clearMap (r : Restore) (h : Roomy r) : Roomy { r with tmpContainerMap := ∅ } :=
  ⟨h.room, h.bases⟩

/-- The list is within its bounds in the whole restore if and only if no entry
makes it overfull. -/
theorem idNum_le_iff (env : Env) (s : Server) (l : RestoreLogin) (bufs : List Bytes) :
    (∀ t ∈ restoreStates env s l bufs, t.idBuffer.length ≤ containerCappingValue) ↔
      ∀ p ∈ batchSteps env s l bufs (start l), ¬ p.1.Overfull env s p.2 := by
  have hstep : ∀ (r : Restore) (value : Cipher) (r' : Restore), True → Roomy r →
      r.procEntry env s l value = some r' → Roomy r' := fun _ _ _ _ hr hnext => hr.procEntry hnext
  have hsteps : ∀ p ∈ batchSteps env s l bufs (start l), Roomy p.1 := fun p hp =>
    (invariant_batchSteps Roomy.clearMap hstep bufs (start l) (fun _ _ _ _ => trivial)
      (roomy_start l) p hp).1
  constructor
  · intro hall p hp
    refine ((hsteps p hp).entryStates_iff p.2).mp fun t ht => hall t ?_
    exact List.mem_append_left _ (List.mem_flatMap.mpr ⟨p, hp, ht⟩)
  · intro hnot t ht
    rcases List.mem_append.mp ht with ht | ht
    · obtain ⟨p, hp, ht⟩ := List.mem_flatMap.mp ht
      exact ((hsteps p hp).entryStates_iff p.2).mpr (hnot p hp) t ht
    · obtain ⟨r, hr, ht⟩ := List.mem_flatMap.mp ht
      have hroomy := invariant_tailState Roomy.clearMap hstep (fun _ _ _ _ => trivial) (roomy_start l)
        (Option.mem_toList.mp hr)
      refine (forall_lookUpStates_iff r _).mpr ?_ t ht
      have hgrows := (asks_lookUp env s r).grows
      have hroom := hroomy.room
      rw [length_baseNames] at hgrows
      omega

/-- Seventeen chunks in containers of their own. The last but one is a delta
of the last. -/
def seventeenContainers : InMemoryDatabase :=
  (List.range 17).foldl (fun db i => db.insertBothBuffer (BytesN.ofBytes 32 [UInt8.ofNat i])
    (Env.plain.encEntry ⟨BytesN.ofBytes 7 [UInt8.ofNat i], if i = 15 then DELTA else NO_DELTA, 0, 1,
      BytesN.ofBytes 32 [16], BytesN.ofBytes 96 []⟩)) .empty

/-- The recipe of all but the last overflows the list. -/
theorem not_idNum_le_seventeen : ¬ ∀ t ∈ restoreStates .plain
    { Server.boot .plain ⟨[], fun _ => []⟩ with db := seventeenContainers }
    ⟨BytesN.ofBytes 32 [1], BytesN.ofBytes 32 [], BytesN.ofBytes 32 [], id, fun _ => [],
      fun _ => zeroCipher⟩
    [(List.range 16).flatMap fun i => (BytesN.ofBytes 32 [UInt8.ofNat i]).1],
    t.idBuffer.length ≤ containerCappingValue := by
  decide +kernel

end Restore

end ShieldReduce

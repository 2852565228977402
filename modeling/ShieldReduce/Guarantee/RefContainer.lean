import ShieldReduce.System.DataWriter
import ShieldReduce.Invariant.Session

/-!
# Containers of bases, while they are written

`Ocall_getRefContainer` takes a container that it can open for one that
is written. It is right in every interleaving in which the data writer
does not have that file open at that moment: a file that is complete
stays so, because no container ID is used twice. While the data writer
has it open, even behind `fwrite`, the answer may be `DELTA` and a buffer
that has only a part of the container, or nothing.
-/

namespace ShieldReduce

open ByteLib StepLib TilingLib

def Container.key (c : Container) : Dir × ContainerName := (c.deltaFlag, c.containerID)

namespace Threads

/-- The containers without a file yet. -/
def pending (t : Threads) : List Container :=
  (match t.writer with
    | .popped c => [c]
    | _ => []) ++ t.inputMQ

/-- The file of the container is complete. -/
def Whole (t : Threads) (d : Dir) (name : ContainerName) (body : Bytes) : Prop :=
  t.files d name = some body ∧ ¬ t.Torn d name

/-- A call that is under way has opened a file that is complete. -/
def RefOk (t : Threads) : Prop :=
  match t.ref with
  | .idle => True
  | .opened name => ∃ body, t.bodies .base name = some body ∧ t.Whole .base name body
  | .sized name readSize => ∃ body, t.bodies .base name = some body ∧ t.Whole .base name body ∧
      readSize = body.length

structure Sane (t : Threads) : Prop where
  named : ∀ {d n}, t.bodies d n ≠ none → Named t.created n
  curNamed : ∀ d, Named t.created (t.cur d)
  /-- A container that is being filled was not handed over. -/
  curOpen : ∀ d d', t.bodies d' (t.cur d) = none
  curApart : t.cur .base ≠ t.cur .delta
  known : ∀ {d n}, t.files d n ≠ none → t.bodies d n ≠ none
  whole : ∀ {d n body}, t.Whole d n body → t.bodies d n = some body
  body : ∀ c ∈ t.pending ++ t.writer.writing, t.bodies c.deltaFlag c.containerID = some c.body
  fresh : ∀ c ∈ t.pending, t.files c.deltaFlag c.containerID = none
  distinct : ((t.pending ++ t.writer.writing).map Container.key).Nodup
  ref : t.RefOk
  answers : ∀ a ∈ t.answers, ∃ body, t.bodies .base a.1 = some body ∧ body <+: a.2

/-- A call goes on if complete files stay so. -/
theorem RefOk.mono {t t' : Threads} (h : t.RefOk) (href : t'.ref = t.ref)
    (hbodies : ∀ n body, t.bodies .base n = some body → t'.bodies .base n = some body)
    (hwhole : ∀ n body, t.Whole .base n body → t'.Whole .base n body) : t'.RefOk := by
  unfold RefOk at h ⊢
  rw [href]
  cases hr : t.ref with
  | idle => trivial
  | opened name =>
      rw [hr] at h
      obtain ⟨body, hbody, hw⟩ := h
      exact ⟨body, hbodies _ _ hbody, hwhole _ _ hw⟩
  | sized name readSize =>
      rw [hr] at h
      obtain ⟨body, hbody, hw, hsize⟩ := h
      exact ⟨body, hbodies _ _ hbody, hwhole _ _ hw, hsize⟩

theorem put_of_ne {v : View} {d d' : Dir} {n name : ContainerName} {bytes : Bytes}
    (h : (d', n) ≠ (d, name)) : v.put d name bytes d' n = v d' n :=
  if_neg fun heq => h (Prod.ext heq.1 heq.2)

theorem put_self (v : View) (d : Dir) (name : ContainerName) (bytes : Bytes) :
    v.put d name bytes d name = some bytes := if_pos ⟨rfl, rfl⟩

/-! ## The data writer -/

/-- A step that changes nothing but where the writer is, between containers. -/
theorem Sane.between {t : Threads} (h : t.Sane) {writer : WriterAt} {inputMQ : List Container}
    (hpending : pending { t with writer := writer, inputMQ := inputMQ } = t.pending)
    (hwriting : writer.writing = t.writer.writing) :
    Sane { t with writer := writer, inputMQ := inputMQ } := by
  have htorn : ∀ d n, Torn { t with writer := writer, inputMQ := inputMQ } d n ↔ t.Torn d n := by
    intro d n
    unfold Torn
    rw [hwriting]
  have hwhole : ∀ d n body, Whole { t with writer := writer, inputMQ := inputMQ } d n body ↔
      t.Whole d n body := by
    intro d n body
    unfold Whole
    rw [htorn]
  refine ⟨h.named, h.curNamed, h.curOpen, h.curApart, h.known, ?_, ?_, ?_, ?_, ?_, h.answers⟩
  · exact fun hw => h.whole ((hwhole _ _ _).mp hw)
  · rw [hpending, hwriting]
    exact h.body
  · rw [hpending]
    exact h.fresh
  · rw [hpending, hwriting]
    exact h.distinct
  · exact h.ref.mono rfl (fun _ _ hb => hb) fun n body hw => (hwhole _ _ _).mpr hw

/-- The writer changes the file of a container `c` that has no complete file. -/
theorem Sane.save {t : Threads} (h : t.Sane) {c : Container} {bytes : Bytes} {writer : WriterAt}
    (hc : t.bodies c.deltaFlag c.containerID = some c.body)
    (hnew : ∀ body, ¬ t.Whole c.deltaFlag c.containerID body)
    (hwriting : ∀ c' ∈ t.writer.writing, c' = c)
    (hwriter : writer.writing = [c] ∨ writer.writing = [] ∧ bytes = c.body)
    (hpending : ∃ done, t.pending = done ++ pending { t with writer := writer })
    (hgone : Container.key c ∉ (pending { t with writer := writer }).map Container.key) :
    (t.save c bytes writer).Sane := by
  have hpend : (t.save c bytes writer).pending = pending { t with writer := writer } := rfl
  have hfile : ∀ {d n}, (d, n) ≠ Container.key c → (t.save c bytes writer).files d n = t.files d n :=
    fun hne => put_of_ne hne
  have hself : (t.save c bytes writer).files c.deltaFlag c.containerID = some bytes := put_self ..
  -- elsewhere nothing is torn, before or after
  have htorn : ∀ {d n}, (d, n) ≠ Container.key c →
      ¬ t.Torn d n ∧ ¬ (t.save c bytes writer).Torn d n := by
    intro d n hne
    constructor
    · rintro ⟨c', hc', rfl, rfl⟩
      exact hne (by rw [hwriting c' hc']; rfl)
    · rintro ⟨c', hc', rfl, rfl⟩
      have hmem : c' ∈ writer.writing := hc'
      rcases hwriter with hw | ⟨hw, -⟩
      · rw [hw, List.mem_singleton] at hmem
        exact hne (by rw [hmem]; rfl)
      · rw [hw] at hmem
        cases hmem
  have hkeep : ∀ n body, t.Whole .base n body → (t.save c bytes writer).Whole .base n body := by
    intro n body hw
    have hne : (Dir.base, n) ≠ Container.key c := by
      intro heq
      obtain ⟨hd, rfl⟩ := Prod.mk.injEq .. |>.mp heq
      rw [hd] at hw
      exact hnew body hw
    exact ⟨by rw [hfile hne]; exact hw.1, (htorn hne).2⟩
  refine ⟨h.named, h.curNamed, h.curOpen, h.curApart, ?_, ?_, ?_, ?_, ?_, ?_, h.answers⟩
  · intro d n hn
    by_cases heq : (d, n) = Container.key c
    · obtain ⟨rfl, rfl⟩ := Prod.mk.injEq .. |>.mp heq
      show t.bodies c.deltaFlag c.containerID ≠ none
      rw [hc]
      simp
    · rw [hfile heq] at hn
      exact h.known hn
  · rintro d n body ⟨hf, hnot⟩
    by_cases heq : (d, n) = Container.key c
    · obtain ⟨rfl, rfl⟩ := Prod.mk.injEq .. |>.mp heq
      rw [hself] at hf
      obtain rfl := Option.some.inj hf
      rcases hwriter with hw | ⟨-, rfl⟩
      · refine absurd ⟨c, ?_, rfl, rfl⟩ hnot
        show c ∈ writer.writing
        rw [hw]
        exact List.mem_singleton_self c
      · exact hc
    · rw [hfile heq] at hf
      exact h.whole ⟨hf, (htorn heq).1⟩
  · intro c' hc'
    obtain ⟨done, hdone⟩ := hpending
    rcases List.mem_append.mp hc' with hc' | hc'
    · refine h.body c' (List.mem_append_left _ ?_)
      rw [hdone]
      exact List.mem_append_right _ hc'
    · have hmem : c' ∈ writer.writing := hc'
      rcases hwriter with hw | ⟨hw, -⟩
      · rw [hw, List.mem_singleton] at hmem
        rw [hmem]
        exact hc
      · rw [hw] at hmem
        cases hmem
  · intro c' hc'
    have hne : (c'.deltaFlag, c'.containerID) ≠ Container.key c := by
      intro heq
      exact hgone (List.mem_map.mpr ⟨c', hc', heq⟩)
    rw [hfile hne]
    obtain ⟨done, hdone⟩ := hpending
    refine h.fresh c' ?_
    rw [hdone]
    exact List.mem_append_right _ hc'
  · obtain ⟨done, hdone⟩ := hpending
    have hnodup := h.distinct
    rw [hdone, List.append_assoc, List.map_append, List.nodup_append] at hnodup
    have hrest := (List.sublist_append_left _ _).map Container.key |>.nodup hnodup.2.1
    rw [hpend, List.map_append]
    rcases hwriter with hw | ⟨hw, -⟩
    · show (_ ++ writer.writing.map Container.key).Nodup
      rw [hw, List.map_singleton, List.nodup_append_comm, List.singleton_append]
      exact List.nodup_cons.mpr ⟨hgone, hrest⟩
    · show (_ ++ writer.writing.map Container.key).Nodup
      rw [hw, List.map_nil, List.append_nil]
      exact hrest
  · exact h.ref.mono rfl (fun _ _ hb => hb) hkeep

theorem Sane.pop {t : Threads} (h : t.Sane) {c : Container} {rest : List Container}
    (hwriter : t.writer = .waiting) (hqueue : t.inputMQ = c :: rest) :
    Sane { t with writer := .popped c, inputMQ := rest } := by
  refine h.between ?_ ?_
  · simp [pending, hwriter, hqueue]
  · rw [hwriter]
    rfl

theorem Sane.fopen {t : Threads} (h : t.Sane) {c : Container} (hwriter : t.writer = .popped c) :
    (t.save c [] (.opened c)).Sane := by
  have hpending : t.pending = [c] ++ t.inputMQ := by simp [pending, hwriter]
  have hnodup := h.distinct
  rw [hpending, hwriter, show (WriterAt.popped c).writing = [] from rfl, List.append_nil,
    List.singleton_append, List.map_cons, List.nodup_cons] at hnodup
  refine h.save (h.body c ?_) ?_ ?_ (Or.inl rfl) ⟨[c], hpending⟩ hnodup.1
  · rw [hpending]
    simp
  · rintro body ⟨hfile, -⟩
    rw [h.fresh c (by rw [hpending]; simp)] at hfile
    cases hfile
  · rw [hwriter]
    exact fun c' hc' => (by cases hc')

/-- `fwrite`, and `fclose`. -/
theorem Sane.fwrite {t : Threads} (h : t.Sane) {c : Container} (hwriting : t.writer.writing = [c])
    (hqueue : t.pending = t.inputMQ) {bytes : Bytes} {writer : WriterAt}
    (hnext : pending { t with writer := writer } = t.inputMQ)
    (hwriter : writer.writing = [c] ∨ writer.writing = [] ∧ bytes = c.body) :
    (t.save c bytes writer).Sane := by
  have htorn : t.Torn c.deltaFlag c.containerID :=
    ⟨c, by rw [hwriting]; exact List.mem_singleton_self c, rfl, rfl⟩
  have hbody : t.bodies c.deltaFlag c.containerID = some c.body := h.body c (by simp [hwriting])
  refine h.save hbody (fun body hw => hw.2 htorn) ?_ hwriter
    ⟨[], by rw [hnext, hqueue, List.nil_append]⟩ ?_
  · intro c' hc'
    rwa [hwriting, List.mem_singleton] at hc'
  · have hnodup := h.distinct
    rw [hwriting, hqueue, List.map_append, List.map_singleton, List.nodup_append_comm,
      List.singleton_append, List.nodup_cons] at hnodup
    rw [hnext]
    exact hnodup.1

/-! ## The enclave's thread -/

/-- Other names for the containers that are being filled. -/
theorem Sane.login {t : Threads} (h : t.Sane) (hcreated : t.created + 2 ≤ 2 ^ 31) :
    Sane { t with
      cur := (fun
        | .base => containerName t.created
        | .delta => containerName (t.created + 1))
      created := t.created + 2 } := by
  have hnew : ∀ k, t.created ≤ k → k < 2 ^ 31 → ∀ d, t.bodies d (containerName k) = none := by
    intro k hk hlt d
    by_contra hne
    exact not_named hlt ((h.named hne).mono hk)
  refine ⟨fun hn => (h.named hn).mono (by simp), ?_, ?_, ?_, h.known, h.whole, h.body, h.fresh,
    h.distinct, h.ref.mono rfl (fun _ _ hb => hb) fun _ _ hw => hw, h.answers⟩
  · rintro (_ | _)
    · exact ⟨t.created, by simp, rfl⟩
    · exact ⟨t.created + 1, by simp, rfl⟩
  · rintro (_ | _) d'
    · exact hnew t.created (le_refl _) (by omega) d'
    · exact hnew (t.created + 1) (Nat.le_succ _) (by omega) d'
  · intro heq
    have := counterName_inj (by omega) (by omega) heq
    omega

/-- A container goes to the data writer. -/
theorem Sane.writeContainer {t : Threads} (h : t.Sane) (hcreated : t.created < 2 ^ 31) (d : Dir)
    (body : Bytes) : Sane { t with
      inputMQ := t.inputMQ ++ [⟨d, t.cur d, body⟩]
      cur := fun d' => if d' = d then containerName t.created else t.cur d'
      created := t.created + 1
      bodies := t.bodies.put d (t.cur d) body } := by
  -- what was handed over keeps its body
  have hkeep : ∀ {d' n b}, t.bodies d' n = some b → t.bodies.put d (t.cur d) body d' n = some b := by
    intro d' n b hb
    rw [put_of_ne]
    · exact hb
    · intro heq
      obtain ⟨rfl, rfl⟩ := Prod.mk.injEq .. |>.mp heq
      rw [h.curOpen] at hb
      cases hb
  have hapart : ∀ d', d' ≠ d → t.cur d' ≠ t.cur d := by
    intro d' hd heq
    cases d with
    | base => cases d' with
      | base => exact hd rfl
      | delta => exact h.curApart heq.symm
    | delta => cases d' with
      | base => exact h.curApart heq
      | delta => exact hd rfl
  have hpending : pending { t with
      inputMQ := t.inputMQ ++ [⟨d, t.cur d, body⟩]
      cur := fun d' => if d' = d then containerName t.created else t.cur d'
      created := t.created + 1
      bodies := t.bodies.put d (t.cur d) body } = t.pending ++ [⟨d, t.cur d, body⟩] :=
    (List.append_assoc ..).symm
  have hfile : t.files d (t.cur d) = none := by
    by_contra hne
    exact h.known hne (h.curOpen d d)
  constructor
  · intro d' n hn
    by_cases heq : (d', n) = (d, t.cur d)
    · obtain ⟨rfl, rfl⟩ := Prod.mk.injEq .. |>.mp heq
      exact (h.curNamed d').mono (Nat.le_succ _)
    · have hn' : t.bodies.put d (t.cur d) body d' n ≠ none := hn
      rw [put_of_ne heq] at hn'
      exact (h.named hn').mono (Nat.le_succ _)
  · intro d'
    by_cases hd : d' = d
    · refine ⟨t.created, Nat.lt_succ_self _, if_pos hd⟩
    · show Named (t.created + 1) (if d' = d then _ else _)
      rw [if_neg hd]
      exact (h.curNamed d').mono (Nat.le_succ _)
  · intro d₁ d₂
    have hne : t.cur d ≠ containerName t.created := fun heq =>
      not_named hcreated (heq ▸ h.curNamed d)
    show View.put _ _ _ _ d₂ (if d₁ = d then _ else _) = none
    by_cases hd : d₁ = d
    · have hput : (d₂, containerName t.created) ≠ (d, t.cur d) := fun heq =>
        hne (congrArg Prod.snd heq).symm
      rw [if_pos hd, put_of_ne hput]
      by_contra hsome
      exact not_named hcreated (h.named hsome)
    · have hput : (d₂, t.cur d₁) ≠ (d, t.cur d) := fun heq => hapart d₁ hd (congrArg Prod.snd heq)
      rw [if_neg hd, put_of_ne hput]
      exact h.curOpen d₁ d₂
  · have hne : ∀ d', t.cur d' ≠ containerName t.created := fun d' heq =>
      not_named hcreated (heq ▸ h.curNamed d')
    cases d with
    | base => exact (hne .delta).symm
    | delta => exact hne .base
  · intro d' n hn
    obtain ⟨b, hb⟩ := Option.ne_none_iff_exists'.mp (h.known hn)
    show View.put _ _ _ _ d' n ≠ none
    rw [hkeep hb]
    simp
  · exact fun hw => hkeep (h.whole hw)
  · intro c hc
    rw [hpending] at hc
    rcases List.mem_append.mp hc with hc | hc
    · rcases List.mem_append.mp hc with hc | hc
      · exact hkeep (h.body c (List.mem_append_left _ hc))
      · rw [List.mem_singleton.mp hc]
        exact put_self ..
    · exact hkeep (h.body c (List.mem_append_right _ hc))
  · intro c hc
    rw [hpending] at hc
    rcases List.mem_append.mp hc with hc | hc
    · exact h.fresh c hc
    · rw [List.mem_singleton.mp hc]
      exact hfile
  · rw [hpending, List.append_assoc]
    refine (List.perm_middle.map Container.key).nodup_iff.mpr ?_
    rw [List.map_cons, List.nodup_cons]
    refine ⟨fun hmem => ?_, h.distinct⟩
    obtain ⟨c, hc, heq⟩ := List.mem_map.mp hmem
    obtain ⟨hd, hn⟩ := Prod.mk.injEq .. |>.mp heq
    have hbody := h.body c hc
    rw [hd, hn, h.curOpen] at hbody
    cases hbody
  · exact h.ref.mono rfl (fun _ _ hb => hkeep hb) fun _ _ hw => hw
  · intro a ha
    obtain ⟨b, hb, hpre⟩ := h.answers a ha
    exact ⟨b, hkeep hb, hpre⟩

/-- `Ocall_getRefContainer` opens a file that is complete. -/
theorem Sane.refOpen {t : Threads} (h : t.Sane) {name : ContainerName} {file : Bytes}
    (hfile : t.files .base name = some file) (htorn : ¬ t.Torn .base name) :
    Sane { t with ref := .opened name } := by
  refine ⟨h.named, h.curNamed, h.curOpen, h.curApart, h.known, h.whole, h.body, h.fresh, h.distinct,
    ?_, h.answers⟩
  exact ⟨file, h.whole ⟨hfile, htorn⟩, hfile, htorn⟩

theorem Sane.refSize {t : Threads} (h : t.Sane) {name : ContainerName}
    (href : t.ref = .opened name) :
    Sane { t with ref := .sized name ((t.files .base name).getD []).length } := by
  refine ⟨h.named, h.curNamed, h.curOpen, h.curApart, h.known, h.whole, h.body, h.fresh, h.distinct,
    ?_, h.answers⟩
  have hopened := h.ref
  unfold RefOk at hopened
  rw [href] at hopened
  obtain ⟨body, hbody, hfile, htorn⟩ := hopened
  refine ⟨body, hbody, ⟨hfile, htorn⟩, ?_⟩
  rw [hfile]
  rfl

/-- It reads all of it. -/
theorem Sane.refRead {t : Threads} (h : t.Sane) {name : ContainerName} {readSize : Nat}
    (href : t.ref = .sized name readSize) :
    Sane { t with
      ref := .idle
      tmpOcallcontainer :=
        writeAt t.tmpOcallcontainer 0 (((t.files .base name).getD []).take readSize)
      answers := t.answers ++ [(name,
        writeAt t.tmpOcallcontainer 0 (((t.files .base name).getD []).take readSize))] } := by
  refine ⟨h.named, h.curNamed, h.curOpen, h.curApart, h.known, h.whole, h.body, h.fresh, h.distinct,
    trivial, ?_⟩
  intro a ha
  rcases List.mem_append.mp ha with ha | ha
  · exact h.answers a ha
  · have hsized := h.ref
    unfold RefOk at hsized
    rw [href] at hsized
    obtain ⟨body, hbody, ⟨hfile, -⟩, rfl⟩ := hsized
    rw [List.mem_singleton.mp ha]
    refine ⟨body, hbody, ?_⟩
    rw [hfile, Option.getD_some, List.take_length]
    exact prefix_writeAt _ _

/-! ## Interleavings -/

/-- Where the data writer must not be when a file is opened for reading. -/
def Unbroken (t : Threads) : Action → Prop
  | .refOpen name => ¬ t.Torn .base name
  | _ => True

theorem created_step {t t' : Threads} {a : Action} (hstep : t.step a = some t') :
    t.created ≤ t'.created := by
  cases a <;> simp only [step] at hstep <;> (repeat' split at hstep) <;> cases hstep <;> simp [save]

theorem Sane.step {t t' : Threads} (h : t.Sane) {a : Action} (hcond : t.Unbroken a)
    (hstep : t.step a = some t') (hcreated : t'.created ≤ 2 ^ 31) : t'.Sane := by
  cases a with
  | login =>
      simp only [Threads.step] at hstep
      split at hstep
      · cases hstep
        exact h.login hcreated
      · cases hstep
  | writeContainer d body =>
      simp only [Threads.step] at hstep
      split at hstep
      · cases hstep
        exact h.writeContainer hcreated d body
      · cases hstep
  | refOpen name =>
      simp only [Threads.step] at hstep
      split at hstep
      · split at hstep
        · rename_i file hfile
          cases hstep
          exact h.refOpen hfile hcond
        · cases hstep
          exact h
      · cases hstep
  | refSize =>
      simp only [Threads.step] at hstep
      split at hstep
      · rename_i name href
        cases hstep
        exact h.refSize href
      · cases hstep
  | refRead =>
      simp only [Threads.step] at hstep
      split at hstep
      · rename_i name readSize href
        split at hstep
        · cases hstep
          exact h.refRead href
        · cases hstep
      · cases hstep
  | pop =>
      simp only [Threads.step] at hstep
      split at hstep
      · rename_i c rest hwriter hqueue
        cases hstep
        exact h.pop hwriter hqueue
      · cases hstep
  | fopen =>
      simp only [Threads.step] at hstep
      split at hstep
      · rename_i c hwriter
        cases hstep
        exact h.fopen hwriter
      · cases hstep
  | fwritePart n =>
      simp only [Threads.step] at hstep
      split at hstep
      · rename_i c hwriter
        cases hstep
        refine h.fwrite ?_ ?_ rfl (Or.inl rfl)
        · rw [hwriter]
          rfl
        · simp [pending, hwriter]
      · rename_i c m hwriter
        cases hstep
        refine h.fwrite ?_ ?_ rfl (Or.inl rfl)
        · rw [hwriter]
          rfl
        · simp [pending, hwriter]
      · cases hstep
  | fwriteRest n =>
      simp only [Threads.step] at hstep
      split at hstep
      · rename_i c m hwriter
        cases hstep
        refine h.fwrite ?_ ?_ rfl (Or.inl rfl)
        · rw [hwriter]
          rfl
        · simp [pending, hwriter]
      · cases hstep
  | fclose =>
      simp only [Threads.step] at hstep
      split at hstep
      · rename_i c m hwriter
        cases hstep
        refine h.fwrite ?_ ?_ rfl (Or.inr ⟨rfl, rfl⟩)
        · rw [hwriter]
          rfl
        · simp [pending, hwriter]
      · cases hstep

theorem sane_boot (m : Residue) : (boot m).Sane where
  named := fun hn => absurd rfl hn
  curNamed := by
    rintro (_ | _)
    · exact ⟨0, Nat.zero_lt_two, rfl⟩
    · exact ⟨1, Nat.one_lt_two, rfl⟩
  curOpen := fun _ _ => rfl
  curApart := by
    intro heq
    have := counterName_inj (by decide) (by decide) heq
    omega
  known := fun hn => absurd rfl hn
  whole := fun hw => by cases hw.1
  body := fun c hc => by cases hc
  fresh := fun c hc => by cases hc
  distinct := List.nodup_nil
  ref := trivial
  answers := fun a ha => by cases ha

/-- The buffer has all of the container, so that each of its records is found
where its entry says. -/
def Served (t : Threads) (a : ContainerName × Bytes) : Prop :=
  ∃ body, t.bodies .base a.1 = some body ∧ body <+: a.2 ∧
    ∀ rs, Holds a.1 body rs → ∀ r ∈ rs, r.FoundIn a.2

/-- **Containers of bases are complete** in every interleaving in which no file
is opened for reading while the data writer has it open. -/
theorem answers_complete (m : Residue) (as : List Action) {t : Threads}
    (hexec : exec step (boot m) as = some t) (hcreated : t.created ≤ 2 ^ 31)
    (hunbroken : Allowed step Unbroken (boot m) as) : ∀ a ∈ t.answers, t.Served a := by
  have hinv : ∀ (t : Threads) (a : Action) (t' : Threads), (t.created ≤ 2 ^ 31 → t.Sane) →
      t.Unbroken a → t.step a = some t' → t'.created ≤ 2 ^ 31 → t'.Sane := by
    intro t a t' h hcond hstep hcreated
    exact (h (le_trans (created_step hstep) hcreated)).step hcond hstep hcreated
  have hsane : t.Sane := exec_inv hinv as (fun _ => sane_boot m) hunbroken hexec hcreated
  intro a ha
  obtain ⟨body, hbody, hpre⟩ := hsane.answers a ha
  exact ⟨body, hbody, hpre, fun rs hrs r hr => hrs.found hr hpre⟩

/-- The first container goes to the data writer, which closes its file before the
container is read. -/
def calmRun (body : Bytes) : List Action :=
  [.writeContainer .base body, .pop, .fopen, .fwritePart 4096, .fwriteRest 4096, .fclose,
    .refOpen (containerName 0), .refSize, .refRead]

/-- The data writer has only opened the file. -/
def tornRun (body : Bytes) : List Action :=
  [.writeContainer .base body, .pop, .fopen,
    .refOpen (containerName 0), .refSize, .refRead, .fwritePart 4096, .fwriteRest 4096, .fclose]

theorem exec_calmRun (m : Residue) (body : Bytes) : ∃ t,
    exec step (boot m) (calmRun body) = some t ∧ t.answers.length = 1 ∧ t.created = 3 := by
  simp [calmRun, exec, step, boot, save, View.put]

/-- The buffer is answered as it was. -/
theorem exec_tornRun (m : Residue) (body : Bytes) : ∃ t,
    exec step (boot m) (tornRun body) = some t ∧
      t.answers = [(containerName 0, m.tmpOcallcontainer)] ∧
      t.bodies .base (containerName 0) = some body := by
  simp [tornRun, exec, step, boot, save, View.put, writeAt]

theorem allowed_calmRun (m : Residue) (body : Bytes) :
    Allowed step Unbroken (boot m) (calmRun body) := by
  simp [calmRun, Allowed, Unbroken, step, boot, save, Torn, WriterAt.writing]

theorem answers_complete_calm : ∃ t, exec step (boot ⟨[], fun _ => []⟩) (calmRun [1, 2]) = some t ∧
    t.answers.length = 1 ∧ ∀ a ∈ t.answers, t.Served a := by
  obtain ⟨t, ht, hlen, hcreated⟩ := exec_calmRun ⟨[], fun _ => []⟩ [1, 2]
  exact ⟨t, ht, hlen, answers_complete _ _ ht (by rw [hcreated]; decide) (allowed_calmRun ..)⟩

/-- A chunk of 16 KiB. -/
def fullRecord : Record where
  entry := { RecipeEntry.ofBytes [] with length := 16384 }
  fp := BytesN.ofBytes 32 (List.replicate 32 1)
  sf := BytesN.ofBytes 96 []
  payload := List.replicate 16384 2
  iv := BytesN.ofBytes 16 []

/-- A container that has no room for one more such chunk. -/
def fullRecords (r : Record) : List Record :=
  relocate (containerName 0) 0 (List.replicate 251 r)

theorem length_flat_replicate (n : Nat) (r : Record) :
    (records.flat (List.replicate n r)).length = n * r.toBytes.length := by
  induction n with
  | zero => simp
  | succ n ih =>
      rw [List.replicate_succ, Layout.flat_cons, List.length_append, ih, records_bytes]
      ring

theorem holds_fullRecords {r : Record} (hpayload : r.payload.length = 16384)
    (hentry : r.entry.length.toNat = r.payload.length) :
    Holds (containerName 0) (records.flat (fullRecords r)) (fullRecords r) := by
  have hplaced : ∀ s ∈ List.replicate 251 r, s.PlacedIn r.entry.containerName := by
    intro s hs
    rw [(List.mem_replicate.mp hs).2]
    exact ⟨rfl, hentry⟩
  have hsmall : ([] : Bytes).length + (records.flat (List.replicate 251 r)).length <
      MAX_CONTAINER_SIZE := by
    rw [length_flat_replicate, Record.length_toBytes, hpayload]
    decide
  have h := (Holds.nil (containerName 0)).append_relocate hplaced hsmall
  rw [List.nil_append, List.nil_append, List.length_nil] at h
  exact h

/-- A buffer of zeros has no record with a fingerprint that is not zero. -/
theorem not_foundIn_zeros {r s : Record} (hs : s ∈ fullRecords r) (hfp : 1 ∈ r.fp.1) (n : Nat) :
    ¬ s.FoundIn (List.replicate n 0) := by
  rintro ⟨rest, hrest⟩
  obtain ⟨r', hr', off, rfl⟩ := mem_relocate hs
  obtain rfl := (List.mem_replicate.mp hr').2
  have hmem : (1 : UInt8) ∈ (List.replicate n (0 : UInt8)).drop
      (r'.moveTo (containerName 0) off).start := by
    rw [hrest]
    simp [Record.toBytes, Record.moveTo, hfp]
  exact absurd (List.mem_replicate.mp (List.mem_of_mem_drop hmem)).2 (by decide)

theorem not_answers_complete_torn : ∃ t,
    exec step (boot ⟨List.replicate MAX_CONTAINER_SIZE 0, fun _ => []⟩)
      (tornRun (records.flat (fullRecords fullRecord))) = some t ∧
    ∃ a ∈ t.answers, a.1 = containerName 0 ∧
      Holds a.1 (records.flat (fullRecords fullRecord)) (fullRecords fullRecord) ∧
      ¬ t.Served a ∧ ∀ r ∈ fullRecords fullRecord, ¬ r.FoundIn a.2 := by
  have hholds := holds_fullRecords (r := fullRecord) List.length_replicate List.length_replicate.symm
  have hfp : 1 ∈ fullRecord.fp.1 := by decide
  have hsome : ∃ r, r ∈ fullRecords fullRecord := ⟨_, List.mem_cons_self ..⟩
  revert hholds hfp hsome
  generalize fullRecord = r
  generalize MAX_CONTAINER_SIZE = n
  intro hholds hfp hsome
  obtain ⟨t, ht, hanswers, hbody⟩ := exec_tornRun ⟨List.replicate n 0, fun _ => []⟩
    (records.flat (fullRecords r))
  refine ⟨t, ht, _, by rw [hanswers]; exact List.mem_singleton_self _, rfl, hholds, ?_,
    fun s hs => not_foundIn_zeros hs hfp n⟩
  rintro ⟨body, hbody', -, hfound⟩
  obtain rfl := Option.some.inj (hbody.symm.trans hbody')
  obtain ⟨s, hs⟩ := hsome
  exact not_foundIn_zeros hs hfp n (hfound _ hholds s hs)

end Threads

end ShieldReduce

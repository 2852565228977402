import ShieldReduce.System.MessageQueue

/-!
# Consumers drain their queues

`done_` is set after the last push, so once a consumer has read it nothing
more comes into the queue, and a queue that it then finds empty stays
empty: the round in which it says so is the last, and its `Pop` finds
nothing. `Drains` is this as an invariant of all schedules, and an exit is
one of its places. A consumer whose `done_` is set exits
(`exec_run_exited`), so the theorem is not about runs that never end.
-/

namespace ShieldReduce

open ByteLib StepLib

namespace QueueThreads

variable {α σ : Type} {process : σ → α → Option σ}

/-! ## The steps of the loop -/

variable {t : QueueThreads α σ}

theorem runStep_readDone (hat : t.runAt = .readDone) : t.runStep process =
    some { t with runAt := if t.mq.done then .isEmpty else .pop } := by
  simp only [runStep, hat]

theorem runStep_isEmpty (hat : t.runAt = .isEmpty) : t.runStep process = some { t with
    jobDoneFlag := if t.mq.isEmpty then true else t.jobDoneFlag
    runAt := .pop } := by
  simp only [runStep, hat]

theorem runStep_pop_nil (hat : t.runAt = .pop) (hq : t.mq.lockFreeQueue = []) :
    t.runStep process = some t.endRound := by
  simp only [runStep, hat, MessageQueue.pop, hq]

theorem runStep_pop_cons (hat : t.runAt = .pop) {data : α} {rest : List α}
    (hq : t.mq.lockFreeQueue = data :: rest) : t.runStep process =
      some { t with mq := { t.mq with lockFreeQueue := rest }, runAt := .popped data } := by
  simp only [runStep, hat, MessageQueue.pop, hq]

theorem runStep_popped {data : α} (hat : t.runAt = .popped data) {work : σ}
    (hwork : process t.work data = some work) : t.runStep process =
      some { t with work := work, processed := t.processed ++ [data] }.endRound := by
  simp only [runStep, hat, hwork]

theorem runStep_failed {data : α} (hat : t.runAt = .popped data)
    (hwork : process t.work data = none) :
    t.runStep process = some { t with runAt := .failed data } := by
  simp only [runStep, hat, hwork]

/-! ## The invariant -/

/-- What holds of the two threads at any time: the items are where the
queue's order puts them, and the consumer's flags say what is true. -/
structure Drains (process : σ → α → Option σ) (items : List α) (init : σ)
    (t : QueueThreads α σ) : Prop where
  order : t.processed ++ t.runAt.inHand ++ t.mq.lockFreeQueue ++ t.toPush = items
  work : t.processed.foldlM process init = some t.work
  done : t.mq.done = true → t.toPush = []
  asks : t.runAt = .isEmpty → t.mq.done = true
  last : t.jobDoneFlag = true → t.mq.done = true ∧ t.mq.lockFreeQueue = []
  exited : t.runAt = .exited → t.jobDoneFlag = true

theorem drains_start (items : List α) (init : σ) : (start items init).Drains process items init where
  order := rfl
  work := rfl
  done := nofun
  asks := nofun
  last := nofun
  exited := nofun

theorem inHand_endRound (t : QueueThreads α σ) : t.endRound.runAt.inHand = [] := by
  unfold endRound
  split <;> rfl

/-- A round ends where nothing is in hand. -/
theorem drains_endRound {items : List α} {init : σ}
    (horder : t.processed ++ t.mq.lockFreeQueue ++ t.toPush = items)
    (hwork : t.processed.foldlM process init = some t.work)
    (hdone : t.mq.done = true → t.toPush = [])
    (hlast : t.jobDoneFlag = true → t.mq.done = true ∧ t.mq.lockFreeQueue = []) :
    t.endRound.Drains process items init where
  order := by
    rw [inHand_endRound, List.append_nil]
    exact horder
  work := hwork
  done := hdone
  asks := fun hat => by
    unfold endRound at hat
    split at hat <;> cases hat
  last := hlast
  exited := fun hat => by
    unfold endRound at hat
    split at hat
    · assumption
    · cases hat

theorem Drains.tryEnqueue {items : List α} {init : σ} {t' : QueueThreads α σ} {room : Bool}
    (h : t.Drains process items init) (hstep : t.step process (.tryEnqueue room) = some t') :
    t'.Drains process items init := by
  rw [step] at hstep
  cases hpush : t.toPush with
  | nil =>
      rw [hpush] at hstep
      cases hstep
  | cons data rest =>
      have hopen : t.mq.done ≠ true := fun hd => by
        have hnil := h.done hd
        rw [hpush] at hnil
        cases hnil
      rw [hpush] at hstep
      cases room with
      | false =>
          obtain rfl := Option.some.inj hstep
          exact h
      | true =>
          obtain rfl := Option.some.inj hstep
          have horder := h.order
          rw [hpush] at horder
          refine ⟨?_, h.work, fun hd => absurd hd hopen, fun hat => h.asks hat,
            fun hlast => absurd (h.last hlast).1 hopen, fun hat => h.exited hat⟩
          show t.processed ++ t.runAt.inHand ++ (t.mq.lockFreeQueue ++ [data]) ++ rest = items
          rw [← horder]
          simp only [List.append_assoc, List.cons_append, List.nil_append]

theorem Drains.setDone {items : List α} {init : σ} {t' : QueueThreads α σ}
    (h : t.Drains process items init) (hstep : t.step process .setDone = some t') :
    t'.Drains process items init := by
  rw [step] at hstep
  split at hstep
  · rename_i hall
    obtain rfl := Option.some.inj hstep
    have hnil : t.toPush = [] := by
      rw [Bool.and_eq_true, List.isEmpty_iff] at hall
      exact hall.1
    exact ⟨h.order, h.work, fun _ => hnil, fun _ => rfl, fun hlast => ⟨rfl, (h.last hlast).2⟩,
      fun hat => h.exited hat⟩
  · cases hstep

/-- The consumer's next step, by where it is. -/
theorem Drains.runStep {items : List α} {init : σ} {t' : QueueThreads α σ}
    (h : t.Drains process items init) (hstep : t.runStep process = some t') :
    t'.Drains process items init := by
  have horder := h.order
  cases hat : t.runAt with
  | readDone =>
      rw [runStep_readDone hat] at hstep
      obtain rfl := Option.some.inj hstep
      rw [hat] at horder
      cases hd : t.mq.done with
      | true => exact ⟨horder, h.work, h.done, fun _ => hd, h.last, nofun⟩
      | false => exact ⟨horder, h.work, h.done, nofun, h.last, nofun⟩
  | isEmpty =>
      rw [runStep_isEmpty hat] at hstep
      obtain rfl := Option.some.inj hstep
      rw [hat] at horder
      refine ⟨horder, h.work, h.done, nofun, fun hlast => ?_, nofun⟩
      -- the flag was set before, or `IsEmpty` has just said yes
      cases hempty : t.mq.isEmpty with
      | true => exact ⟨h.asks hat, List.length_eq_zero_iff.mp (of_decide_eq_true hempty)⟩
      | false =>
          simp only [hempty, Bool.false_eq_true, if_false] at hlast
          exact h.last hlast
  | pop =>
      rw [hat] at horder
      cases hq : t.mq.lockFreeQueue with
      | nil =>
          rw [runStep_pop_nil hat hq] at hstep
          obtain rfl := Option.some.inj hstep
          refine drains_endRound ?_ h.work h.done h.last
          rw [← horder]
          exact congrArg (· ++ _ ++ _) (List.append_nil _).symm
      | cons data rest =>
          rw [runStep_pop_cons hat hq] at hstep
          obtain rfl := Option.some.inj hstep
          refine ⟨?_, h.work, h.done, nofun, fun hlast => ?_, nofun⟩
          · rw [hq] at horder
            rw [← horder]
            simp [RunAt.inHand]
          · have hnil := (h.last hlast).2
            rw [hq] at hnil
            cases hnil
  | popped data =>
      rw [hat] at horder
      cases hwork : process t.work data with
      | some work =>
          rw [runStep_popped hat hwork] at hstep
          obtain rfl := Option.some.inj hstep
          have hfold : (t.processed ++ [data]).foldlM process init = some work := by
            rw [List.foldlM_append, h.work]
            simp [hwork]
          exact drains_endRound horder hfold h.done h.last
      | none =>
          rw [runStep_failed hat hwork] at hstep
          obtain rfl := Option.some.inj hstep
          exact ⟨horder, h.work, h.done, nofun, h.last, nofun⟩
  | exited =>
      simp only [QueueThreads.runStep, hat] at hstep
      cases hstep
  | failed data =>
      simp only [QueueThreads.runStep, hat] at hstep
      cases hstep

theorem Drains.ioError {items : List α} {init : σ} {t' : QueueThreads α σ}
    (h : t.Drains process items init) (hstep : t.step process .ioError = some t') :
    t'.Drains process items init := by
  rw [step] at hstep
  split at hstep
  · rename_i data hat
    obtain rfl := Option.some.inj hstep
    have horder := h.order
    rw [hat] at horder
    exact ⟨horder, h.work, h.done, nofun, h.last, nofun⟩
  · cases hstep

theorem Drains.step {items : List α} {init : σ} {t' : QueueThreads α σ} {a : QueueStep}
    (h : t.Drains process items init) (hstep : t.step process a = some t') :
    t'.Drains process items init := by
  cases a with
  | tryEnqueue room => exact h.tryEnqueue hstep
  | setDone => exact h.setDone hstep
  | run => exact h.runStep hstep
  | ioError => exact h.ioError hstep

theorem Drains.exec {items : List α} {init : σ} {schedule : List QueueStep}
    {t' : QueueThreads α σ} (h : t.Drains process items init)
    (hrun : exec (QueueThreads.step process) t schedule = some t') :
    t'.Drains process items init :=
  exec_inv' (fun _ _ _ hd hstep => hd.step hstep) schedule h hrun

/-- A consumer that has exited has processed all items. -/
theorem Drains.processed_eq {items : List α} {init : σ}
    (h : t.Drains process items init) (hexit : t.runAt = .exited) :
    t.processed = items ∧ items.foldlM process init = some t.work := by
  obtain ⟨hdone, hqueue⟩ := h.last (h.exited hexit)
  have horder := h.order
  rw [hexit, hqueue, h.done hdone] at horder
  change t.processed ++ [] ++ [] ++ [] = items at horder
  rw [List.append_nil, List.append_nil, List.append_nil] at horder
  rw [← horder]
  exact ⟨rfl, h.work⟩

/-! ## Exits -/

/-- Some steps of the consumer alone take it out of its loop. -/
def ExitsFrom (process : σ → α → Option σ) (t : QueueThreads α σ) : Prop :=
  ∃ n t', StepLib.exec (QueueThreads.step process) t (List.replicate n .run) = some t' ∧
    t'.runAt = .exited

theorem ExitsFrom.of_exited (h : t.runAt = .exited) : t.ExitsFrom process :=
  ⟨0, t, rfl, h⟩

theorem ExitsFrom.of_step {t' : QueueThreads α σ} (hstep : t.runStep process = some t')
    (h : t'.ExitsFrom process) : t.ExitsFrom process := by
  obtain ⟨n, u, hrun, hexit⟩ := h
  refine ⟨n + 1, u, ?_, hexit⟩
  rw [List.replicate_succ, StepLib.exec]
  show (t.runStep process).bind _ = some u
  rw [hstep]
  exact hrun

theorem exitsFrom_endRound
    (h : ({ t with runAt := .readDone } : QueueThreads α σ).ExitsFrom process) :
    t.endRound.ExitsFrom process := by
  unfold endRound
  split
  · exact .of_exited rfl
  · exact h

/-- From the head of the loop the consumer comes to its `Pop`. -/
theorem exitsFrom_readDone (hat : t.runAt = .readDone) (hdone : t.mq.done = true)
    (h : ({ t with
      jobDoneFlag := if t.mq.isEmpty then true else t.jobDoneFlag
      runAt := .pop } : QueueThreads α σ).ExitsFrom process) : t.ExitsFrom process := by
  refine .of_step (runStep_readDone hat) (.of_step (runStep_isEmpty ?_) h)
  simp only [hdone, if_true]

theorem exitsFrom_pop (htotal : ∀ work data, ∃ work', process work data = some work') :
    ∀ (queue : List α) {t : QueueThreads α σ}, t.runAt = .pop → t.mq.done = true →
      t.mq.lockFreeQueue = queue → t.ExitsFrom process
  | [], t, hat, hdone, hq => by
      refine .of_step (runStep_pop_nil hat hq) (exitsFrom_endRound (exitsFrom_readDone rfl hdone ?_))
      -- the flag is set now, so that the next round is the last
      have hempty : t.mq.isEmpty = true := decide_eq_true (by rw [hq]; rfl)
      refine .of_step (runStep_pop_nil rfl hq) (ExitsFrom.of_exited ?_)
      simp only [endRound, hempty, if_true]
  | data :: rest, t, hat, hdone, hq => by
      obtain ⟨work, hwork⟩ := htotal t.work data
      refine .of_step (runStep_pop_cons hat hq) (.of_step (runStep_popped rfl hwork)
        (exitsFrom_endRound (exitsFrom_readDone rfl hdone ?_)))
      exact exitsFrom_pop htotal rest rfl hdone rfl

/-- A consumer that processes whatever comes exits once `done_` is set. -/
theorem exitsFrom_done (htotal : ∀ work data, ∃ work', process work data = some work')
    (hdone : t.mq.done = true) (hlive : ∀ data, t.runAt ≠ .failed data) : t.ExitsFrom process := by
  cases hat : t.runAt with
  | readDone => exact exitsFrom_readDone hat hdone (exitsFrom_pop htotal _ rfl hdone rfl)
  | isEmpty => exact .of_step (runStep_isEmpty hat) (exitsFrom_pop htotal _ rfl hdone rfl)
  | pop => exact exitsFrom_pop htotal _ hat hdone rfl
  | popped data =>
      obtain ⟨work, hwork⟩ := htotal t.work data
      exact .of_step (runStep_popped hat hwork) (exitsFrom_endRound
        (exitsFrom_readDone rfl hdone (exitsFrom_pop htotal _ rfl hdone rfl)))
  | exited => exact .of_exited hat
  | failed data => exact absurd hat (hlive data)

/-! ## The three consumers -/

/-- Whatever the producer pushes before it sets `done_`, and whatever the
schedule, a consumer that exits has processed every item once, in the order
of the pushes. -/
theorem run_drains_queue (env : Env) (sessionKey : Key) (schedule : List QueueStep) :
    (∀ (items : List Container) (init : DataWriter) (t : QueueThreads Container DataWriter),
      StepLib.exec (QueueThreads.step DataWriter.runOne) (start items init) schedule = some t →
      t.runAt = .exited →
      t.processed = items ∧ items.foldlM DataWriter.runOne init = some t.work) ∧
    (∀ (items : List SenderItem) (init : SenderThread) (t : QueueThreads SenderItem SenderThread),
      StepLib.exec (QueueThreads.step (DataSender.runOne env sessionKey)) (start items init)
        schedule = some t →
      t.runAt = .exited →
      t.processed = items ∧ items.foldlM (DataSender.runOne env sessionKey) init = some t.work) ∧
    (∀ (items : List ChunkData) (init : RestoreWriter) (t : QueueThreads ChunkData RestoreWriter),
      StepLib.exec (QueueThreads.step RestoreWriter.runOne) (start items init) schedule = some t →
      t.runAt = .exited →
      t.processed = items ∧ items.foldlM RestoreWriter.runOne init = some t.work) :=
  ⟨fun items init _ hrun hexit => ((drains_start items init).exec hrun).processed_eq hexit,
    fun items init _ hrun hexit => ((drains_start items init).exec hrun).processed_eq hexit,
    fun items init _ hrun hexit => ((drains_start items init).exec hrun).processed_eq hexit⟩

/-- The consumer reads `done_` before the first item is pushed, and pops the second one
after `done_` is set. -/
def lateItems : List QueueStep :=
  [.run, .tryEnqueue false, .tryEnqueue true, .run, .tryEnqueue true, .setDone] ++
    List.replicate 8 .run

theorem run_drains_queue_lateItems :
    (∃ t, StepLib.exec (QueueThreads.step DataWriter.runOne)
        (start [⟨.base, containerName 0, [1, 2]⟩, ⟨.delta, containerName 1, [3]⟩]
          ⟨fun _ _ => none, 0⟩) lateItems = some t ∧
      t.processed = [⟨.base, containerName 0, [1, 2]⟩, ⟨.delta, containerName 1, [3]⟩]) ∧
    (∃ t, StepLib.exec (QueueThreads.step (DataSender.runOne .plain (BytesN.ofBytes 32 [])))
        (start [.data (.dataChunk ⟨[1, 2], by decide⟩), .data (.recipeEnd ⟨0, 0⟩)] ⟨.start, false⟩)
        lateItems = some t ∧
      t.processed = [.data (.dataChunk ⟨[1, 2], by decide⟩), .data (.recipeEnd ⟨0, 0⟩)]) ∧
    (∃ t, StepLib.exec (QueueThreads.step RestoreWriter.runOne)
        (start [⟨[1, 2], by decide⟩, ⟨[3], by decide⟩] ⟨[], 0, 0⟩) lateItems = some t ∧
      t.processed = [⟨[1, 2], by decide⟩, ⟨[3], by decide⟩]) := by
  obtain ⟨hwriter, hsender, hrestore⟩ :=
    run_drains_queue .plain (BytesN.ofBytes 32 []) lateItems
  exact ⟨⟨_, rfl, (hwriter _ _ _ rfl rfl).1⟩, ⟨_, rfl, (hsender _ _ _ rfl rfl).1⟩,
    ⟨_, rfl, (hrestore _ _ _ rfl rfl).1⟩⟩

theorem foldlM_dataChunk (env : Env) (sessionKey : Key) : ∀ (chunks : List ChunkData)
    (s : DataSender), (chunks.map fun c => SenderItem.data (.dataChunk c)).foldlM
      (DataSender.runOne env sessionKey) ⟨s, false⟩ =
    some ⟨(chunks.map Subtype.val).foldl (DataSender.processChunk env sessionKey) s, false⟩
  | [], _ => rfl
  | c :: chunks, s => foldlM_dataChunk env sessionKey chunks (s.processChunk env sessionKey c.1)

/-- Behind the chunker's queue the sender's thread does what `DataSender.run`
does on the items of the file. -/
theorem sender_exited {env : Env} {sessionKey : Key} {chunks : List ChunkData}
    {recipeHead : FileRecipeHead} {schedule : List QueueStep}
    {t : QueueThreads SenderItem SenderThread}
    (hrun : StepLib.exec (QueueThreads.step (DataSender.runOne env sessionKey))
      (start ((chunks.map fun c => SenderItem.data (.dataChunk c)) ++
        [.data (.recipeEnd recipeHead)]) ⟨.start, false⟩) schedule = some t)
    (hexit : t.runAt = .exited) :
    t.work = ⟨.run env sessionKey (chunks.map Subtype.val) recipeHead.bytes, true⟩ := by
  have hwork := (((drains_start _ _).exec hrun).processed_eq hexit).2
  rw [List.foldlM_append, foldlM_dataChunk] at hwork
  exact (Option.some.inj hwork).symm

end QueueThreads

end ShieldReduce

import Mathlib.Data.List.Induction
import Mathlib.Data.List.Dedup
import NcclCore.SymmetricTasks

/-! Where the tasks of `ncclMakeSymmetricTaskList` end. The pointer program is
compared with the batches read off the input list. Only one pointer can go
wrong: the last task that falls back keeps its `next`, which still leads to
the task that follows its batch in the bin. -/
namespace NcclCore.SymmetricTasksProofs
open Lib Function List

/-! ## The bins -/

/-- The distinct entries of a list, in the order of their first occurrence. -/
def firsts (entries : List Nat) : List Nat :=
  entries.foldl (fun seen entry => if entry ∈ seen then seen else seen ++ [entry]) []

theorem firsts_concat (entries : List Nat) (entry : Nat) :
    firsts (entries ++ [entry]) = if entry ∈ firsts entries then firsts entries else firsts entries ++ [entry] := by
  unfold firsts
  rw [foldl_append]
  rfl

theorem firsts_eq (entries : List Nat) : firsts entries = entries.reverse.dedup.reverse := by
  induction entries using reverseRecOn with
  | nil => rfl
  | append_singleton init last ih =>
    rw [firsts_concat, ih]
    by_cases known : last ∈ init <;> simp [known]

theorem mem_firsts : entry ∈ firsts entries ↔ entry ∈ entries := by
  simp [firsts_eq]

variable (input : SymInput)

/-- The bin with a given index: the symmetric tasks, the latest first. -/
def bin (tasks : List Nat) (index : Nat) : List Nat :=
  (tasks.filter fun task => input.symmetric task && input.index task == index).reverse

/-- The indices of the bins, in the order in which they were opened. -/
def binIndices (tasks : List Nat) : List Nat := firsts ((tasks.filter input.symmetric).map input.index)

theorem bin_concat (tasks : List Nat) (task index : Nat) :
    bin input (tasks ++ [task]) index =
      if input.symmetric task = true ∧ input.index task = index then task :: bin input tasks index
      else bin input tasks index := by
  by_cases mine : input.symmetric task = true ∧ input.index task = index <;> simp [bin, mine]

variable {tasks : List Nat}

theorem mem_bin :
    task ∈ bin input tasks index ↔ task ∈ tasks ∧ input.symmetric task = true ∧ input.index task = index := by
  simp [bin]

theorem bin_nil_iff : bin input tasks index = [] ↔ index ∉ binIndices input tasks := by
  rw [binIndices, mem_firsts, eq_nil_iff_forall_not_mem]
  simp only [mem_bin, mem_map, mem_filter]
  constructor
  · rintro empty ⟨task, ⟨member, symmetric⟩, same⟩
    exact empty task ⟨member, symmetric, same⟩
  · rintro closed task ⟨member, symmetric, same⟩
    exact closed ⟨task, ⟨member, symmetric⟩, same⟩

/-- The heap after the first loop has gone through `seen`. -/
structure Binned (seen : List Nat) (state : SymState) (bins : SymBins) : Prop where
  remain : ∃ stop, Held state.next state.remain (seen.filter fun task => !input.symmetric task) stop
  queue : state.collSymTaskQueue = none
  unmarked : ∀ task, state.isSymLast task = false
  binned : ∀ index, Linked state.next (bins.tasksSymByFnOpTy index) (bin input seen index) none
  indices : bins.fnOpTySymIndices = binIndices input seen
  counted : state.nTasksColl = input.nTasksColl - (seen.filter input.symmetric).length

private theorem binned_symmetric (binned : Binned input seen state bins) (fresh : task ∉ seen)
    (symmetric : input.symmetric task = true) :
    Binned input (seen ++ [task])
      { state with
        next := update state.next task (bins.tasksSymByFnOpTy (input.index task))
        nTasksColl := state.nTasksColl - 1 }
      { tasksSymByFnOpTy := update bins.tasksSymByFnOpTy (input.index task) (some task)
        fnOpTySymIndices :=
          if bins.tasksSymByFnOpTy (input.index task) = none then bins.fnOpTySymIndices ++ [input.index task]
          else bins.fnOpTySymIndices } := by
  have unbinned : ∀ index, task ∉ bin input seen index := fun index member => fresh ((mem_bin input).mp member).1
  have kept : (seen ++ [task]).filter (fun task => !input.symmetric task) =
      seen.filter fun task => !input.symmetric task := by simp [symmetric]
  have grown : (seen ++ [task]).filter input.symmetric = seen.filter input.symmetric ++ [task] := by
    simp [symmetric]
  refine ⟨?_, binned.queue, binned.unmarked, fun index => ?_, ?_, ?_⟩
  · obtain ⟨stop, held⟩ := binned.remain
    refine ⟨stop, ?_⟩
    rw [kept]
    refine held.congr fun other member => update_of_ne ?_ _ _
    rintro rfl
    exact fresh (mem_filter.mp member).1
  · rw [bin_concat]
    by_cases same : input.index task = index
    · subst same
      simp only [symmetric, and_self, ↓reduceIte, update_self]
      exact ⟨rfl, by simpa using (binned.binned _).update_of_notMem (unbinned _)⟩
    · simp only [same, and_false, ↓reduceIte, update_of_ne (Ne.symm same)]
      exact (binned.binned index).update_of_notMem (unbinned index)
  · have opened : bins.tasksSymByFnOpTy (input.index task) = none ↔ input.index task ∉ binIndices input seen := by
      rw [(binned.binned _).start_eq, head?_eq_none_iff, bin_nil_iff]
    have opens : binIndices input (seen ++ [task]) =
        if input.index task ∈ binIndices input seen then binIndices input seen
        else binIndices input seen ++ [input.index task] := by
      rw [binIndices, grown, map_append]
      exact firsts_concat _ _
    simp only [opens, opened, binned.indices]
    by_cases known : input.index task ∈ binIndices input seen <;> simp
  · rw [grown, length_append, length_singleton]
    have := binned.counted
    push_cast
    omega

private theorem binned_remaining (binned : Binned input seen state bins) (distinct : seen.Nodup) (fresh : task ∉ seen)
    (other : input.symmetric task = false) : Binned input (seen ++ [task]) (state.appendRemain task) bins := by
  have kept : (seen ++ [task]).filter (fun task => !input.symmetric task) =
      (seen.filter fun task => !input.symmetric task) ++ [task] := by simp [other]
  have same : (seen ++ [task]).filter input.symmetric = seen.filter input.symmetric := by
    simp [other]
  obtain ⟨stop, held⟩ := binned.remain
  refine ⟨⟨state.next task, ?_⟩, binned.queue, binned.unmarked, fun index => ?_, ?_, ?_⟩
  · rw [kept]
    exact held.pushBack (distinct.filter _) fun member => fresh (mem_filter.mp member).1
  · rw [bin_concat]
    simp only [other, Bool.false_eq_true, false_and, ↓reduceIte]
    refine (binned.binned index).congr fun member binnedHere => pushBack_of_notMem held task fun remaining => ?_
    have symmetric := ((mem_bin input).mp binnedHere).2.1
    simp [symmetric] at remaining
  · rw [binIndices, same]
    exact binned.indices
  · rw [same]
    exact binned.counted

theorem binTasks_binned (rest : List Nat) (fuel : Nat) (seen : List Nat) (task : Option Nat) (state : SymState)
    (bins : SymBins) (binned : Binned input seen state bins) (linked : Linked state.next task rest none)
    (distinct : (seen ++ rest).Nodup) (enough : rest.length ≤ fuel) :
    ∃ state' bins', binTasks input fuel task state bins = some (state', bins') ∧
      Binned input (seen ++ rest) state' bins' := by
  induction rest generalizing fuel seen task state bins with
  | nil =>
    cases linked
    refine ⟨state, bins, ?_, by simpa using binned⟩
    cases fuel <;> rfl
  | cons node rest ih =>
    obtain ⟨rfl, linked⟩ := linked
    cases fuel with
    | zero => cases enough
    | succ fuel =>
      have fresh : node ∉ seen := by
        intro member
        exact (nodup_append.mp distinct).2.2 node member node mem_cons_self rfl
      have outside := (nodup_cons.mp (nodup_append.mp distinct).2.1).1
      have regrouped : seen ++ node :: rest = (seen ++ [node]) ++ rest := by simp
      have shorter := Nat.le_of_succ_le_succ enough
      rw [regrouped] at distinct ⊢
      simp only [binTasks]
      by_cases symmetric : input.symmetric node = true
      · simp only [symmetric, ↓reduceIte]
        exact ih fuel (seen ++ [node]) _ _ _ (binned_symmetric input binned fresh symmetric)
          (linked.update_of_notMem outside) distinct shorter
      · simp only [symmetric, Bool.false_eq_true, ↓reduceIte]
        have unchanged : ∀ other ∈ rest, (state.appendRemain node).next other = state.next other := by
          intro other member
          obtain ⟨stop, held⟩ := binned.remain
          refine pushBack_of_notMem held node fun remaining => ?_
          exact (nodup_append.mp distinct).2.2 other (mem_append_left _ (mem_filter.mp remaining).1) other member rfl
        exact ih fuel (seen ++ [node]) _ _ _
          (binned_remaining input binned (nodup_append.mp (nodup_append.mp distinct).1).1 fresh
            (Bool.eq_false_iff.mpr symmetric))
          (linked.congr unchanged) distinct shorter

/-! ## The batches -/

/-- A batch, the task it is named after, and what follows it in its bin. -/
structure SymBatch where
  headTask : Nat
  tasks : List Nat
  followers : List Nat

/-- The first batch of a bin that starts with `task`. -/
def takeBatch (nWorks task : Nat) : List Nat → List Nat × List Nat
  | [] => ([task], [])
  | after :: rest =>
    if !input.argsFit (nWorks + 2) || (input.aggIsolate task || input.aggIsolate after) then ([task], after :: rest)
    else
      let (batch, followers) := takeBatch (nWorks + 1) after rest
      (task :: batch, followers)

/-- The batches of a bin; `length` bounds how many there are. -/
def cutBatches : (length : Nat) → List Nat → List SymBatch
  | 0, _ => []
  | _, [] => []
  | length + 1, task :: rest =>
    let (batch, followers) := takeBatch input 0 task rest
    ⟨task, batch, followers⟩ :: cutBatches length followers

/-- All batches, in the order in which they are processed. -/
def allBatches : List SymBatch :=
  (binIndices input input.tasks).flatMap fun index =>
    cutBatches input input.tasks.length (bin input input.tasks index)

theorem takeBatch_append (nWorks task : Nat) (rest : List Nat) :
    (takeBatch input nWorks task rest).1 ++ (takeBatch input nWorks task rest).2 = task :: rest ∧
      (takeBatch input nWorks task rest).1.head? = some task := by
  induction rest generalizing nWorks task with
  | nil => exact ⟨rfl, rfl⟩
  | cons after rest ih =>
    simp only [takeBatch]
    split
    · exact ⟨rfl, rfl⟩
    · exact ⟨by simp [(ih (nWorks + 1) after).1], rfl⟩

variable {next : Nat → Option Nat}

/-- The scan finds the last task of the batch. -/
theorem scanBatch_eq (rest : List Nat) (fuel nWorks task : Nat)
    (linked : Linked next (some task) (task :: rest) none) (enough : rest.length < fuel) :
    scanBatch input next fuel nWorks task = (takeBatch input nWorks task rest).1.getLast? := by
  induction rest generalizing fuel nWorks task with
  | nil =>
    cases fuel with
    | zero => cases enough
    | succ =>
      have last : next task = none := linked.2
      simp [scanBatch, takeBatch, last]
  | cons after rest ih =>
    cases fuel with
    | zero => cases enough
    | succ fuel =>
      have follows := linked.2.1
      simp only [scanBatch, takeBatch, follows]
      split
      · rfl
      · rw [ih fuel (nWorks + 1) after (follows ▸ linked.2) (Nat.lt_of_succ_lt_succ enough)]
        have nonempty : (takeBatch input (nWorks + 1) after rest).1 ≠ [] := by
          intro empty
          have := (takeBatch_append input (nWorks + 1) after rest).2
          simp [empty] at this
        exact (getLast?_cons_of_ne_nil nonempty).symm

/-! ## Handing a batch on -/

/-- Only the last task of a batch is marked. -/
def Marked (isSymLast : Nat → Bool) : List Nat → Prop
  | [] => False
  | [task] => isSymLast task = true
  | task :: after :: rest => isSymLast task = false ∧ Marked isSymLast (after :: rest)

theorem marked_of_last (distinct : tasks.Nodup) (isLast : tasks.getLast? = some last)
    (unmarked : ∀ task ∈ tasks, isSymLast task = false) : Marked (update isSymLast last true) tasks := by
  induction tasks with
  | nil => cases isLast
  | cons task rest ih =>
    cases rest with
    | nil =>
      obtain rfl : task = last := by simpa using isLast
      simp [Marked]
    | cons =>
      obtain ⟨outside, distinctRest⟩ := nodup_cons.mp distinct
      have other : task ≠ last := by
        rintro rfl
        exact outside (mem_of_getLast? isLast)
      refine ⟨?_, ih distinctRest isLast fun other member => unmarked other (mem_cons_of_mem _ member)⟩
      rw [update_of_ne other]
      exact unmarked task mem_cons_self

/-- A loop that hands the tasks of a batch on to a list, one behind the other. It goes up to
the task that is marked last, and leaves the rest of the heap alone. -/
theorem moveBatch_spec (holds : List Nat → Option Nat → SymState → Prop)
    (step : ∀ {list before state task}, list.Nodup → task ∉ list → holds list before state →
      holds (list ++ [task]) (state.next task) (move state task) ∧ (move state task).isSymLast = state.isSymLast ∧
        ∀ other, other ∉ list ++ [task] → (move state task).next other = state.next other) (tasks : List Nat)
    (fuel : Nat) (state : SymState) (before : Option Nat) (held : holds list before state)
    (distinct : (list ++ tasks).Nodup) (linked : Linked state.next tasks.head? tasks stop)
    (marked : Marked state.isSymLast tasks) (enough : tasks.length ≤ fuel) :
    ∃ state', moveBatch move fuel tasks.head? state = some (state', stop) ∧ holds (list ++ tasks) stop state' ∧
      state'.isSymLast = state.isSymLast ∧ ∀ other, other ∉ list ++ tasks → state'.next other = state.next other := by
  induction tasks generalizing fuel state list before with
  | nil => cases marked
  | cons task rest ih =>
    cases fuel with
    | zero => cases enough
    | succ fuel =>
      obtain ⟨distinctList, -, apart⟩ := nodup_append.mp distinct
      have fresh : task ∉ list := fun member => apart task member task mem_cons_self rfl
      obtain ⟨moved, marks, frame⟩ := step distinctList fresh held
      have here : (some task : Option Nat) = (task :: rest).head? := rfl
      simp only [← here, moveBatch]
      cases rest with
      | nil =>
        have isLast : state.isSymLast task = true := marked
        have ends := linked.2
        simp only [isLast, ↓reduceIte]
        exact ⟨move state task, by rw [ends], ends ▸ moved, marks, frame⟩
      | cons after rest =>
        obtain ⟨notLast, markedRest⟩ := marked
        have follows := linked.2.1
        rw [append_cons] at distinct ⊢
        have linkedRest : Linked (move state task).next (some after) (after :: rest) stop := by
          refine Linked.congr (fun other member => frame other fun early => ?_) (follows ▸ linked.2)
          exact (nodup_append.mp distinct).2.2 other early other member rfl
        obtain ⟨state', run, heldAll, sameMarks, unchanged⟩ := ih fuel (move state task) _ moved distinct linkedRest
          (marks.symm ▸ markedRest) (Nat.le_of_succ_le_succ enough)
        simp only [notLast, Bool.false_eq_true, ↓reduceIte, follows]
        refine ⟨state', run, heldAll, sameMarks.trans marks, fun other absent => ?_⟩
        rw [unchanged other absent]
        exact frame other fun member => absent (mem_append_left _ member)

/-- The remaining tasks, whose last keeps its `next`, while the queue stays. -/
def HeldBack (queue : Option (Ends Nat)) (uncounted : Int) (list : List Nat) (stop : Option Nat)
    (state : SymState) : Prop :=
  Held state.next state.remain list stop ∧ state.collSymTaskQueue = queue ∧ state.nTasksColl - list.length = uncounted

theorem HeldBack.fallBack (distinct : list.Nodup) (fresh : task ∉ list)
    (held : HeldBack queue uncounted list before state) :
    HeldBack queue uncounted (list ++ [task]) (state.next task) (state.fallBack task) ∧
      (state.fallBack task).isSymLast = state.isSymLast ∧
      ∀ other, other ∉ list ++ [task] → (state.fallBack task).next other = state.next other := by
  obtain ⟨held, isQueue, counted⟩ := held
  refine ⟨⟨held.pushBack distinct fresh, isQueue, ?_⟩, rfl, fun other absent => ?_⟩
  · simp only [SymState.fallBack, length_append, length_singleton, ← counted]
    omega
  · exact pushBack_of_notMem held task fun member => absent (mem_append_left _ member)

/-- The queue, which ends with its last task, while the remaining tasks stay. -/
def HeldSym (remain : Option (Ends Nat)) (count : Int) (list : List Nat) (_ : Option Nat) (state : SymState) : Prop :=
  Held state.next state.collSymTaskQueue list none ∧ state.remain = remain ∧ state.nTasksColl = count

theorem HeldSym.enqueueSym {count : Int} (kernel : SymKernel) (distinct : list.Nodup) (fresh : task ∉ list)
    (held : HeldSym remain count list before state) :
    HeldSym remain count (list ++ [task]) (state.next task) (state.enqueueSym kernel task) ∧
      (state.enqueueSym kernel task).isSymLast = state.isSymLast ∧
      ∀ other, other ∉ list ++ [task] → (state.enqueueSym kernel task).next other = state.next other := by
  obtain ⟨held, isRemain, counted⟩ := held
  have cleared : Held (update state.next task none) state.collSymTaskQueue list none := by
    refine held.congr fun other member => update_of_ne ?_ _ _
    rintro rfl
    exact fresh member
  refine ⟨⟨?_, isRemain, counted⟩, rfl, fun other absent => ?_⟩
  · have pushed := cleared.pushBack distinct fresh
    rwa [update_self] at pushed
  · have same := pushBack_of_notMem cleared task fun member => absent (mem_append_left _ member)
    refine same.trans (update_of_ne ?_ _ _)
    rintro rfl
    exact absent (mem_append_right _ (mem_singleton_self _))

/-! ## The second loop -/

section
variable (processed : List SymBatch)

/-- The tasks of the processed batches that fell back. -/
def fallen : List Nat :=
  (processed.filter fun batch => input.fallsBack batch.headTask).flatMap SymBatch.tasks

/-- The tasks of the processed batches that got a kernel. -/
def chosen : List Nat :=
  (processed.filter fun batch => !input.fallsBack batch.headTask).flatMap SymBatch.tasks

/-- Where the `next` of the last remaining task leads: to what followed the
last batch that fell back. -/
def dangling : Option Nat :=
  (processed.filter fun batch => input.fallsBack batch.headTask).getLast?.bind fun batch => batch.followers.head?

end

/-- The heap after `processed`, with the tasks in `pending` still in their bins. -/
structure Progress (remain : List Nat) (processed : List SymBatch) (pending : List Nat) (state : SymState) :
    Prop where
  remaining : Held state.next state.remain (remain ++ fallen input processed) (dangling input processed)
  queued : Held state.next state.collSymTaskQueue (chosen input processed) none
  distinct : (remain ++ fallen input processed ++ chosen input processed ++ pending).Nodup
  unmarked : ∀ task ∈ pending, state.isSymLast task = false
  counted : state.nTasksColl + (chosen input processed).length + pending.length = input.nTasksColl

variable {input}

private theorem handOn_fallBack (state : SymState) (falls : input.fallsBack headTask = true) :
    handOn input headTask state = moveBatch SymState.fallBack input.tasks.length (some headTask) state := by
  unfold handOn
  cases tuned : input.tuning headTask with
  | none => rfl
  | some =>
    cases sysmem : input.hasSysmemSegment headTask with
    | true => rfl
    | false => simp [SymInput.fallsBack, tuned, sysmem] at falls

private theorem handOn_enqueueSym (state : SymState) (stays : input.fallsBack headTask = false) :
    ∃ kernel, handOn input headTask state =
      moveBatch (SymState.enqueueSym kernel) input.tasks.length (some headTask) state := by
  unfold handOn
  cases tuned : input.tuning headTask with
  | none => simp [SymInput.fallsBack, tuned] at stays
  | some kernel =>
    cases sysmem : input.hasSysmemSegment headTask with
    | true => simp [SymInput.fallsBack, sysmem] at stays
    | false => exact ⟨kernel, rfl⟩

private theorem nodup_regroup (distinct : (kept ++ queued ++ (tasks ++ pending)).Nodup) :
    (kept ++ tasks ++ queued ++ pending).Nodup := by
  refine (List.Perm.nodup_iff ?_).mp distinct
  simp only [append_assoc]
  refine List.Perm.append_left kept ?_
  rw [← append_assoc, ← append_assoc]
  exact perm_append_comm.append_right pending

/-- One batch: it joins the tasks it belongs to, and the rest of the heap is
left alone. -/
theorem progress_batch (batch : SymBatch) (progress : Progress input remain processed (batch.tasks ++ pending) state)
    (linked : Linked state.next batch.tasks.head? batch.tasks batch.followers.head?)
    (named : batch.tasks.head? = some batch.headTask) (isLast : batch.tasks.getLast? = some last)
    (enough : batch.tasks.length ≤ input.tasks.length) :
    ∃ state', handOn input batch.headTask { state with isSymLast := update state.isSymLast last true } =
        some (state', batch.followers.head?) ∧
      Progress input remain (processed ++ [batch]) pending state' ∧
      ∀ task ∈ pending, state'.next task = state.next task := by
  have regrouped := nodup_regroup progress.distinct
  obtain ⟨distinctMoved, -, apartPending⟩ := nodup_append.mp regrouped
  obtain ⟨distinctKept, -, apartQueue⟩ := nodup_append.mp distinctMoved
  have distinctTasks := (nodup_append.mp distinctKept).2.1
  have marked := marked_of_last distinctTasks isLast fun task member => progress.unmarked task (mem_append_left _ member)
  have unmarked : ∀ task ∈ pending, update state.isSymLast last true task = false := by
    intro task member
    rw [update_of_ne]
    · exact progress.unmarked task (mem_append_right _ member)
    · rintro rfl
      exact apartPending task (mem_append_left _ (mem_append_right _ (mem_of_getLast? isLast))) task member rfl
  by_cases falls : input.fallsBack batch.headTask = true
  · have grown : fallen input (processed ++ [batch]) = fallen input processed ++ batch.tasks := by
      simp [fallen, falls]
    have same : chosen input (processed ++ [batch]) = chosen input processed := by
      simp [chosen, falls]
    have ends : dangling input (processed ++ [batch]) = batch.followers.head? := by
      simp [dangling, falls]
    obtain ⟨state', moved, ⟨held, queue, counted⟩, marks, frame⟩ := moveBatch_spec (HeldBack _ _) HeldBack.fallBack
      batch.tasks input.tasks.length { state with isSymLast := update state.isSymLast last true } _
      ⟨progress.remaining, rfl, rfl⟩ distinctKept linked marked enough
    rw [named] at moved
    refine ⟨state', (handOn_fallBack _ falls).trans moved, ⟨?_, ?_, ?_, ?_, ?_⟩, fun task member => frame task ?_⟩
    · rw [grown, ends, ← append_assoc]
      exact held
    · rw [same, queue]
      exact progress.queued.congr fun task member => frame task fun kept => apartQueue task kept task member rfl
    · rw [grown, same, ← append_assoc]
      exact regrouped
    · rw [marks]
      exact unmarked
    · have before := progress.counted
      rw [same]
      simp only [length_append] at before counted ⊢
      omega
    · exact fun kept => apartPending task (mem_append_left _ kept) task member rfl
  · have stays := Bool.eq_false_iff.mpr falls
    have same : fallen input (processed ++ [batch]) = fallen input processed := by
      simp [fallen, stays]
    have grown : chosen input (processed ++ [batch]) = chosen input processed ++ batch.tasks := by
      simp [chosen, stays]
    have ends : dangling input (processed ++ [batch]) = dangling input processed := by
      simp [dangling, stays]
    have flat : (remain ++ fallen input processed ++ (chosen input processed ++ batch.tasks) ++ pending).Nodup := by
      have := progress.distinct
      simpa using this
    obtain ⟨distinctHeld, -, apartRest⟩ := nodup_append.mp flat
    obtain ⟨-, distinctQueue, apartKept⟩ := nodup_append.mp distinctHeld
    obtain ⟨kernel, hands⟩ := handOn_enqueueSym { state with isSymLast := update state.isSymLast last true } stays
    obtain ⟨state', moved, ⟨held, kept, counted⟩, marks, frame⟩ := moveBatch_spec (HeldSym _ _)
      (HeldSym.enqueueSym kernel) batch.tasks input.tasks.length
      { state with isSymLast := update state.isSymLast last true } none ⟨progress.queued, rfl, rfl⟩ distinctQueue linked
      marked enough
    rw [named] at moved
    refine ⟨state', hands.trans moved, ⟨?_, ?_, ?_, ?_, ?_⟩, fun task member => frame task ?_⟩
    · rw [same, ends, kept]
      exact progress.remaining.congr fun task member => frame task fun queued => apartKept task member task queued rfl
    · rw [grown]
      exact held
    · rw [grown, same]
      exact flat
    · rw [marks]
      exact unmarked
    · have before := progress.counted
      rw [grown, counted]
      simp only [length_append] at before ⊢
      omega
    · exact fun queued => apartRest task (mem_append_right _ queued) task member rfl

/-- One bin: it is refused with its first refused batch, or all its batches
are handed on. -/
theorem processBin_progress (fuel : Nat) (list others : List Nat) (processed : List SymBatch) (state : SymState)
    (progress : Progress input remain processed (list ++ others) state)
    (linked : Linked state.next list.head? list none) (enough : list.length ≤ fuel)
    (bound : list.length ≤ input.tasks.length) :
    (processBin input fuel list.head? state = some (.error .invalidArgument) ∧
        ∃ batch ∈ cutBatches input fuel list, input.refuses batch.headTask = true) ∨
      ((∀ batch ∈ cutBatches input fuel list, input.refuses batch.headTask = false) ∧
        ∃ state', processBin input fuel list.head? state = some (.ok state') ∧
          Progress input remain (processed ++ cutBatches input fuel list) others state' ∧
          ∀ task ∈ others, state'.next task = state.next task) := by
  induction fuel generalizing list processed state with
  | zero =>
    obtain rfl : list = [] := length_eq_zero_iff.mp (Nat.le_zero.mp enough)
    exact Or.inr ⟨by simp [cutBatches], state, rfl, by simpa [cutBatches] using progress, fun _ _ => rfl⟩
  | succ fuel ih =>
    cases list with
    | nil => exact Or.inr ⟨by simp [cutBatches], state, rfl, by simpa [cutBatches] using progress, fun _ _ => rfl⟩
    | cons task rest =>
      obtain ⟨whole, named⟩ := takeBatch_append input 0 task rest
      have scanned := scanBatch_eq input rest input.tasks.length 0 task linked bound
      simp only [cutBatches]
      generalize taken : takeBatch input 0 task rest = cut at whole named scanned ⊢
      obtain ⟨tasks, followers⟩ := cut
      obtain ⟨last, isLast⟩ : ∃ last, tasks.getLast? = some last := by
        cases tasks with
        | nil => cases named
        | cons => exact ⟨_, getLast?_eq_some_getLast (cons_ne_nil _ _)⟩
      simp only [head?_cons, processBin, scanned, isLast, Option.bind_eq_bind, Option.bind_some]
      by_cases refused : input.refuses task = true
      · exact Or.inl ⟨by simp [refused], ⟨task, tasks, followers⟩, mem_cons_self, refused⟩
      · have shorter : tasks.length + followers.length = rest.length + 1 := by
          rw [← length_append, whole, length_cons]
        have some_task : 0 < tasks.length := length_pos_of_ne_nil fun none => by simp [none] at isLast
        simp only [length_cons] at enough bound
        rw [← whole] at linked progress
        rw [head?_append_of_ne_nil _ (ne_nil_of_length_pos some_task)] at linked
        obtain ⟨between, linkedTasks, linkedFollowers⟩ := linked.of_append
        obtain rfl := linkedFollowers.start_eq
        rw [append_assoc] at progress
        obtain ⟨state', handed, progress', frame⟩ :=
          progress_batch ⟨task, tasks, followers⟩ progress linkedTasks named isLast (by simp only; omega)
        have linked' := linkedFollowers.congr fun other member => frame other (mem_append_left _ member)
        simp only [refused, Bool.false_eq_true, ↓reduceIte, handed, Option.bind_some]
        rcases ih followers (processed ++ [⟨task, tasks, followers⟩]) state' progress' linked' (by omega) (by omega)
          with ⟨failed, batch, member, refusedLater⟩ | ⟨accepted, final, done, progressFinal, frameFinal⟩
        · exact Or.inl ⟨failed, batch, mem_cons_of_mem _ member, refusedLater⟩
        · refine Or.inr ⟨?_, final, done, by simpa using progressFinal, fun other member => ?_⟩
          · simp only [mem_cons, forall_eq_or_imp]
            exact ⟨Bool.eq_false_iff.mpr refused, accepted⟩
          · rw [frameFinal other member]
            exact frame other (mem_append_right _ member)

/-- All bins, with the same alternative. -/
theorem processBins_progress (heads : Nat → Option Nat) (lists : Nat → List Nat) (indices : List Nat)
    (processed : List SymBatch) (state : SymState)
    (progress : Progress input remain processed (indices.flatMap lists) state)
    (linked : ∀ index ∈ indices, Linked state.next (heads index) (lists index) none)
    (bound : ∀ index, (lists index).length ≤ input.tasks.length) :
    let batches := indices.flatMap fun index => cutBatches input input.tasks.length (lists index)
    (processBins input heads indices state = some (.error .invalidArgument) ∧
        ∃ batch ∈ batches, input.refuses batch.headTask = true) ∨
      ((∀ batch ∈ batches, input.refuses batch.headTask = false) ∧
        ∃ state', processBins input heads indices state = some (.ok state') ∧
          Progress input remain (processed ++ batches) [] state') := by
  induction indices generalizing processed state with
  | nil => exact Or.inr ⟨by simp, state, rfl, by simpa using progress⟩
  | cons index rest ih =>
    have here := linked index mem_cons_self
    simp only [processBins, Option.bind_eq_bind]
    have start := here.start_eq
    rcases processBin_progress input.tasks.length (lists index) (rest.flatMap lists) processed state progress
      (start ▸ here) (bound index) (bound index)
      with ⟨failed, batch, member, refused⟩ | ⟨accepted, state', done, progress', frame⟩
    · refine Or.inl ⟨by rw [start, failed]; rfl, batch, mem_append_left _ member, refused⟩
    · have linked' : ∀ other ∈ rest, Linked state'.next (heads other) (lists other) none := by
        intro other member
        refine (linked other (mem_cons_of_mem _ member)).congr fun task isThere => frame task ?_
        exact mem_flatMap.mpr ⟨other, member, isThere⟩
      rw [start, done]
      rcases ih (processed ++ cutBatches input input.tasks.length (lists index)) state' progress' linked'
        with ⟨failed, batch, member, refused⟩ | ⟨acceptedRest, final, doneRest, progressFinal⟩
      · exact Or.inl ⟨failed, batch, mem_append_right _ member, refused⟩
      · refine Or.inr ⟨?_, final, doneRest, by simpa using progressFinal⟩
        intro batch member
        rcases mem_append.mp member with early | late
        · exact accepted batch early
        · exact acceptedRest batch late

/-! ## Everything ends in one place, or not -/

theorem cutBatches_nonempty (length : Nat) (list : List Nat) :
    ∀ batch ∈ cutBatches input length list, batch.tasks ≠ [] := by
  induction length generalizing list with
  | zero => simp [cutBatches]
  | succ length ih =>
    cases list with
    | nil => simp [cutBatches]
    | cons task rest =>
      obtain ⟨-, named⟩ := takeBatch_append input 0 task rest
      simp only [cutBatches, mem_cons, forall_eq_or_imp]
      exact ⟨fun none => by simp [none] at named, ih _⟩

theorem cutBatches_tasks (length : Nat) (enough : list.length ≤ length) :
    (cutBatches input length list).flatMap SymBatch.tasks = list := by
  induction length generalizing list with
  | zero =>
    obtain rfl : list = [] := length_eq_zero_iff.mp (Nat.le_zero.mp enough)
    rfl
  | succ length ih =>
    cases list with
    | nil => rfl
    | cons task rest =>
      obtain ⟨whole, named⟩ := takeBatch_append input 0 task rest
      simp only [cutBatches, flatMap_cons]
      rw [ih, whole]
      have split := congrArg List.length whole
      have some_task : 0 < (takeBatch input 0 task rest).1.length :=
        length_pos_of_ne_nil fun none => by simp [none] at named
      simp only [length_append, length_cons] at split enough
      omega

variable (input) in
/-- The bins hold the symmetric tasks. -/
theorem bins_perm : ((binIndices input input.tasks).flatMap (bin input input.tasks)).Perm
    (input.tasks.filter input.symmetric) := by
  refine (perm_ext_iff_of_nodup ?_ (input.distinct.filter _)).mpr fun task => ?_
  · refine nodup_flatMap.mpr ⟨fun index _ => nodup_reverse.mpr (input.distinct.filter _), ?_⟩
    rw [binIndices, firsts_eq]
    refine (nodup_reverse.mpr (nodup_dedup _)).imp fun {index other} apart => ?_
    intro task here there
    exact apart (((mem_bin input).mp here).2.2.symm.trans ((mem_bin input).mp there).2.2)
  · simp only [mem_flatMap, mem_bin, mem_filter]
    constructor
    · rintro ⟨index, -, member, symmetric, -⟩
      exact ⟨member, symmetric⟩
    · rintro ⟨member, symmetric⟩
      refine ⟨input.index task, ?_, member, symmetric, rfl⟩
      exact mem_firsts.mpr (mem_map.mpr ⟨task, mem_filter.mpr ⟨member, symmetric⟩, rfl⟩)

theorem bin_length_le (index : Nat) : (bin input input.tasks index).length ≤ input.tasks.length := by
  rw [bin, length_reverse]
  exact length_filter_le _ _

/-- The two lists that are built hold the input tasks. -/
theorem built_perm : ((input.tasks.filter fun task => !input.symmetric task) ++ fallen input (allBatches input) ++
    chosen input (allBatches input)).Perm input.tasks := by
  have batched : (fallen input (allBatches input) ++ chosen input (allBatches input)).Perm
      (input.tasks.filter input.symmetric) := by
    have flat : (allBatches input).flatMap SymBatch.tasks =
        (binIndices input input.tasks).flatMap (bin input input.tasks) := by
      rw [allBatches, flatMap_assoc]
      exact flatMap_congr fun index _ => cutBatches_tasks _ (bin_length_le index)
    rw [fallen, chosen, ← flatMap_append]
    refine (List.Perm.flatMap_right _ (filter_append_perm _ _)).trans ?_
    rw [flat]
    exact bins_perm input
  rw [append_assoc]
  refine (List.Perm.append_left _ batched).trans (perm_append_comm.trans ?_)
  exact filter_append_perm _ _

variable (input) in
/-- The tasks that no symmetric kernel is available for. -/
def ordinary : List Nat := input.tasks.filter fun task => !input.symmetric task

/-- Ending the list of remaining tasks writes one pointer and nothing else. -/
private theorem terminateRemain_fields (state : SymState) : state.terminateRemain.remain = state.remain ∧
    state.terminateRemain.collSymTaskQueue = state.collSymTaskQueue ∧
    state.terminateRemain.isSymLast = state.isSymLast ∧ state.terminateRemain.nTasksColl = state.nTasksColl := by
  unfold SymState.terminateRemain
  split <;> exact ⟨rfl, rfl, rfl, rfl⟩

/-- The heap between the two loops. -/
theorem binned_progress (binned : Binned input input.tasks state bins) :
    Progress input (ordinary input) [] ((binIndices input input.tasks).flatMap (bin input input.tasks))
        state.terminateRemain ∧
      ∀ index, Linked state.terminateRemain.next (bins.tasksSymByFnOpTy index) (bin input input.tasks index) none := by
  obtain ⟨stop, held⟩ := binned.remain
  have frame : ∀ task, task ∉ ordinary input → state.terminateRemain.next task = state.next task := by
    intro task absent
    unfold SymState.terminateRemain
    cases ends : state.remain with
    | none => rfl
    | some ends =>
      rw [ends] at held
      refine update_of_ne ?_ _ _
      rintro rfl
      exact absent (mem_of_getLast? held.1)
  obtain ⟨sameRemain, sameQueue, sameMarks, sameCount⟩ := terminateRemain_fields state
  refine ⟨⟨?_, ?_, ?_, ?_, ?_⟩, fun index => (binned.binned index).congr fun task member => frame task fun there => ?_⟩
  · rw [sameRemain]
    unfold SymState.terminateRemain
    cases ends : state.remain with
    | none =>
      rw [ends] at held
      simpa [fallen, Held, ordinary] using held
    | some ends =>
      rw [ends] at held
      refine ⟨by simpa [fallen, ordinary] using held.1, ?_⟩
      simpa [fallen, dangling, ordinary] using held.2.redirect (input.distinct.filter _) held.1
  · rw [sameQueue, binned.queue]
    rfl
  · simp only [fallen, chosen, filter_nil, flatMap_nil, append_nil]
    have split := (bins_perm input).append_left (ordinary input)
    refine (List.Perm.nodup_iff (split.trans (perm_append_comm.trans ?_))).mpr input.distinct
    exact filter_append_perm _ _
  · rw [sameMarks]
    exact fun task _ => binned.unmarked task
  · rw [sameCount, binned.counted, (bins_perm input).length_eq]
    simp [chosen]
  · have symmetric := ((mem_bin input).mp member).2.1
    simp [ordinary, symmetric] at there

variable (input) in
/-- The function returns success: there is room for the arguments of a single
work if one is needed, and no batch is refused. -/
def Accepts : Prop :=
  (∀ task ∈ input.tasks, input.symmetric task = true → input.argsFit 1 = true) ∧
    ∀ batch ∈ allBatches input, input.refuses batch.headTask = false

variable (input) in
theorem make_outcome :
    (Accepts input ∧ ∃ state, ncclMakeSymmetricTaskList input = some (.ok state) ∧
        Progress input (ordinary input) (allBatches input) [] state) ∨
      (¬ Accepts input ∧ ∃ e, ncclMakeSymmetricTaskList input = some (.error e)) := by
  have start : Binned input [] input.start ⟨fun _ => none, []⟩ :=
    ⟨⟨none, rfl⟩, rfl, fun _ => rfl, fun _ => rfl, rfl, by simp [SymInput.start]⟩
  obtain ⟨state, bins, binning, binned⟩ := binTasks_binned input input.tasks input.tasks.length [] input.head _ _
    start input.linked (by simpa using input.distinct) le_rfl
  rw [nil_append] at binned
  obtain ⟨progress, linked⟩ := binned_progress binned
  simp only [ncclMakeSymmetricTaskList, binning, Option.bind_eq_bind, Option.bind_some]
  have opened : bins.fnOpTySymIndices = [] ↔ ∀ task ∈ input.tasks, input.symmetric task = false := by
    rw [binned.indices, binIndices, eq_nil_iff_forall_not_mem]
    simp only [mem_firsts, mem_map, mem_filter, not_exists, not_and]
    constructor
    · intro none task member
      by_contra symmetric
      exact none _ task ⟨member, Bool.eq_true_of_not_eq_false symmetric⟩ rfl
    · rintro none index task ⟨member, symmetric⟩
      simp [none task member] at symmetric
  by_cases empty : bins.fnOpTySymIndices = []
  · have noBatch : allBatches input = [] := by
      rw [allBatches, ← binned.indices, empty]
      rfl
    rw [← binned.indices, empty] at progress
    left
    simp only [empty, ↓reduceIte]
    refine ⟨⟨fun task member symmetric => ?_, by simp [noBatch]⟩, _, rfl, by rw [noBatch]; exact progress⟩
    simp [opened.mp empty task member] at symmetric
  · simp only [empty, ↓reduceIte]
    by_cases fits : input.argsFit 1 = true
    · simp only [fits, Bool.not_true, Bool.false_eq_true, ↓reduceIte]
      rw [← binned.indices] at progress
      rcases processBins_progress bins.tasksSymByFnOpTy (bin input input.tasks) bins.fnOpTySymIndices []
        state.terminateRemain progress (fun index _ => linked index) bin_length_le
        with ⟨failed, batch, member, refused⟩ | ⟨accepted, final, done, progressFinal⟩
      · refine Or.inr ⟨fun accepts => ?_, _, failed⟩
        rw [binned.indices] at member
        have := accepts.2 batch member
        simp [refused] at this
      · rw [binned.indices] at accepted progressFinal
        exact Or.inl ⟨⟨fun _ _ _ => fits, accepted⟩, final, done, progressFinal⟩
    · refine Or.inr ⟨fun accepts => ?_, .internalError, by simp [fits]⟩
      refine empty (opened.mpr fun task member => ?_)
      by_contra symmetric
      exact fits (accepts.1 task member (Bool.eq_true_of_not_eq_false symmetric))

private theorem held_linked (held : Held next ends nodes stop) (finished : ends = none → stop = none) :
    Linked next (ends.map Ends.head) nodes stop := by
  cases ends with
  | none =>
    obtain rfl : nodes = [] := held
    exact (finished rfl).symm
  | some => exact held.2

/-- The two lists are right exactly when the last remaining task ends its list:
otherwise the walk goes on, and the lists are longer than the input. -/
theorem split_iff_dangling (progress : Progress input (ordinary input) (allBatches input) [] state) :
    (∃ remain symmetric, TasksSplit input state remain symmetric) ↔ dangling input (allBatches input) = none := by
  have complete : (ordinary input ++ fallen input (allBatches input) ++ chosen input (allBatches input)).Perm
      input.tasks := built_perm
  have counted := progress.counted
  simp only [length_nil, Int.natCast_zero, Int.add_zero] at counted
  have queued := held_linked progress.queued fun _ => rfl
  constructor
  · rintro ⟨remain, symmetric, split⟩
    obtain rfl := queued.unique split.queued
    by_contra leads
    obtain ⟨task, leads⟩ := Option.ne_none_iff_exists'.mp leads
    obtain ⟨batch, isLast, -⟩ := Option.bind_eq_some_iff.mp leads
    have some_fallen : ordinary input ++ fallen input (allBatches input) ≠ [] := by
      intro empty
      have member := mem_of_getLast? isLast
      obtain ⟨index, -, cut⟩ := mem_flatMap.mp (mem_filter.mp member).1
      refine cutBatches_nonempty _ _ batch cut ?_
      exact flatMap_eq_nil_iff.mp (append_eq_nil_iff.mp empty).2 batch member
    have walk := held_linked progress.remaining fun none => by
      have remaining := progress.remaining
      rw [none] at remaining
      exact absurd remaining some_fallen
    -- the walk from the head goes past the last task that was appended
    rw [leads] at walk
    have longer := walk.continues split.remaining
    obtain ⟨more, rfl, nonempty⟩ := longer
    have lengths := (split.complete.trans complete.symm).length_eq
    simp only [length_append] at lengths
    exact nonempty (length_eq_zero_iff.mp (by omega))
  · intro ends
    refine ⟨_, _, ?_, queued, complete, by omega⟩
    have := held_linked progress.remaining fun _ => ends
    rwa [ends] at this

variable (input) in
/-- Every task ends in exactly one place if and only if the function succeeds
and nothing follows, in its bin, the last batch that falls back. -/
theorem symmetric_tasks_split_iff :
    (∃ state remain symmetric, ncclMakeSymmetricTaskList input = some (.ok state) ∧
        TasksSplit input state remain symmetric) ↔
      Accepts input ∧
        ∀ batch, ((allBatches input).filter fun batch => input.fallsBack batch.headTask).getLast? = some batch →
          batch.followers = [] := by
  have condition : dangling input (allBatches input) = none ↔
      ∀ batch, ((allBatches input).filter fun batch => input.fallsBack batch.headTask).getLast? = some batch →
        batch.followers = [] := by
    simp [dangling]
  rw [← condition]
  rcases make_outcome input with ⟨accepts, state, made, progress⟩ | ⟨refuses, e, failed⟩
  · rw [← split_iff_dangling progress]
    constructor
    · rintro ⟨other, remain, symmetric, same, split⟩
      obtain rfl : state = other := by simpa [made] using same
      exact ⟨accepts, remain, symmetric, split⟩
    · rintro ⟨-, remain, symmetric, split⟩
      exact ⟨state, remain, symmetric, made, split⟩
  · constructor
    · rintro ⟨state, remain, symmetric, made, -⟩
      rw [failed] at made
      cases made
    · rintro ⟨accepts, -⟩
      exact absurd accepts refuses

/-- Two tasks of one bin. The later one has a configuration of its own, so it
is a batch of its own, and no symmetric kernel is found for it; one is found
for the earlier task, which follows in the bin. -/
def configuredPair : SymInput where
  head := some 0
  next task := if task = 0 then some 1 else none
  tasks := [0, 1]
  linked := ⟨rfl, rfl, rfl⟩
  distinct := by decide
  nTasksColl := 2
  func _ := 4
  symkOp _ := 0
  datatype _ := 7
  winRegType _ := 3
  symkAvailable _ := true
  effAlgMask _ := 0
  maskSymKernels := 0
  maskGeneralKernels := 0
  forceAlgSelection _ := false
  aggIsolate task := task == 1
  argsFit _ := true
  tuning task := if task = 1 then none else some ⟨3, 16, 16⟩
  hasSysmemSegment _ := false

/-- The task that got a kernel is reached from both lists. -/
theorem symmetric_task_in_both_lists :
    ∃ state, ncclMakeSymmetricTaskList configuredPair = some (.ok state) ∧
      Linked state.next (state.remain.map Ends.head) [1, 0] none ∧
      Linked state.next (state.collSymTaskQueue.map Ends.head) [0] none ∧
      ¬ ∃ remain symmetric, TasksSplit configuredPair state remain symmetric := by
  refine ⟨_, rfl, ⟨rfl, rfl, rfl⟩, ⟨rfl, rfl⟩, ?_⟩
  rintro ⟨remain, symmetric, split⟩
  obtain rfl : remain = [1, 0] := split.remaining.unique ⟨rfl, rfl, rfl⟩
  obtain rfl : symmetric = [0] := split.queued.unique ⟨rfl, rfl⟩
  cases split.complete.length_eq

end NcclCore.SymmetricTasksProofs

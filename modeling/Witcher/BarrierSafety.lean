import Mathlib.Data.Fintype.Card
import Witcher.ThreadPool

/-! When a `Barrier` is answered. A worker that passed the barrier of the workers with a `None` of some
request proves that all tasks put before that request are done: the queue is first in, first out, and
all workers were inside of the barrier at once. The dispatcher waits without a predicate, so it has to be
woken by such a worker of its own request; a notification that is left over from an earlier request wakes
it as well. -/

namespace Witcher

def WorkerPc.inside : WorkerPc → Bool
  | .inBarrier _ _ => true
  | _ => false

/-- The dispatcher was woken and has not replied yet. -/
def DispatcherPc.pastWait : DispatcherPc → Bool
  | .woken | .leaving | .replying => true
  | _ => false

namespace ThreadPool

open Runs

variable {N : Nat} {s s' : ThreadPool N} {w : Fin N}

/-- The reply is sent only when all tasks put before the request are done. -/
def Safe (s : ThreadPool N) : Prop := s.dispatcher = .replying → ∀ n < s.mark, n ∈ s.finished

/-- A worker that notifies the waiting dispatcher took a `None` of the request that is waited for. -/
def timely (s : ThreadPool N) (a : Action N) : Bool :=
  match a with
  | .notifyAll w =>
      match s.worker w with
      | .holding round _ => s.dispatcher ≠ .waiting || round = s.round
      | _ => true
  | _ => true

/-! ### The invariant -/

/-- The numbers of a `None` that was put before. -/
def MarkOk (s : ThreadPool N) (round mark : Nat) : Prop :=
  mark ≤ s.enqueued ∧ round ≤ s.round ∧ (round = s.round → mark = s.mark)

def WorkerOk (s : ThreadPool N) : WorkerPc → Prop
  | .arriving round mark => MarkOk s round mark ∧ ∀ n < mark, .task n ∉ s.queue
  | .inBarrier round mark =>
      MarkOk s round mark ∧ (∀ n < mark, .task n ∉ s.queue) ∧ (s.draining → ∀ n < mark, n ∈ s.finished)
  | .passed round mark | .holding round mark => MarkOk s round mark ∧ ∀ n < mark, n ∈ s.finished
  | _ => True

/-- The workers inside of the barrier. -/
def insiders (f : Fin N → WorkerPc) : Finset (Fin N) := Finset.univ.filter fun w => (f w).inside

structure PoolInv (s : ThreadPool N) : Prop where
  mark_le : s.mark ≤ s.enqueued
  placed : ∀ n < s.enqueued, .task n ∈ s.queue ∨ (∃ w, s.worker w = .executing n) ∨ n ∈ s.finished
  marks : ∀ round mark, .none round mark ∈ s.queue → MarkOk s round mark
  fifo : s.queue.Pairwise fun j k => ∀ round mark n, j = .none round mark → k = .task n → mark ≤ n
  workers : ∀ w, WorkerOk s (s.worker w)
  count : s.barrierCount = (insiders s.worker).card
  woken : s.dispatcher.pastWait → ∀ n < s.mark, n ∈ s.finished

theorem PoolInv.init (requests : List Request) : PoolInv (init N requests) where
  mark_le := le_refl 0
  placed n hn := absurd hn (Nat.not_lt_zero n)
  marks _ _ h := by cases h
  fifo := List.Pairwise.nil
  workers _ := trivial
  count := by
    show 0 = _
    rw [eq_comm, Finset.card_eq_zero, insiders, Finset.filter_eq_empty_iff]
    exact fun _ _ h => by cases h
  woken h := by cases h

/-! ### Frames -/

/-- What a worker knows stays true while numbers grow and only new tasks are put. -/
theorem WorkerOk.mono {pc : WorkerPc} (h : WorkerOk s pc)
    (hmark : ∀ round mark, MarkOk s round mark → MarkOk s' round mark)
    (hqueue : ∀ n < s.enqueued, .task n ∈ s'.queue → .task n ∈ s.queue)
    (hfinished : ∀ n ∈ s.finished, n ∈ s'.finished) (hdraining : s'.draining → s.draining) : WorkerOk s' pc := by
  cases pc with
  | arriving round mark =>
      refine ⟨hmark _ _ h.1, ?_⟩
      exact fun n hn hmem => h.2 n hn (hqueue n (lt_of_lt_of_le hn h.1.1) hmem)
  | inBarrier round mark =>
      refine ⟨hmark _ _ h.1, ?_, ?_⟩
      · exact fun n hn hmem => h.2.1 n hn (hqueue n (lt_of_lt_of_le hn h.1.1) hmem)
      · exact fun hd n hn => hfinished n (h.2.2 (hdraining hd) n hn)
  | passed round mark => exact ⟨hmark _ _ h.1, fun n hn => hfinished n (h.2 n hn)⟩
  | holding round mark => exact ⟨hmark _ _ h.1, fun n hn => hfinished n (h.2 n hn)⟩
  | polling => trivial
  | getting => trivial
  | executing n => trivial
  | notified => trivial
  | taskDone => trivial

theorem mem_insiders {f : Fin N → WorkerPc} {w : Fin N} : w ∈ insiders f ↔ (f w).inside = true := by
  simp [insiders]

theorem insiders_update (f : Fin N → WorkerPc) (w : Fin N) (pc : WorkerPc) :
    insiders (Function.update f w pc) = if pc.inside then insert w (insiders f) else (insiders f).erase w := by
  ext v
  by_cases hv : v = w
  · subst hv
    by_cases hpc : pc.inside <;> simp [insiders, hpc]
  · by_cases hpc : pc.inside <;> simp [insiders, hpc, hv]

/-- A step of a worker that does not enter or leave the barrier. -/
theorem card_insiders_update {f : Fin N → WorkerPc} {w : Fin N} {pc : WorkerPc} (hold : (f w).inside = false)
    (hnew : pc.inside = false) : (insiders (Function.update f w pc)).card = (insiders f).card := by
  rw [insiders_update, if_neg (by simp [hnew]), Finset.erase_eq_of_notMem]
  simp [insiders, hold]

/-- A step of the dispatcher that puts nothing into the queue. -/
theorem PoolInv.setDispatcher (h : PoolInv s) {pc : DispatcherPc} (locked : Bool)
    (hwoken : pc.pastWait → ∀ n < s.mark, n ∈ s.finished) : PoolInv { s with locked := locked, dispatcher := pc } :=
  ⟨h.mark_le, h.placed, h.marks, h.fifo, h.workers, h.count, hwoken⟩

/-- No task is lost by a step of a worker that executes none. -/
theorem PoolInv.placed_update (h : PoolInv s) (pc : WorkerPc) (htask : ∀ n, s.worker w ≠ .executing n) {n : Nat}
    (hn : n < s.enqueued) :
    .task n ∈ s.queue ∨ (∃ v, Function.update s.worker w pc v = .executing n) ∨ n ∈ s.finished := by
  rcases h.placed n hn with hqueue | ⟨v, hv⟩ | hfinished
  · exact .inl hqueue
  · refine .inr (.inl ⟨v, ?_⟩)
    have hne : v ≠ w := by
      rintro rfl
      exact htask n hv
    exact (Function.update_of_ne hne pc s.worker).trans hv
  · exact .inr (.inr hfinished)

/-- A step of a worker outside of the barrier that takes no job and ends no task. -/
theorem PoolInv.setWorker (h : PoolInv s) {pc : WorkerPc} (locked : Bool) (hold : (s.worker w).inside = false)
    (hnew : pc.inside = false) (htask : ∀ n, s.worker w ≠ .executing n) (hok : WorkerOk s pc) :
    PoolInv { s.setWorker w pc with locked := locked } where
  mark_le := h.mark_le
  placed _ hn := h.placed_update pc htask hn
  marks := h.marks
  fifo := h.fifo
  workers := (Function.forall_update_iff s.worker fun _ pc => WorkerOk s pc).mpr ⟨hok, fun v _ => h.workers v⟩
  count := h.count.trans (card_insiders_update hold hnew).symm
  woken := h.woken

/-! ### Steps of the dispatcher -/

theorem PoolInv.receive (h : PoolInv s) (hstep : s.receive = some s') : PoolInv s' := by
  rw [ThreadPool.receive] at hstep
  split at hstep
  · cases hstep
    -- the new task has the largest number
    have hmark : ∀ round mark, MarkOk s round mark → mark ≤ s.enqueued + 1 ∧ round ≤ s.round ∧
        (round = s.round → mark = s.mark) :=
      fun round mark hok => ⟨Nat.le_succ_of_le hok.1, hok.2⟩
    refine ⟨Nat.le_succ_of_le h.mark_le, ?_, ?_, ?_, ?_, h.count, h.woken⟩
    · intro n hn
      rcases Nat.lt_succ_iff_lt_or_eq.mp hn with hlt | rfl
      · exact (h.placed n hlt).imp_left (List.mem_append_left _)
      · exact .inl (List.mem_append_right _ List.mem_cons_self)
    · intro round mark hmem
      rcases List.mem_append.mp hmem with hmem | hmem
      · exact hmark _ _ (h.marks round mark hmem)
      · cases List.mem_singleton.mp hmem
    · refine List.pairwise_append.mpr ⟨h.fifo, List.pairwise_singleton _ _, ?_⟩
      intro j hj k hk round mark n hjn hkn
      rw [List.mem_singleton.mp hk] at hkn
      cases hkn
      exact (h.marks round mark (hjn ▸ hj)).1
    · intro w
      refine (h.workers w).mono hmark ?_ (fun _ hn => hn) id
      intro n hn hmem
      rcases List.mem_append.mp hmem with hmem | hmem
      · exact hmem
      · cases List.mem_singleton.mp hmem
        exact absurd hn (Nat.lt_irrefl _)
  · cases hstep
    -- a `None` of an earlier request is not one of the new request
    have hmark : ∀ round mark, MarkOk s round mark → mark ≤ s.enqueued ∧ round ≤ s.round + 1 ∧
        (round = s.round + 1 → mark = s.enqueued) := by
      intro round mark hok
      refine ⟨hok.1, Nat.le_succ_of_le hok.2.1, ?_⟩
      intro hround
      have := hok.2.1
      omega
    refine ⟨le_refl _, h.placed, ?_, h.fifo, ?_, h.count, fun hpast => by cases hpast⟩
    · exact fun round mark hmem => hmark _ _ (h.marks round mark hmem)
    · exact fun w => (h.workers w).mono hmark (fun _ _ hmem => hmem) (fun _ hn => hn) id
  · cases hstep

theorem PoolInv.putNone (h : PoolInv s) (hstep : s.putNone = some s') : PoolInv s' := by
  rw [ThreadPool.putNone] at hstep
  split at hstep
  · cases hstep
    refine ⟨h.mark_le, ?_, ?_, ?_, ?_, h.count, fun hpast => by cases hpast⟩
    · exact fun n hn => (h.placed n hn).imp_left (List.mem_append_left _)
    · intro round mark hmem
      rcases List.mem_append.mp hmem with hmem | hmem
      · exact h.marks round mark hmem
      · cases List.mem_singleton.mp hmem
        exact ⟨h.mark_le, le_refl _, fun _ => rfl⟩
    · refine List.pairwise_append.mpr ⟨h.fifo, List.pairwise_singleton _ _, ?_⟩
      intro j hj k hk round mark n hjn hkn
      rw [List.mem_singleton.mp hk] at hkn
      cases hkn
    · intro w
      refine (h.workers w).mono (fun _ _ hok => hok) ?_ (fun _ hn => hn) id
      intro n _ hmem
      rcases List.mem_append.mp hmem with hmem | hmem
      · exact hmem
      · cases List.mem_singleton.mp hmem
  · cases hstep

theorem PoolInv.dispatcherAcquire (h : PoolInv s) (hstep : s.dispatcherAcquire = some s') : PoolInv s' := by
  rw [ThreadPool.dispatcherAcquire] at hstep
  split_ifs at hstep
  split at hstep
  · cases hstep
    exact h.setDispatcher true fun hpast => by cases hpast
  · cases hstep
    rename_i hwoken
    exact h.setDispatcher true fun _ => h.woken (by rw [hwoken]; rfl)
  · cases hstep

theorem PoolInv.wait (h : PoolInv s) (hstep : s.wait = some s') : PoolInv s' := by
  rw [ThreadPool.wait] at hstep
  split_ifs at hstep
  cases hstep
  exact h.setDispatcher false fun hpast => by cases hpast

theorem PoolInv.dispatcherRelease (h : PoolInv s) (hstep : s.dispatcherRelease = some s') : PoolInv s' := by
  rw [ThreadPool.dispatcherRelease] at hstep
  split_ifs at hstep with hleaving
  cases hstep
  exact h.setDispatcher false fun _ => h.woken (by rw [hleaving]; rfl)

theorem PoolInv.reply (h : PoolInv s) (hstep : s.reply = some s') : PoolInv s' := by
  rw [ThreadPool.reply] at hstep
  split_ifs at hstep
  cases hstep
  exact h.setDispatcher s.locked fun hpast => by cases hpast

/-! ### Steps of a worker -/

theorem PoolInv.poll (h : PoolInv s) (hstep : s.poll w = some s') : PoolInv s' := by
  rw [ThreadPool.poll] at hstep
  split_ifs at hstep with hpc
  cases hstep
  exact h.setWorker s.locked (by rw [hpc.1]; rfl) rfl (by rw [hpc.1]; simp) trivial

/-- A worker took the first job of the queue. -/
theorem PoolInv.take (h : PoolInv s) {job : Job} {rest : List Job} {pc : WorkerPc} (hqueue : s.queue = job :: rest)
    (hold : s.worker w = .getting) (hnew : pc.inside = false)
    (htask : ∀ n, job = .task n → pc = .executing n)
    (hok : WorkerOk { s with queue := rest } pc) : PoolInv { s.setWorker w pc with queue := rest } := by
  have hmem : ∀ j ∈ rest, j ∈ s.queue := fun j hj => hqueue ▸ List.mem_cons_of_mem job hj
  have hfifo := h.fifo
  rw [hqueue, List.pairwise_cons] at hfifo
  refine ⟨h.mark_le, ?_, fun round mark hj => h.marks round mark (hmem _ hj), hfifo.2, ?_, ?_, h.woken⟩
  · intro n hn
    rcases h.placed_update pc (by rw [hold]; simp) hn with hj | hplaced
    · rw [hqueue] at hj
      rcases List.mem_cons.mp hj with hhead | hrest
      · refine .inr (.inl ⟨w, ?_⟩)
        rw [← htask n hhead.symm]
        exact Function.update_self w pc s.worker
      · exact .inl hrest
    · exact .inr hplaced
  · refine (Function.forall_update_iff s.worker fun _ pc => WorkerOk { s with queue := rest } pc).mpr ⟨hok, ?_⟩
    exact fun v _ => (h.workers v).mono (fun _ _ hok => hok) (fun n _ hj => hmem _ hj) (fun _ hn => hn) id
  · exact h.count.trans (card_insiders_update (by rw [hold]; rfl) hnew).symm

theorem PoolInv.get (h : PoolInv s) (hstep : s.get w = some s') : PoolInv s' := by
  rw [ThreadPool.get] at hstep
  split at hstep
  · rename_i number rest hpc hqueue
    cases hstep
    exact h.take hqueue hpc rfl (fun n hn => by cases hn; rfl) trivial
  · rename_i round mark rest hpc hqueue
    cases hstep
    have hfifo := h.fifo
    rw [hqueue, List.pairwise_cons] at hfifo
    refine h.take hqueue hpc rfl (fun n hn => by cases hn) ⟨h.marks round mark (hqueue ▸ List.mem_cons_self), ?_⟩
    intro n hn hmem
    have hle := hfifo.1 _ hmem round mark n rfl rfl
    omega
  · cases hstep

theorem PoolInv.finish (h : PoolInv s) (hstep : s.finish w = some s') : PoolInv s' := by
  rw [ThreadPool.finish] at hstep
  split at hstep
  · rename_i number hpc
    cases hstep
    have hmono : ∀ n ∈ s.finished, n ∈ number :: s.finished := fun n => List.mem_cons_of_mem number
    refine ⟨h.mark_le, ?_, h.marks, h.fifo, ?_, ?_, fun hpast n hn => hmono n (h.woken hpast n hn)⟩
    · intro n hn
      rcases h.placed n hn with hj | ⟨v, hv⟩ | hfinished
      · exact .inl hj
      · by_cases hvw : v = w
        · rw [hvw, hpc] at hv
          cases hv
          exact .inr (.inr List.mem_cons_self)
        · exact .inr (.inl ⟨v, (Function.update_of_ne hvw _ s.worker).trans hv⟩)
      · exact .inr (.inr (hmono n hfinished))
    · refine (Function.forall_update_iff s.worker
        fun _ pc => WorkerOk { s with finished := number :: s.finished } pc).mpr ⟨trivial, ?_⟩
      exact fun v _ => (h.workers v).mono (fun _ _ hok => hok) (fun _ _ hj => hj) hmono id
    · exact h.count.trans (card_insiders_update (by rw [hpc]; rfl) rfl).symm
  · cases hstep

/-- Once all workers are inside of the barrier no task is executed, so a task that has left the queue
is done. -/
theorem PoolInv.finished_of_all_inside (h : PoolInv s) {round mark : Nat} (hpc : s.worker w = .arriving round mark)
    (hall : s.barrierCount + 1 = N) : ∀ n < s.enqueued, .task n ∉ s.queue → n ∈ s.finished := by
  intro n hn hqueue
  rcases h.placed n hn with hj | ⟨v, hv⟩ | hfinished
  · exact absurd hj hqueue
  · -- `v` and `w` are both outside of the barrier
    have hv' : v ∉ insiders s.worker := by
      rw [mem_insiders, hv]
      exact Bool.false_ne_true
    have hw' : w ∉ insiders s.worker := by
      rw [mem_insiders, hpc]
      exact Bool.false_ne_true
    have hvw : v ≠ w := by
      rintro rfl
      rw [hpc] at hv
      cases hv
    have hcard : (insert v (insert w (insiders s.worker))).card = (insiders s.worker).card + 2 := by
      rw [Finset.card_insert_of_notMem (by simp [hvw, hv']), Finset.card_insert_of_notMem hw']
    have hle := Finset.card_le_univ (insert v (insert w (insiders s.worker)))
    rw [hcard, Fintype.card_fin, ← h.count] at hle
    omega
  · exact hfinished

theorem PoolInv.enterBarrier (h : PoolInv s) (hstep : s.enterBarrier w = some s') : PoolInv s' := by
  rw [ThreadPool.enterBarrier] at hstep
  split at hstep
  · rename_i round mark hpc
    split_ifs at hstep with hdraining
    cases hstep
    have hown := h.workers w
    rw [hpc] at hown
    -- the last party to arrive finds the tasks of all parties done
    have hdone : s.barrierCount + 1 = N → ∀ mark', mark' ≤ s.enqueued → (∀ n < mark', .task n ∉ s.queue) →
        ∀ n < mark', n ∈ s.finished :=
      fun hall mark' hle hqueue n hn =>
        h.finished_of_all_inside hpc hall n (lt_of_lt_of_le hn hle) (hqueue n hn)
    have hplaced := fun n => h.placed_update (n := n) (.inBarrier round mark) (w := w) (by rw [hpc]; simp)
    refine ⟨h.mark_le, hplaced, h.marks, h.fifo, ?_, ?_, h.woken⟩
    · refine (Function.forall_update_iff s.worker fun _ pc => WorkerOk
        { s.setWorker w (.inBarrier round mark) with
          barrierCount := s.barrierCount + 1, draining := s.barrierCount + 1 = N } pc).mpr ⟨?_, ?_⟩
      · exact ⟨hown.1, hown.2, fun hall => hdone (of_decide_eq_true hall) mark hown.1.1 hown.2⟩
      · intro v _
        have hv := h.workers v
        cases hvpc : s.worker v with
        | inBarrier round' mark' =>
            rw [hvpc] at hv
            exact ⟨hv.1, hv.2.1, fun hall => hdone (of_decide_eq_true hall) mark' hv.1.1 hv.2.1⟩
        | _ =>
            rw [hvpc] at hv
            exact hv
    · have hw : w ∉ insiders s.worker := by
        rw [mem_insiders, hpc]
        exact Bool.false_ne_true
      show s.barrierCount + 1 = (insiders (Function.update s.worker w (.inBarrier round mark))).card
      rw [insiders_update, if_pos (by rfl), Finset.card_insert_of_notMem hw, h.count]
  · cases hstep

theorem PoolInv.leaveBarrier (h : PoolInv s) (hstep : s.leaveBarrier w = some s') : PoolInv s' := by
  rw [ThreadPool.leaveBarrier] at hstep
  split at hstep
  · rename_i round mark hpc
    split_ifs at hstep with hdraining
    cases hstep
    have hown := h.workers w
    rw [hpc] at hown
    have hplaced := fun n => h.placed_update (n := n) (.passed round mark) (w := w) (by rw [hpc]; simp)
    refine ⟨h.mark_le, hplaced, h.marks, h.fifo, ?_, ?_, h.woken⟩
    · refine (Function.forall_update_iff s.worker fun _ pc => WorkerOk
        { s.setWorker w (.passed round mark) with
          barrierCount := s.barrierCount - 1, draining := s.barrierCount - 1 ≠ 0 } pc).mpr ⟨?_, ?_⟩
      · exact ⟨hown.1, hown.2.2 hdraining⟩
      · exact fun v _ => (h.workers v).mono (fun _ _ hok => hok) (fun _ _ hj => hj) (fun _ hn => hn) fun _ => hdraining
    · have hw : w ∈ insiders s.worker := by
        rw [mem_insiders, hpc]
        rfl
      show s.barrierCount - 1 = (insiders (Function.update s.worker w (.passed round mark))).card
      rw [insiders_update, if_neg (by simp [WorkerPc.inside]), Finset.card_erase_of_mem hw, h.count]
  · cases hstep

theorem PoolInv.acquire (h : PoolInv s) (hstep : s.acquire w = some s') : PoolInv s' := by
  rw [ThreadPool.acquire] at hstep
  split at hstep
  · rename_i round mark hpc
    split_ifs at hstep
    cases hstep
    have hown := h.workers w
    rw [hpc] at hown
    exact h.setWorker true (by rw [hpc]; rfl) rfl (by rw [hpc]; simp) hown
  · cases hstep

/-- The notification is where the condition is needed. -/
theorem PoolInv.notifyAll (h : PoolInv s) (htimely : s.timely (.notifyAll w)) (hstep : s.notifyAll w = some s') :
    PoolInv s' := by
  rw [ThreadPool.notifyAll] at hstep
  split at hstep
  · rename_i round mark hpc
    cases hstep
    have hown := h.workers w
    rw [hpc] at hown
    have hset : PoolInv { s.setWorker w .notified with locked := s.locked } :=
      h.setWorker s.locked (by rw [hpc]; rfl) rfl (by rw [hpc]; simp) trivial
    apply hset.setDispatcher s.locked
    intro hpast
    split_ifs at hpast with hwaiting
    · have hround : round = s.round := by simpa [timely, hpc, hwaiting] using htimely
      have hmark := hown.1.2.2 hround
      exact hmark ▸ hown.2
    · exact h.woken hpast
  · cases hstep

theorem PoolInv.release (h : PoolInv s) (hstep : s.release w = some s') : PoolInv s' := by
  rw [ThreadPool.release] at hstep
  split_ifs at hstep with hpc
  cases hstep
  exact h.setWorker false (by rw [hpc]; rfl) rfl (by rw [hpc]; simp) trivial

theorem PoolInv.taskDone (h : PoolInv s) (hstep : s.taskDone w = some s') : PoolInv s' := by
  rw [ThreadPool.taskDone] at hstep
  split_ifs at hstep with hpc
  cases hstep
  exact h.setWorker s.locked (by rw [hpc]; rfl) rfl (by rw [hpc]; simp) trivial

/-! ### Runs -/

theorem PoolInv.step (h : PoolInv s) (a : Action N) (htimely : s.timely a) (hstep : s.step a = some s') : PoolInv s' := by
  cases a with
  | receive => exact h.receive hstep
  | putNone => exact h.putNone hstep
  | dispatcherAcquire => exact h.dispatcherAcquire hstep
  | wait => exact h.wait hstep
  | dispatcherRelease => exact h.dispatcherRelease hstep
  | reply => exact h.reply hstep
  | poll w => exact h.poll hstep
  | get w => exact h.get hstep
  | finish w => exact h.finish hstep
  | enterBarrier w => exact h.enterBarrier hstep
  | leaveBarrier w => exact h.leaveBarrier hstep
  | acquire w => exact h.acquire hstep
  | notifyAll w => exact h.notifyAll htimely hstep
  | release w => exact h.release hstep
  | taskDone w => exact h.taskDone hstep

/-- In every run all of whose notifications of the waiting dispatcher come from its own request, a
`Barrier` is answered only when all tasks put before it are done. -/
theorem safe_of_timely (N : Nat) (requests : List Request) (s : ThreadPool N)
    (h : Run ThreadPool.step (fun s a => s.timely a) (init N requests) s) : Safe s := by
  have hinv : PoolInv s := h.invariant (.init requests) fun t a u ht htimely hstep => ht.step a htimely hstep
  exact fun hreplying => hinv.woken (by rw [hreplying]; rfl)

/-- Both workers are at the barrier of the first request of the list. -/
def meetAtBarrier : List (Action 2) :=
  [.poll 0, .get 0, .enterBarrier 0, .poll 1, .get 1, .enterBarrier 1, .leaveBarrier 0, .leaveBarrier 1]

/-- The dispatcher takes a `Barrier` request and waits. -/
def requestBarrier : List (Action 2) := [.receive, .putNone, .putNone, .dispatcherAcquire, .wait]

/-- A worker notifies, and the dispatcher is about to reply. -/
def notifyDispatcher (w : Fin 2) : List (Action 2) :=
  [.acquire w, .notifyAll w, .release w, .dispatcherAcquire, .dispatcherRelease]

/-- A task is done before the workers meet, and the reply follows. -/
theorem safe_of_timely_one_task :
    ∃ s, Run ThreadPool.step (fun s a => s.timely a) (init 2 [.task, .barrier]) s ∧ s.dispatcher = .replying ∧
      s.mark = 1 ∧ ∀ n < s.mark, n ∈ s.finished := by
  obtain ⟨s, hs⟩ : ∃ s, runActions ThreadPool.step (fun s a => s.timely a) (init 2 [.task, .barrier])
      ([.receive] ++ requestBarrier ++ [.poll 0, .get 0, .finish 0, .taskDone 0] ++ meetAtBarrier ++
        notifyDispatcher 0) = some s := ⟨_, rfl⟩
  have hrun := Run.of_runActions hs
  cases hs
  exact ⟨_, hrun, rfl, rfl, safe_of_timely 2 [.task, .barrier] _ hrun rfl⟩

/-- The second worker is late: its notification of the first `Barrier` answers the second one, and the
task between them has not been started. -/
theorem safe_fails_late_notification :
    ∃ s, Run ThreadPool.step (fun _ _ => True) (init 2 [.barrier, .task, .barrier]) s ∧ ¬Safe s := by
  obtain ⟨s, hs⟩ : ∃ s, runActions ThreadPool.step (fun _ _ => True) (init 2 [.barrier, .task, .barrier])
      (requestBarrier ++ meetAtBarrier ++ notifyDispatcher 0 ++ [.reply, .receive] ++ requestBarrier ++
        notifyDispatcher 1) = some s := ⟨_, rfl⟩
  have hrun := Run.of_runActions hs
  cases hs
  exact ⟨_, hrun, fun hsafe => absurd (hsafe rfl 0 (by decide)) (by decide)⟩

end ThreadPool

end Witcher

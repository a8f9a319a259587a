import Witcher.CacheRefinement

/-! Whole runs of the replay cache. Any sequence of accepted operations and write-backs whose stores
are distinct objects succeeds, and the cache it reaches refines the memory reached by the
corresponding persistency events. -/

namespace Witcher

open Bytes Persistency WitcherCache

/-! ### Events of operations and commands -/

def Op.events : Op → List (Event Nat Store)
  | .store st => [.store st.line st]
  | .flush f => [.flush f.address]
  | .fence _ => [.fence]
  | _ => []

def eventsOf (ops : List Op) : List (Event Nat Store) := ops.flatMap Op.events

theorem eventsOf_append (front back : List Op) : eventsOf (front ++ back) = eventsOf front ++ eventsOf back :=
  List.flatMap_append

theorem eventsOf_cons (op : Op) (ops : List Op) : eventsOf (op :: ops) = op.events ++ eventsOf ops :=
  List.flatMap_cons

/-- Only a fence persists anything. -/
theorem Op.persisted_run {op : Op} (hop : ∀ b, op ≠ .fence b) (m : Memory Nat Store) (a : Nat) :
    (m.run op.events a).persisted = (m a).persisted := by
  cases op with
  | fence b => exact absurd rfl (hop b)
  | store st => exact m.persisted_step (e := .store st.line st) (by simp) (by simp) a
  | flush f => exact m.persisted_step (e := .flush f.address) (by simp) (by simp) a
  | _ => rfl

/-- What the replay needs of the stores. -/
theorem Op.Replayable.inLine {mapBase length : Nat} {op : Op} (h : op.Replayable mapBase length) :
    ∀ st ∈ storesOf [op], st.InLine ∧ st.Mapped mapBase length := by
  cases op with
  | store st =>
      intro s hs
      rw [List.mem_singleton.mp hs]
      exact ⟨h.1.inLine, h.2⟩
  | _ => simp [storesOf]

namespace WitcherCache.Command

def events : Command → List (Event Nat Store)
  | .accept op => op.events
  | .writeBackAllStores => [.drain]

def stores : Command → List Store
  | .accept op => storesOf [op]
  | .writeBackAllStores => []

def Replayable (mapBase length : Nat) : Command → Prop
  | .accept op => op.Replayable mapBase length
  | .writeBackAllStores => True

instance (mapBase length : Nat) : (cmd : Command) → Decidable (cmd.Replayable mapBase length)
  | .accept op => inferInstanceAs (Decidable (op.Replayable mapBase length))
  | .writeBackAllStores => .isTrue trivial

theorem Replayable.inLine {mapBase length : Nat} {cmd : Command} (h : cmd.Replayable mapBase length) :
    ∀ st ∈ cmd.stores, st.InLine ∧ st.Mapped mapBase length := by
  cases cmd with
  | accept op => exact Op.Replayable.inLine h
  | writeBackAllStores => simp [stores]

end WitcherCache.Command

/-- Every store a command sequence accepts, in program order. -/
def commandStores (cmds : List Command) : List Store := cmds.flatMap Command.stores

def commandEvents (cmds : List Command) : List (Event Nat Store) := cmds.flatMap Command.events

theorem commandStores_accept (ops : List Op) : commandStores (ops.map .accept) = storesOf ops := by
  induction ops with
  | nil => rfl
  | cons op ops ih =>
      rw [List.map_cons, commandStores, List.flatMap_cons, ← commandStores, ih, storesOf_cons]
      rfl

theorem commandStores_append (front back : List Command) :
    commandStores (front ++ back) = commandStores front ++ commandStores back :=
  List.flatMap_append

theorem commandEvents_append (front back : List Command) :
    commandEvents (front ++ back) = commandEvents front ++ commandEvents back :=
  List.flatMap_append

/-! ### Steps and runs -/

/-- Only a fence is answered with `True`. -/
theorem WitcherCache.accept_of_not_fence {c c' : WitcherCache} {op : Op} (hop : ∀ b, op ≠ .fence b)
    (h : c.acceptAndWriteBack op = .ok c') : c.accept op = .ok (false, c') := by
  obtain ⟨⟨isFence, c₁⟩, haccept, h⟩ := Loops.bind_ok h
  have hfalse : isFence = false := by
    cases op with
    | fence b => exact absurd rfl (hop b)
    | store st =>
        obtain ⟨_, _, haccept⟩ := Loops.bind_ok haccept
        cases haccept
        rfl
    | flush f =>
        obtain ⟨_, _, haccept⟩ := Loops.bind_ok haccept
        cases haccept
        rfl
    | _ =>
        cases haccept
        rfl
  subst hfalse
  cases h
  exact haccept

namespace Refines

variable {f₀ : BinaryFile} {hist : List Store} {m : Memory Nat Store} {c : WitcherCache}

/-- Accepting an operation, with the write-back of a fence. -/
theorem accept (h : Refines f₀ hist m c) (op : Op)
    (hop : ∀ st ∈ storesOf [op], st.InLine ∧ st.Mapped f₀.mapBase f₀.fileMap.length)
    (hfresh : ∀ st ∈ storesOf [op], ∀ s ∈ hist, s.id ≠ st.id) :
    ∃ c', c.acceptAndWriteBack op = .ok c' ∧ Refines f₀ (hist ++ storesOf [op]) (m.run op.events) c' := by
  cases op with
  | store st =>
      have hst := List.mem_singleton_self st
      obtain ⟨c', hc', href⟩ := h.acceptStore st (hop st hst).1 (hop st hst).2 (hfresh st hst)
      refine ⟨c', ?_, href⟩
      simp only [WitcherCache.acceptAndWriteBack, WitcherCache.accept, hc', Loops.ok_bind]
      rfl
  | flush f =>
      obtain ⟨c', hc', href⟩ := h.acceptFlush f
      refine ⟨c', ?_, by simpa [storesOf, Op.events] using href⟩
      simp only [WitcherCache.acceptAndWriteBack, WitcherCache.accept, hc', Loops.ok_bind]
      rfl
  | fence b =>
      obtain ⟨c', hc', href⟩ := h.writeBackAllFlushingStores
      exact ⟨c', hc', by simpa [storesOf, Op.events] using href⟩
  | txStart b => exact ⟨c, rfl, by simpa [storesOf, Op.events] using h⟩
  | txEnd b => exact ⟨c, rfl, by simpa [storesOf, Op.events] using h⟩
  | pmdkCall b => exact ⟨c, rfl, by simpa [storesOf, Op.events] using h⟩
  | pmdkTXAdd b => exact ⟨c, rfl, by simpa [storesOf, Op.events] using h⟩
  | pmdkTXAlloc b => exact ⟨c, rfl, by simpa [storesOf, Op.events] using h⟩

theorem acceptAndWriteBack (h : Refines f₀ hist m c) (op : Op)
    (hop : op.Replayable f₀.mapBase f₀.fileMap.length)
    (hfresh : ∀ st ∈ storesOf [op], ∀ s ∈ hist, s.id ≠ st.id) :
    ∃ c', c.acceptAndWriteBack op = .ok c' ∧ Refines f₀ (hist ++ storesOf [op]) (m.run op.events) c' :=
  h.accept op hop.inLine hfresh

theorem exec (h : Refines f₀ hist m c) (cmd : Command)
    (hcmd : ∀ st ∈ cmd.stores, st.InLine ∧ st.Mapped f₀.mapBase f₀.fileMap.length)
    (hfresh : ∀ st ∈ cmd.stores, ∀ s ∈ hist, s.id ≠ st.id) :
    ∃ c', c.exec cmd = .ok c' ∧ Refines f₀ (hist ++ cmd.stores) (m.run cmd.events) c' := by
  cases cmd with
  | accept op => exact h.accept op hcmd hfresh
  | writeBackAllStores =>
      obtain ⟨c', hc', href⟩ := h.writeBackAllStores
      exact ⟨c', hc', by simpa [Command.stores, Command.events] using href⟩

/-- A run of the cache refines the run of its events. -/
theorem execStores (h : Refines f₀ hist m c) (cmds : List Command)
    (hcmds : ∀ st ∈ commandStores cmds, st.InLine ∧ st.Mapped f₀.mapBase f₀.fileMap.length)
    (hnodup : ((hist ++ commandStores cmds).map (·.id)).Nodup) :
    ∃ c', c.execAll cmds = .ok c' ∧ Refines f₀ (hist ++ commandStores cmds) (m.run (commandEvents cmds)) c' := by
  refine Loops.foldlM_induction cmds c (by simpa [commandStores, commandEvents] using h) ?_
    (motive := fun done c' => Refines f₀ (hist ++ commandStores done) (m.run (commandEvents done)) c')
  intro done cmd rest c' hsplit hc'
  have hstores : ∀ st ∈ cmd.stores, st ∈ commandStores cmds := by
    intro st hst
    rw [hsplit, commandStores_append]
    exact List.mem_append_right _ (List.mem_append_left _ hst)
  obtain ⟨c'', hexec, href⟩ := hc'.exec cmd (fun st hst => hcmds st (hstores st hst)) (by
    intro st hst s hs hid
    rw [hsplit, commandStores_append, ← List.append_assoc, List.map_append, List.nodup_append] at hnodup
    refine hnodup.2.2 s.id (List.mem_map_of_mem hs) st.id (List.mem_map_of_mem ?_) hid
    rw [commandStores, List.flatMap_cons]
    exact List.mem_append_left _ hst)
  refine ⟨c'', hexec, ?_⟩
  rw [commandStores_append, commandEvents_append, Memory.run_append, ← List.append_assoc]
  simpa [commandStores, commandEvents] using href

theorem execAll (h : Refines f₀ hist m c) (cmds : List Command)
    (hcmds : ∀ cmd ∈ cmds, cmd.Replayable f₀.mapBase f₀.fileMap.length)
    (hnodup : ((hist ++ commandStores cmds).map (·.id)).Nodup) :
    ∃ c', c.execAll cmds = .ok c' ∧ Refines f₀ (hist ++ commandStores cmds) (m.run (commandEvents cmds)) c' := by
  apply h.execStores cmds _ hnodup
  intro st hst
  obtain ⟨cmd, hcmd, hst⟩ := List.mem_flatMap.mp hst
  exact (hcmds cmd hcmd).inLine st hst

/-! ### The file in program order -/

/-- The file is the initial one with the fenced stores applied in program order. -/
theorem file_eq_fenced (h : Refines f₀ hist m c) (i : Nat) :
    c.heap.binaryFile.fileMap[i]? =
      (lastWrite ((hist.filter c.heap.isFenced).map (Store.write f₀.mapBase)) i).or f₀.fileMap[i]? := by
  have hline : (hist.filter c.heap.isFenced).filter (fun st => st.line = (f₀.mapBase + i) / 64 * 64) =
      (m ((f₀.mapBase + i) / 64 * 64)).persisted := by
    rw [List.filter_filter]
    simp only [Bool.and_comm]
    rw [← List.filter_filter, ← h.stores, Line.stores, List.filter_append]
    have hpers : ∀ st ∈ (m ((f₀.mapBase + i) / 64 * 64)).persisted, c.heap.isFenced st = true :=
      fun st hst => by simp [Heap.isFenced, h.persisted _ st hst]
    have hpend : ∀ st ∈ (m ((f₀.mapBase + i) / 64 * 64)).pending, ¬c.heap.isFenced st = true :=
      fun st hst => by simp [Heap.isFenced, h.pending_not_fenced hst]
    rw [List.filter_eq_self.mpr hpers, List.filter_eq_nil_iff.mpr hpend, List.append_nil]
  rw [h.file i, ← hline, lastWrite_map_filter]
  intro st hst hne
  exact h.read_eq_none (List.mem_filter.mp hst).1 (by simpa using hne)

/-- With nothing pending every store is fenced. -/
theorem isFenced_of_pending_nil (h : Refines f₀ hist m c) (hpend : ∀ a, (m a).pending = []) {st : Store}
    (hst : st ∈ hist) : c.heap.isFenced st = true := by
  have hmem : st ∈ (m st.line).stores := h.mem_stores.mpr ⟨hst, rfl⟩
  rw [Line.stores, hpend, List.append_nil] at hmem
  simp [Heap.isFenced, h.persisted _ st hmem]

/-- With nothing pending, each byte of the file holds the last store to it in program order. -/
theorem file_eq_last (h : Refines f₀ hist m c) (hpend : ∀ a, (m a).pending = []) (i : Nat) :
    c.heap.binaryFile.fileMap[i]? = (lastWrite (hist.map (Store.write f₀.mapBase)) i).or f₀.fileMap[i]? := by
  rw [h.file_eq_fenced i, List.filter_eq_self.mpr fun st hst => h.isFenced_of_pending_nil hpend hst]

/-! ### The lines in program order -/

/-- A line holds some of the accepted stores, in program order. -/
theorem pending_sublist (h : Refines f₀ hist m c) (a : Nat) : (m a).pending.Sublist hist := by
  have hsub : (m a).pending.Sublist (m a).stores := List.sublist_append_right _ _
  rw [h.stores a] at hsub
  exact hsub.trans List.filter_sublist

/-- On a file nothing was written through before the run, the stores written are the fenced ones. -/
theorem fenced_iff_written (h : Refines f₀ hist m c) (hnew : f₀.written = []) {st : Store} (hst : st ∈ hist) :
    c.heap.isFenced st = true ↔ st.id ∈ c.heap.binaryFile.written := by
  rw [Heap.isFenced, decide_eq_true_eq, h.fenced_iff hst, h.written st.id, hnew]
  constructor
  · exact fun hmem => .inr ⟨st.line, st, hmem, rfl⟩
  · rintro (hmem | ⟨a, s, hs, hid⟩)
    · cases hmem
    · have hhist := h.mem_stores.mp (List.mem_append_left _ hs)
      rw [← h.eq_of_id hhist.1 hst hid, hhist.2]
      exact hs

end Refines

/-- Every line of the cache is in program order, flushing stores before clear ones, none fenced. -/
def WitcherCache.LinesOrdered (hist : List Store) (c : WitcherCache) : Prop :=
  ∀ a l, c.cachelineDict.get? a = some l →
    l.storesList.Sublist hist ∧
    (∃ flushing clear, l.storesList = flushing ++ clear ∧
      (∀ st ∈ flushing, c.heap.isFlushing st = true) ∧ ∀ st ∈ clear, c.heap.isClear st = true) ∧
    ∀ st ∈ l.storesList, c.heap.isFenced st = false

/-- No store object sits in two lines. -/
def WitcherCache.LinesDisjoint (c : WitcherCache) : Prop :=
  ∀ a b la lb, c.cachelineDict.get? a = some la → c.cachelineDict.get? b = some lb → a ≠ b →
    ∀ st ∈ la.storesList, ∀ st' ∈ lb.storesList, st.id ≠ st'.id

theorem Refines.linesOrdered {f₀ : BinaryFile} {hist : List Store} {m : Memory Nat Store} {c : WitcherCache}
    (h : Refines f₀ hist m c) : c.LinesOrdered hist := by
  intro a l hl
  rw [h.line a l hl]
  refine ⟨h.pending_sublist a, ⟨(m a).flushing, (m a).clear, rfl, ?_, ?_⟩, ?_⟩
  · intro st hst
    simp [Heap.isFlushing, h.flushing a st hst]
  · intro st hst
    simp [Heap.isClear, h.clear a st hst]
  · intro st hst
    simp [Heap.isFenced, h.pending_not_fenced hst]

theorem Refines.linesDisjoint {f₀ : BinaryFile} {hist : List Store} {m : Memory Nat Store} {c : WitcherCache}
    (h : Refines f₀ hist m c) : c.LinesDisjoint := by
  intro a b la lb hla hlb hab st hst st' hst'
  rw [h.line a la hla] at hst
  rw [h.line b lb hlb] at hst'
  exact h.pending_ids_ne hab hst hst'

/-- The invariant of the replay cache. Any sequence of operations and write-backs runs without a
failed assertion; the lines are ordered and disjoint; the fenced stores are those written; and once
everything is written back the file holds, byte by byte, the last store in program order. -/
theorem replay_invariant (mapBase : Nat) (bytes : List UInt8) (cmds : List Command)
    (hcmds : ∀ cmd ∈ cmds, cmd.Replayable mapBase bytes.length)
    (hnodup : ((commandStores cmds).map (·.id)).Nodup) :
    ∃ c, (WitcherCache.new (BinaryFile.new mapBase bytes)).execAll cmds = .ok c ∧
      c.LinesOrdered (commandStores cmds) ∧ c.LinesDisjoint ∧
      (∀ st ∈ commandStores cmds, c.heap.isFenced st = true ↔ st.id ∈ c.heap.binaryFile.written) ∧
      ∃ c', c.writeBackAllStores = .ok c' ∧ ∀ i : Nat, c'.heap.binaryFile.fileMap[i]? =
        (lastWrite ((commandStores cmds).map (Store.write mapBase)) i).or bytes[i]? := by
  obtain ⟨c, hrun, href⟩ := (Refines.new (BinaryFile.new mapBase bytes)).execAll cmds hcmds hnodup
  rw [List.nil_append] at href
  obtain ⟨c', hback, href'⟩ := href.writeBackAllStores
  refine ⟨c, hrun, href.linesOrdered, href.linesDisjoint, ?_, c', hback, ?_⟩
  · exact fun st hst => href.fenced_iff_written rfl hst
  · exact href'.file_eq_last fun a => Memory.pending_step_drain _ a

/-- Two stores to one line, the first flushed and fenced before the second. -/
def overwriteCommands : List Command :=
  [.accept (.store ⟨⟨0, 0, ""⟩, 64, 2, [1, 2]⟩), .accept (.flush ⟨⟨1, 0, ""⟩, 64⟩), .accept (.fence ⟨2, 0, ""⟩),
    .accept (.store ⟨⟨3, 0, ""⟩, 65, 1, [9]⟩)]

theorem replay_invariant_overwrite :
    ∃ c, (WitcherCache.new (BinaryFile.new 64 [0, 0, 0])).execAll overwriteCommands = .ok c ∧
      c.heap.binaryFile.fileMap = [1, 2, 0] ∧
      ∃ c', c.writeBackAllStores = .ok c' ∧ c'.heap.binaryFile.fileMap[0]? = some 1 ∧
        c'.heap.binaryFile.fileMap[1]? = some 9 ∧ c'.heap.binaryFile.fileMap[2]? = some 0 := by
  obtain ⟨c, hrun, _, _, _, c', hback, hfile⟩ := replay_invariant 64 [0, 0, 0] overwriteCommands
    (by decide) (by decide)
  refine ⟨c, hrun, ?_, c', hback, ?_, ?_, ?_⟩
  · cases hrun
    decide
  · rw [hfile]
    decide
  · rw [hfile]
    decide
  · rw [hfile]
    decide

end Witcher

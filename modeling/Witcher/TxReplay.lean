import Witcher.WitcherTxCache

/-! Program order in the transaction engine. The file gets the direct writes when they happen; a fence
writes all stores ever made outside of transactions once more. So after a fence a byte that such a store
covers holds the value of the last one of them, whatever was written to it directly in between. -/

namespace Witcher

open Bytes

/-! ### Writes to the file -/

/-- How a write reaches the file. -/
inductive Route where
  | buffered
  | direct
  deriving DecidableEq, Repr

/-- The writes of a run in program order. -/
abbrev WriteLog := List (Route × Write UInt8)

namespace WriteLog

def writes (log : WriteLog) : List (Write UInt8) := log.map Prod.snd

def bufferedWrites (log : WriteLog) : List (Write UInt8) := (log.filter fun e => e.1 = .buffered).map Prod.snd

theorem writes_append (log log' : WriteLog) : writes (log ++ log') = writes log ++ writes log' := List.map_append

theorem bufferedWrites_append (log log' : WriteLog) :
    bufferedWrites (log ++ log') = bufferedWrites log ++ bufferedWrites log' := by
  rw [bufferedWrites, List.filter_append, List.map_append]
  rfl

theorem bufferedWrites_direct (ws : List (Write UInt8)) : bufferedWrites (ws.map fun w => (.direct, w)) = [] := by
  induction ws with
  | nil => rfl
  | cons w ws ih => exact ih

theorem writes_direct (ws : List (Write UInt8)) : writes (ws.map fun w => (.direct, w)) = ws := by
  rw [writes, List.map_map]
  exact List.map_id' ws

/-- A byte with a buffered write has a last write. -/
theorem lastWrite_isSome {log : WriteLog} {i : Nat} (h : (lastWrite (bufferedWrites log) i).isSome) :
    (lastWrite (writes log) i).isSome := by
  induction log with
  | nil => exact h
  | cons e log ih =>
      obtain ⟨route, w⟩ := e
      rw [writes, List.map_cons, ← writes, lastWrite, Option.isSome_or]
      cases route with
      | direct => simp [ih h]
      | buffered =>
          have hcons : bufferedWrites ((.buffered, w) :: log) = w :: bufferedWrites log := rfl
          rw [hcons, lastWrite, Option.isSome_or, Bool.or_eq_true] at h
          rcases h with h | h
          · simp [ih h]
          · simp [h]

end WriteLog

open WriteLog

theorem sliceBound_le (n : Nat) (i : Int) : sliceBound n i ≤ n := by
  rw [sliceBound]
  split_ifs <;> omega

/-- The write of a store, by its place in the file. -/
def BinaryFile.storeWrite (f : BinaryFile) (st : Store) : Write UInt8 :=
  ⟨sliceBound f.fileMap.length ((st.address : Int) - f.mapBase), st.valueBytes⟩

def BinaryFile.flushWrite (f : BinaryFile) (flush : PMDKFlush) : Write UInt8 :=
  ⟨sliceBound f.fileMap.length flush.baseOff, flush.value⟩

/-- The file is another one of the same place and length. -/
structure BinaryFile.Same (f f' : BinaryFile) : Prop where
  mapBase : f'.mapBase = f.mapBase
  length : f'.fileMap.length = f.fileMap.length

theorem BinaryFile.Same.storeWrite {f f' : BinaryFile} (h : f.Same f') (st : Store) :
    f'.storeWrite st = f.storeWrite st := by
  rw [BinaryFile.storeWrite, BinaryFile.storeWrite, h.mapBase, h.length]

theorem BinaryFile.doStore_ok {f f' : BinaryFile} {st : Store} (h : f.doStore st = .ok f') :
    f.Same f' ∧ (f.storeWrite st).Fits f.fileMap.length ∧ f'.fileMap = applyWrites f.fileMap [f.storeWrite st] := by
  rw [BinaryFile.doStore] at h
  split_ifs at h with hlen
  cases h
  have hbase := sliceBound_le f.fileMap.length ((st.address : Int) - f.mapBase)
  have hmax := sliceBound_le f.fileMap.length ((st.address + st.size : Int) - f.mapBase)
  have hfits : (f.storeWrite st).Fits f.fileMap.length := by
    simp only [Write.Fits, BinaryFile.storeWrite]
    omega
  exact ⟨⟨rfl, length_patch _ _ _ hfits⟩, hfits, rfl⟩

theorem BinaryFile.doStoreDirect_ok {f f' : BinaryFile} {flush : PMDKFlush}
    (h : f.doStoreDirect flush.baseOff (flush.baseOff + flush.size) flush.value = .ok f') :
    f.Same f' ∧ (f.flushWrite flush).Fits f.fileMap.length ∧ f'.fileMap = applyWrites f.fileMap [f.flushWrite flush] := by
  simp only [BinaryFile.doStoreDirect] at h
  split_ifs at h with hlen
  cases h
  have hbase := sliceBound_le f.fileMap.length flush.baseOff
  have hmax := sliceBound_le f.fileMap.length (flush.baseOff + flush.size)
  have hfits : (f.flushWrite flush).Fits f.fileMap.length := by
    simp only [Write.Fits, BinaryFile.flushWrite]
    omega
  exact ⟨⟨rfl, length_patch _ _ _ hfits⟩, hfits, rfl⟩

/-- A loop of writes to the file, each of which is one write of the list. -/
theorem foldlM_writes {α : Type} {body : BinaryFile → α → Except ReplayError BinaryFile} (write : BinaryFile → α → Write UInt8)
    (hbody : ∀ f a f', body f a = .ok f' →
      f.Same f' ∧ (write f a).Fits f.fileMap.length ∧ f'.fileMap = applyWrites f.fileMap [write f a])
    (hwrite : ∀ f f' a, f.Same f' → write f' a = write f a) (l : List α) {f f' : BinaryFile}
    (h : l.foldlM body f = .ok f') :
    f.Same f' ∧ (∀ w ∈ l.map (write f), w.Fits f.fileMap.length) ∧ f'.fileMap = applyWrites f.fileMap (l.map (write f)) := by
  induction l generalizing f with
  | nil =>
      cases h
      exact ⟨⟨rfl, rfl⟩, by simp, rfl⟩
  | cons a l ih =>
      rw [List.foldlM_cons] at h
      obtain ⟨f₁, hstep, hrest⟩ := Loops.bind_ok h
      obtain ⟨hsame, hfits, hmap⟩ := hbody f a f₁ hstep
      obtain ⟨hsame', hfits', hmap'⟩ := ih hrest
      have hcongr : l.map (write f₁) = l.map (write f) := List.map_congr_left fun b _ => hwrite f f₁ b hsame
      rw [hcongr] at hfits' hmap'
      refine ⟨⟨hsame'.mapBase.trans hsame.mapBase, hsame'.length.trans hsame.length⟩, ?_, ?_⟩
      · rw [List.map_cons, List.forall_mem_cons]
        refine ⟨hfits, ?_⟩
        intro w hw
        rw [← hsame.length]
        exact hfits' w hw
      · rw [hmap', hmap, ← applyWrites_append]
        rfl

/-! ### Runs -/

namespace WitcherTxCache

def flushLog (c : WitcherTxCache) (funcName : String) : WriteLog :=
  match c.pmdkTraceHandler.getFlushList funcName with
  | .ok (flushList, _) => (flushList.map c.binaryFile.flushWrite).map fun w => (.direct, w)
  | .error _ => []

/-- The writes of an operation: its own bytes, or those its PMDK call flushed. -/
def opLog (c : WitcherTxCache) : Op → WriteLog
  | .store op => [(if c.pmdkTxStack = 0 then .buffered else .direct, c.binaryFile.storeWrite op)]
  | .pmdkTXAdd _ => c.flushLog "pmemobj_tx_add_range"
  | .pmdkTXAlloc _ => c.flushLog "pmemobj_tx_alloc"
  | .pmdkCall op => if op.funcName = "pmemobj_tx_begin" then [] else c.flushLog op.funcName
  | .flush _ | .fence _ | .txStart _ | .txEnd _ => []

def acceptLogged (s : WitcherTxCache × WriteLog) (op : Op) : Except ReplayError (WitcherTxCache × WriteLog) := do
  let c ← s.1.accept op
  .ok (c, s.2 ++ s.1.opLog op)

def run (f₀ : BinaryFile) (handler : PMDKTraceHandler) (ops : List Op) : Except ReplayError (WitcherTxCache × WriteLog) :=
  ops.foldlM acceptLogged (new f₀ handler, [])

/-- The cache and the writes so far, right after a fence of the run. -/
def AfterFence (f₀ : BinaryFile) (handler : PMDKTraceHandler) (ops : List Op) (c : WitcherTxCache) (log : WriteLog) : Prop :=
  ∃ done fence rest, ops = done ++ .fence fence :: rest ∧ run f₀ handler (done ++ [.fence fence]) = .ok (c, log)

/-- Each byte of the file holds the last write to it in program order, or what it held at first. -/
def ProgramOrder (f₀ : BinaryFile) (c : WitcherTxCache) (log : WriteLog) : Prop :=
  ∀ i, c.binaryFile.fileMap[i]? = (lastWrite (writes log) i).or f₀.fileMap[i]?

/-- The last write to a byte that was stored to outside of transactions has the value of the last such
store: it is that store, or a direct write of the same value. -/
def NotOvertaken (log : WriteLog) : Prop :=
  ∀ i u v, lastWrite (bufferedWrites log) i = some u → lastWrite (writes log) i = some v → v = u

/-! ### What the file holds -/

/-- The list is that of all stores made outside of transactions, and a byte that none of them covers is
as it should be. -/
structure TxInv (f₀ : BinaryFile) (c : WitcherTxCache) (log : WriteLog) : Prop where
  same : f₀.Same c.binaryFile
  buffered : bufferedWrites log = c.storeList.map f₀.storeWrite
  file : ∀ i, lastWrite (bufferedWrites log) i = none →
    c.binaryFile.fileMap[i]? = (lastWrite (writes log) i).or f₀.fileMap[i]?

variable {f₀ : BinaryFile} {handler : PMDKTraceHandler} {c c' : WitcherTxCache} {log : WriteLog}

theorem TxInv.new (f₀ : BinaryFile) (handler : PMDKTraceHandler) : TxInv f₀ (new f₀ handler) [] where
  same := ⟨rfl, rfl⟩
  buffered := rfl
  file _ _ := rfl

/-- Nothing is written. -/
theorem TxInv.idle (h : TxInv f₀ c log) (hfile : c'.binaryFile = c.binaryFile) (hlist : c'.storeList = c.storeList) :
    TxInv f₀ c' (log ++ []) := by
  rw [List.append_nil]
  exact ⟨hfile ▸ h.same, hlist ▸ h.buffered, hfile ▸ h.file⟩

theorem TxInv.direct (h : TxInv f₀ c log) (ws : List (Write UInt8)) (hsame : c.binaryFile.Same c'.binaryFile)
    (hfits : ∀ w ∈ ws, w.Fits c.binaryFile.fileMap.length)
    (hfile : c'.binaryFile.fileMap = applyWrites c.binaryFile.fileMap ws) (hlist : c'.storeList = c.storeList) :
    TxInv f₀ c' (log ++ ws.map fun w => (.direct, w)) := by
  have hbuffered : bufferedWrites (log ++ ws.map fun w => (.direct, w)) = bufferedWrites log := by
    rw [bufferedWrites_append, bufferedWrites_direct, List.append_nil]
  refine ⟨⟨hsame.mapBase.trans h.same.mapBase, hsame.length.trans h.same.length⟩, ?_, ?_⟩
  · rw [hbuffered, hlist]
    exact h.buffered
  · intro i hi
    rw [hbuffered] at hi
    rw [hfile, getElem?_applyWrites _ _ hfits, h.file i hi, writes_append, writes_direct, lastWrite_append,
      Option.or_assoc]

theorem TxInv.bufferedStore (h : TxInv f₀ c log) {st : Store} (hfile : c'.binaryFile = c.binaryFile)
    (hlist : c'.storeList = c.storeList ++ [st]) : TxInv f₀ c' (log ++ [(.buffered, c.binaryFile.storeWrite st)]) := by
  have hwrites : bufferedWrites (log ++ [(.buffered, c.binaryFile.storeWrite st)]) =
      bufferedWrites log ++ [c.binaryFile.storeWrite st] := bufferedWrites_append _ _
  refine ⟨hfile ▸ h.same, ?_, ?_⟩
  · rw [hwrites, h.buffered, hlist, List.map_append, h.same.storeWrite]
    rfl
  · intro i hi
    rw [hwrites, lastWrite_append, Option.or_eq_none_iff] at hi
    have hlast : lastWrite (writes [(Route.buffered, c.binaryFile.storeWrite st)]) i = none := hi.1
    rw [hfile, h.file i hi.2, writes_append, lastWrite_append, hlast, Option.none_or]

/-- A fence writes the buffered stores over the file. -/
theorem TxInv.fence_file (h : TxInv f₀ c log) (haccept : c.acceptFence = .ok c') (i : Nat) :
    c'.binaryFile.fileMap[i]? = (lastWrite (bufferedWrites log) i).or c.binaryFile.fileMap[i]? := by
  obtain ⟨_, _, haccept⟩ := Loops.bind_ok haccept
  obtain ⟨f', hloop, haccept⟩ := Loops.bind_ok haccept
  cases haccept
  obtain ⟨_, hfits, hfile⟩ := foldlM_writes BinaryFile.storeWrite
    (fun _ _ _ => BinaryFile.doStore_ok) (fun _ _ st hsame => hsame.storeWrite st) c.storeList hloop
  have hmap : c.storeList.map c.binaryFile.storeWrite = bufferedWrites log := by
    rw [h.buffered]
    exact List.map_congr_left fun st _ => h.same.storeWrite st
  rw [hmap] at hfits hfile
  show f'.fileMap[i]? = _
  rw [hfile, getElem?_applyWrites _ _ hfits]

theorem TxInv.fence (h : TxInv f₀ c log) (haccept : c.acceptFence = .ok c') : TxInv f₀ c' (log ++ []) := by
  have hfile := h.fence_file haccept
  obtain ⟨_, _, haccept⟩ := Loops.bind_ok haccept
  obtain ⟨f', hloop, haccept⟩ := Loops.bind_ok haccept
  cases haccept
  obtain ⟨hsame, _, _⟩ := foldlM_writes BinaryFile.storeWrite
    (fun _ _ _ => BinaryFile.doStore_ok) (fun _ _ st hsame => hsame.storeWrite st) c.storeList hloop
  rw [List.append_nil]
  refine ⟨⟨hsame.mapBase.trans h.same.mapBase, hsame.length.trans h.same.length⟩, h.buffered, ?_⟩
  intro i hi
  rw [hfile i, hi, Option.none_or]
  exact h.file i hi

theorem TxInv.handlerAccept (h : TxInv f₀ c log) {funcName : String} (haccept : c.handlerAccept funcName = .ok c') :
    TxInv f₀ c' (log ++ c.flushLog funcName) := by
  obtain ⟨⟨flushList, handler'⟩, hflush, haccept⟩ := Loops.bind_ok haccept
  obtain ⟨f', hloop, haccept⟩ := Loops.bind_ok haccept
  cases haccept
  rw [flushLog, hflush]
  obtain ⟨hsame, hfits, hfile⟩ := foldlM_writes BinaryFile.flushWrite
    (fun _ _ _ => BinaryFile.doStoreDirect_ok)
    (fun f f' flush hsame => by rw [BinaryFile.flushWrite, BinaryFile.flushWrite, hsame.length]) flushList hloop
  exact h.direct _ hsame hfits hfile rfl

/-- Every accepted operation keeps the invariant. -/
theorem TxInv.accept (h : TxInv f₀ c log) {op : Op} (haccept : c.accept op = .ok c') :
    TxInv f₀ c' (log ++ c.opLog op) := by
  cases op with
  | txStart b =>
      cases haccept
      exact h.idle rfl rfl
  | txEnd b =>
      cases haccept
      exact h.idle rfl rfl
  | flush f =>
      obtain ⟨_, _, haccept⟩ := Loops.bind_ok haccept
      cases haccept
      exact h.idle rfl rfl
  | fence b => exact h.fence haccept
  | pmdkTXAdd r => exact h.handlerAccept haccept
  | pmdkTXAlloc r => exact h.handlerAccept haccept
  | store st =>
      rw [opLog]
      simp only [WitcherTxCache.accept, acceptStore] at haccept
      split_ifs at haccept with hstack
      · cases haccept
        rw [if_pos hstack]
        exact h.bufferedStore rfl rfl
      · obtain ⟨f', hstore, haccept⟩ := Loops.bind_ok haccept
        cases haccept
        rw [if_neg hstack]
        obtain ⟨hsame, hfits, hfile⟩ := BinaryFile.doStore_ok hstore
        exact h.direct [c.binaryFile.storeWrite st] hsame (by simpa using hfits) hfile rfl
  | pmdkCall call =>
      rw [opLog]
      simp only [WitcherTxCache.accept, acceptCall] at haccept
      split_ifs at haccept with hbegin hend
      · cases haccept
        rw [if_pos hbegin]
        exact h.idle rfl rfl
      · obtain ⟨_, _, haccept⟩ := Loops.bind_ok haccept
        rw [if_neg hbegin]
        exact TxInv.handlerAccept (c := { c with pmdkTxStack := c.pmdkTxStack - 1 }) ⟨h.same, h.buffered, h.file⟩ haccept
      · rw [if_neg hbegin]
        exact h.handlerAccept haccept

theorem TxInv.run {ops : List Op} (hrun : WitcherTxCache.run f₀ handler ops = .ok (c, log)) : TxInv f₀ c log := by
  suffices h : ∀ (ops : List Op) (s : WitcherTxCache × WriteLog), TxInv f₀ s.1 s.2 → ∀ c log,
      ops.foldlM acceptLogged s = .ok (c, log) → TxInv f₀ c log from
    h ops _ (.new f₀ handler) c log hrun
  intro ops
  induction ops with
  | nil =>
      intro s hs c log hrun
      cases hrun
      exact hs
  | cons op ops ih =>
      intro s hs c log hrun
      rw [List.foldlM_cons] at hrun
      obtain ⟨s', hstep, hrun⟩ := Loops.bind_ok hrun
      obtain ⟨c', haccept, hstep⟩ := Loops.bind_ok hstep
      cases hstep
      exact ih _ (hs.accept haccept) c log hrun

/-! ### After a fence -/

theorem programOrder_iff (h : TxInv f₀ c log) (haccept : c.acceptFence = .ok c') :
    ProgramOrder f₀ c' log ↔ NotOvertaken log := by
  constructor
  · intro horder i u v hu hv
    have hi := horder i
    rw [h.fence_file haccept, hu, hv] at hi
    exact (Option.some.inj hi).symm
  · intro hnot i
    rw [h.fence_file haccept]
    cases hu : lastWrite (bufferedWrites log) i with
    | none =>
        rw [Option.none_or]
        exact h.file i hu
    | some u =>
        obtain ⟨v, hv⟩ := Option.isSome_iff_exists.mp (lastWrite_isSome (by rw [hu]; rfl))
        rw [hv, hnot i u v hu hv]
        rfl

/-- The file is in program order after every fence of a run exactly if at none of these fences the last
write to a byte is a direct write of another value than the last store outside of transactions. -/
theorem afterFence_programOrder_iff (f₀ : BinaryFile) (handler : PMDKTraceHandler) (ops : List Op) :
    (∀ c log, AfterFence f₀ handler ops c log → ProgramOrder f₀ c log) ↔
      ∀ c log, AfterFence f₀ handler ops c log → NotOvertaken log := by
  have hfence : ∀ c log, AfterFence f₀ handler ops c log → (ProgramOrder f₀ c log ↔ NotOvertaken log) := by
    rintro c log ⟨done, fence, rest, _, hrun⟩
    rw [WitcherTxCache.run, List.foldlM_append] at hrun
    obtain ⟨⟨c₁, log₁⟩, hdone, hrun⟩ := Loops.bind_ok hrun
    rw [List.foldlM_cons] at hrun
    obtain ⟨s, hstep, hrun⟩ := Loops.bind_ok hrun
    cases hrun
    obtain ⟨c₂, haccept, hstep⟩ := Loops.bind_ok hstep
    cases hstep
    simp only [opLog, List.append_nil]
    exact programOrder_iff (TxInv.run hdone) haccept
  constructor
  · exact fun h c log hafter => (hfence c log hafter).mp (h c log hafter)
  · exact fun h c log hafter => (hfence c log hafter).mpr (h c log hafter)

/-- The byte is stored to, and stored to again in a transaction that is committed. -/
def overtakenOps : List Op :=
  [.store ⟨⟨0, 0, ""⟩, 64, 1, [1]⟩, .fence ⟨1, 0, ""⟩, .pmdkCall ⟨⟨2, 0, ""⟩, "pmemobj_tx_begin", "start"⟩,
    .store ⟨⟨3, 0, ""⟩, 64, 1, [2]⟩, .pmdkCall ⟨⟨4, 0, ""⟩, "pmemobj_tx_end", "start"⟩, .fence ⟨5, 0, ""⟩]

def commitHandler : PMDKTraceHandler :=
  ⟨[.funcBegin "pmemobj_tx_commit", .funcEnd "pmemobj_tx_commit"], [], [], id⟩

/-- The second fence writes the old value of the first store over the committed one. -/
theorem programOrder_fails_after_commit :
    ∃ c log, AfterFence (.new 64 [0]) commitHandler overtakenOps c log ∧ ¬ProgramOrder (.new 64 [0]) c log := by
  obtain ⟨⟨c, log⟩, hrun⟩ : ∃ s, WitcherTxCache.run (.new 64 [0]) commitHandler overtakenOps = .ok s := ⟨_, rfl⟩
  refine ⟨c, log, ⟨overtakenOps.dropLast, ⟨5, 0, ""⟩, [], rfl, hrun⟩, ?_⟩
  cases hrun
  exact fun h => absurd (h 0) (by decide)

end WitcherTxCache

end Witcher

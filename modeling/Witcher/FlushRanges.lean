import Mathlib.Tactic.IntervalCases
import Witcher.CacheRuns
import Witcher.TraceRoundTrip

/-! Range flushes. The runtime records one flush for each cache line that a range touches, the pass moves the
flushes of the second mapping to the first, and the reader takes the address of a flush to the double nearest to
it. Followed by a fence, the flushes persist the pending stores of the lines of the range; they leave the other
lines alone exactly if none of these addresses is taken out of the range. -/

namespace Witcher

open Bytes Persistency TrueDivision TraceText WitcherCache

/-! ### Recording -/

/-- `CACHELINE_MASK` clears the offset in the line. -/
def getAlignedAddr64 (p : UInt64) : UInt64 := p &&& ~~~63

/-- The entry of a flush, which is recorded with the address as it is. -/
def recordFlush (id : UInt32) (tid ptr : UInt64) : Entry := ⟨.flType, id, tid, ptr, 0⟩

/-- The loop of `recordFlushWrapper`; `none` if it is still running when the fuel is used up. -/
def recordFlushLines (id : UInt32) (tid bound : UInt64) : Nat → UInt64 → Option (List Entry)
  | 0, _ => none
  | fuel + 1, ptrAligned =>
      if ptrAligned < bound then (recordFlushLines id tid bound fuel (ptrAligned + 64)).map (recordFlush id tid ptrAligned :: ·)
      else some []

/-- The entries of one call while the runtime is recording. A range of `length` bytes touches at most
`length / 64 + 2` lines. -/
def recordFlushWrapper (id : UInt32) (tid ptr length : UInt64) : Option (List Entry) :=
  recordFlushLines id tid (ptr + length) (length.toNat / 64 + 3) (getAlignedAddr64 ptr)

theorem toNat_getAlignedAddr64 (p : UInt64) : (getAlignedAddr64 p).toNat = p.toNat / 64 * 64 := by
  have hshift : p.toBitVec &&& ~~~(63#64) = (p.toBitVec >>> 6) <<< 6 := by
    ext i hi
    simp only [BitVec.getElem_and, BitVec.getElem_not, BitVec.getElem_shiftLeft, BitVec.getElem_ushiftRight]
    by_cases hoffset : i < 6
    · interval_cases i <;> simp
    · have hbit : (63#64)[i] = false := by
        rw [BitVec.getElem_eq_testBit_toNat]
        exact Nat.testBit_lt_two_pow (lt_of_lt_of_le (by decide : 63 < 2 ^ 6) (Nat.pow_le_pow_right (by decide) (by omega)))
      rw [hbit]
      simp only [hoffset, Bool.not_false, Bool.and_true, decide_false, Bool.true_and]
      rw [Nat.add_sub_cancel' (by omega), BitVec.getLsbD_eq_getElem hi]
  have hlt := p.toBitVec.isLt
  show (p.toBitVec &&& ~~~(63#64)).toNat = _
  rw [hshift, BitVec.toNat_shiftLeft, BitVec.toNat_ushiftRight, Nat.shiftLeft_eq, Nat.shiftRight_eq_div_pow, Nat.mod_eq_of_lt]
  · rfl
  · omega

/-- The loop records the lines from its start to its bound. -/
theorem recordFlushLines_spec (id : UInt32) (tid : UInt64) {bound : UInt64} (hbound : bound.toNat + 64 ≤ 2 ^ 64) (fuel : Nat)
    {p : UInt64} (haligned : 64 ∣ p.toNat) (hp : p.toNat < bound.toNat + 64) (hfuel : bound.toNat + 64 ≤ p.toNat + 64 * fuel) :
    ∃ entries, recordFlushLines id tid bound fuel p = some entries ∧ (∀ e ∈ entries, e = recordFlush id tid e.address) ∧
      ∀ a, a ∈ entries.map (·.address.toNat) ↔ 64 ∣ a ∧ p.toNat ≤ a ∧ a < bound.toNat := by
  induction fuel generalizing p with
  | zero => omega
  | succ fuel ih =>
      rw [recordFlushLines]
      by_cases hlt : p < bound
      · have hlt' : p.toNat < bound.toNat := UInt64.lt_iff_toNat_lt.mp hlt
        have hnext : (p + 64).toNat = p.toNat + 64 := by
          rw [UInt64.toNat_add]
          exact Nat.mod_eq_of_lt (lt_of_lt_of_le (Nat.add_lt_add_right hlt' 64) hbound)
        obtain ⟨entries, hrun, hentries, hmem⟩ := ih (p := p + 64) (by omega) (by omega) (by omega)
        rw [if_pos hlt, hrun]
        refine ⟨recordFlush id tid p :: entries, rfl, List.forall_mem_cons.mpr ⟨rfl, hentries⟩, ?_⟩
        intro a
        rw [List.map_cons, List.mem_cons, hmem, hnext]
        simp only [recordFlush]
        omega
      · rw [if_neg hlt]
        have hge : bound.toNat ≤ p.toNat := UInt64.le_iff_toNat_le.mp (UInt64.not_lt.mp hlt)
        refine ⟨[], rfl, by simp, ?_⟩
        intro a
        simp only [List.map_nil, List.not_mem_nil, false_iff]
        omega

/-- The lines of a range that does not reach into the last line of the address space. -/
theorem recordFlushWrapper_spec (id : UInt32) (tid : UInt64) {ptr length : UInt64} (hlength : 0 < length.toNat)
    (htop : ptr.toNat + length.toNat + 64 ≤ 2 ^ 64) :
    ∃ entries, recordFlushWrapper id tid ptr length = some entries ∧ (∀ e ∈ entries, e = recordFlush id tid e.address) ∧
      ∀ a, a ∈ entries.map (·.address.toNat) ↔ 64 ∣ a ∧ a < ptr.toNat + length.toNat ∧ ptr.toNat < a + 64 := by
  have hbound : (ptr + length).toNat = ptr.toNat + length.toNat := by
    rw [UInt64.toNat_add]
    exact Nat.mod_eq_of_lt (by omega)
  have haligned := toNat_getAlignedAddr64 ptr
  have htop' : (ptr + length).toNat + 64 ≤ 2 ^ 64 := by omega
  obtain ⟨entries, hrun, hentries, hmem⟩ := recordFlushLines_spec id tid htop' (length.toNat / 64 + 3)
    (p := getAlignedAddr64 ptr) (by omega) (by omega) (by omega)
  refine ⟨entries, hrun, hentries, ?_⟩
  intro a
  rw [hmem, haligned, hbound]
  omega

/-! ### The persistent region -/

/-- The region and its second mapping start on page boundaries, the second mapping is no larger than the region
and apart from it, and neither of them reaches into the last page of the address space. -/
structure Mappings.Paged (m : Mappings) : Prop where
  start : 4096 ∣ m.pmAddrStart.toNat
  startDup : 4096 ∣ m.pmAddrStartDup.toNat
  stop : m.pmAddrEnd.toNat + 4096 ≤ 2 ^ 64
  stopDup : m.pmAddrEndDup.toNat + 4096 ≤ 2 ^ 64
  size : m.pmAddrEndDup.toNat - m.pmAddrStartDup.toNat ≤ m.pmAddrEnd.toNat - m.pmAddrStart.toNat
  disjoint : m.pmAddrEndDup.toNat ≤ m.pmAddrStart.toNat ∨ m.pmAddrEnd.toNat ≤ m.pmAddrStartDup.toNat

/-- The range lies in the region at `low`, or in the second mapping at the bytes that the region has at `low`. -/
structure PersistentRange (m : Mappings) (ptr length : UInt64) (low : Nat) : Prop where
  length_pos : 0 < length.toNat
  inside : (low = ptr.toNat ∧ m.pmAddrStart.toNat ≤ ptr.toNat ∧ ptr.toNat + length.toNat ≤ m.pmAddrEnd.toNat) ∨
    (low + m.pmAddrStartDup.toNat = ptr.toNat + m.pmAddrStart.toNat ∧ m.pmAddrStartDup.toNat ≤ ptr.toNat ∧
      ptr.toNat + length.toNat ≤ m.pmAddrEndDup.toNat)

/-- The line at `a` has a byte in the range. -/
def Touches (low length a : Nat) : Prop := a < low + length ∧ low < a + 64

instance (low length a : Nat) : Decidable (Touches low length a) := inferInstanceAs (Decidable (_ ∧ _))

section Region

variable {m : Mappings} {ptr length : UInt64} {low : Nat}

theorem PersistentRange.top (hm : m.Paged) (h : PersistentRange m ptr length low) :
    ptr.toNat + length.toNat + 64 ≤ 2 ^ 64 := by
  have := hm.stop
  have := hm.stopDup
  rcases h.inside with ⟨-, -, hin⟩ | ⟨-, -, hin⟩ <;> omega

theorem Mappings.inDup_iff (m : Mappings) (p : UInt64) :
    m.inDup p = true ↔ m.pmAddrStartDup.toNat ≤ p.toNat ∧ p.toNat < m.pmAddrEndDup.toNat := by
  rw [Mappings.inDup, Bool.and_eq_true, decide_eq_true_eq, decide_eq_true_eq, ge_iff_le, UInt64.le_iff_toNat_le,
    UInt64.lt_iff_toNat_lt]

theorem Mappings.isPmAddr_iff (m : Mappings) (p : UInt64) :
    m.isPmAddr p = true ↔ (m.pmAddrStart.toNat ≤ p.toNat ∧ p.toNat < m.pmAddrEnd.toNat) ∨ m.inDup p = true := by
  rw [Mappings.isPmAddr, Bool.or_eq_true, Bool.and_eq_true, decide_eq_true_eq, decide_eq_true_eq, ge_iff_le,
    UInt64.le_iff_toNat_le, UInt64.lt_iff_toNat_lt]

/-- The flushes of a range pass the filter, and they are moved by the distance of the range. -/
theorem PersistentRange.remap (hm : m.Paged) (h : PersistentRange m ptr length low) {p : UInt64} (haligned : 64 ∣ p.toNat)
    (htouches : Touches ptr.toNat length.toNat p.toNat) :
    m.isPmAddr p = true ∧ (m.remap p).toNat + ptr.toNat = p.toNat + low := by
  have hstart := hm.start
  have hstartDup := hm.startDup
  have hstop := hm.stop
  have hsize := hm.size
  obtain ⟨hhigh, hlow⟩ := htouches
  rcases h.inside with ⟨rfl, hge, hle⟩ | ⟨hmoved, hge, hle⟩
  · have hnot : ¬m.inDup p = true := by
      rw [Mappings.inDup_iff]
      have := hm.disjoint
      omega
    refine ⟨(m.isPmAddr_iff p).mpr (.inl ⟨by omega, by omega⟩), ?_⟩
    rw [Mappings.remap, if_neg hnot]
  · have hin : m.inDup p = true := (m.inDup_iff p).mpr ⟨by omega, by omega⟩
    refine ⟨(m.isPmAddr_iff p).mpr (.inr hin), ?_⟩
    have hsub : (p - m.pmAddrStartDup).toNat = p.toNat - m.pmAddrStartDup.toNat :=
      UInt64.toNat_sub_of_le _ _ (UInt64.le_iff_toNat_le.mpr (by omega))
    rw [Mappings.remap, if_pos hin, UInt64.toNat_add, hsub, Nat.mod_eq_of_lt]
    · omega
    · omega

end Region

/-! ### Reached caches -/

/-- A cache that commands have led to without an exception. The stores are those of a trace: no two have the same
id, none is empty, and they lie in the mapped file. -/
structure WitcherCache.ReachedBy (f₀ : BinaryFile) (cmds : List Command) (c : WitcherCache) : Prop where
  run : (WitcherCache.new f₀).execAll cmds = .ok c
  nodup : ((commandStores cmds).map (·.id)).Nodup
  size_pos : ∀ st ∈ commandStores cmds, 0 < st.size
  mapped : ∀ st ∈ commandStores cmds, st.Mapped f₀.mapBase f₀.fileMap.length

section Reached

variable {f₀ : BinaryFile} {hist : List Store} {m : Memory Nat Store} {c c' : WitcherCache}

/-- A line that takes a store is the line of all its bytes, however far the address was rounded. -/
theorem Refines.inLine_of_accept (h : Refines f₀ hist m c) {st : Store} (hsize : 0 < st.size)
    (hrun : c.acceptAndWriteBack (.store st) = .ok c') : st.InLine := by
  obtain ⟨⟨_, c₁⟩, haccept, -⟩ := Loops.bind_ok hrun
  obtain ⟨c₂, haccept, -⟩ := Loops.bind_ok haccept
  obtain ⟨d, hline, -, -⟩ := h.getCacheline st.address
  rw [WitcherCache.acceptStore, hline] at haccept
  obtain ⟨l, haccept, -⟩ := Loops.bind_ok haccept
  obtain ⟨_, hassert, -⟩ := Loops.bind_ok haccept
  have hcan := assert_ok hassert
  rw [WitcherCacheline.canAcceptStoreOp, Bool.and_eq_true] at hcan
  have hlow : getCachelineAddress st.address ≤ st.address := of_decide_eq_true hcan.1
  have hhigh : st.address + st.size ≤ getCachelineAddress st.address + 64 := of_decide_eq_true hcan.2
  have hdvd := dvd_getCachelineAddress st.address
  have heq : st.line = st.address / 64 * 64 := by
    rw [Store.line]
    omega
  refine ⟨heq, ?_⟩
  rw [← heq]
  exact hhigh

theorem Refines.exec_of_ok (h : Refines f₀ hist m c) {cmd : Command} (hrun : c.exec cmd = .ok c')
    (hsize : ∀ st ∈ cmd.stores, 0 < st.size) (hmapped : ∀ st ∈ cmd.stores, st.Mapped f₀.mapBase f₀.fileMap.length)
    (hfresh : ∀ st ∈ cmd.stores, ∀ s ∈ hist, s.id ≠ st.id) : Refines f₀ (hist ++ cmd.stores) (m.run cmd.events) c' := by
  have hinLine : ∀ st ∈ cmd.stores, st.InLine := by
    intro st hst
    cases cmd with
    | writeBackAllStores => cases hst
    | accept op =>
        cases op with
        | store st' =>
            rw [List.mem_singleton.mp hst]
            exact h.inLine_of_accept (hsize st' (List.mem_singleton_self st')) hrun
        | _ => cases hst
  obtain ⟨c₁, hrun₁, href⟩ := h.exec cmd (fun st hst => ⟨hinLine st hst, hmapped st hst⟩) hfresh
  rw [hrun] at hrun₁
  cases hrun₁
  exact href

/-- A reached cache refines the memory its commands lead to. -/
theorem WitcherCache.ReachedBy.refines {cmds : List Command} (h : ReachedBy f₀ cmds c) :
    Refines f₀ (commandStores cmds) (Memory.empty.run (commandEvents cmds)) c := by
  refine Loops.foldlM_ok_induction
    (motive := fun done c => Refines f₀ (commandStores done) (Memory.empty.run (commandEvents done)) c)
    h.run (Refines.new f₀) ?_
  intro done cmd rest c c' hsplit hc hstep
  have hmem : ∀ st ∈ cmd.stores, st ∈ commandStores cmds := by
    intro st hst
    rw [hsplit, commandStores_append]
    exact List.mem_append_right _ (List.mem_append_left _ hst)
  have href := hc.exec_of_ok hstep (fun st hst => h.size_pos st (hmem st hst)) (fun st hst => h.mapped st (hmem st hst)) (by
    intro st hst s hs hid
    have hnodup := h.nodup
    rw [hsplit, commandStores_append, List.map_append, List.nodup_append] at hnodup
    exact hnodup.2.2 s.id (List.mem_map_of_mem hs) st.id (List.mem_map_of_mem (List.mem_append_left _ hst)) hid)
  rw [commandStores_append, commandEvents_append, Memory.run_append]
  simpa [commandStores, commandEvents] using href

/-! ### Flushes and a fence -/

/-- The pending stores of the lines of the range are fenced and written, and the other lines keep their stores that
were not to be written back, as they were and in order. -/
structure PersistsExactly (low length : Nat) (c c' : WitcherCache) : Prop where
  fenced : ∀ a, ∀ st ∈ c.pending a, Touches low length (st.address / 64 * 64) →
    c'.heap.isFenced st = true ∧ st.id ∈ c'.heap.binaryFile.written
  file : ∀ i a, a = (c.heap.binaryFile.mapBase + i) / 64 * 64 → Touches low length a → c'.heap.binaryFile.fileMap[i]? =
    (lastWrite ((c.pending a).map (Store.write c.heap.binaryFile.mapBase)) i).or c.heap.binaryFile.fileMap[i]?
  state : ∀ a, ∀ st ∈ c.pending a, ¬Touches low length (st.address / 64 * 64) → c.heap.isFlushing st = false →
    c'.heap.flushed st.id = c.heap.flushed st.id
  order : ∀ a, ¬Touches low length a → c'.pending a = (c.pending a).filter fun st => !c.heap.isFlushing st

theorem Refines.filter_pending (h : Refines f₀ hist m c) (a : Nat) :
    ((m a).pending.filter fun st => !c.heap.isFlushing st) = (m a).clear := by
  have hflushing : ∀ st ∈ (m a).flushing, ¬(!c.heap.isFlushing st) = true := by
    intro st hst
    simp [Heap.isFlushing, h.flushing a st hst]
  have hclear : ∀ st ∈ (m a).clear, (!c.heap.isFlushing st) = true := by
    intro st hst
    simp [Heap.isFlushing, h.clear a st hst]
  rw [Line.pending, List.filter_append, List.filter_eq_nil_iff.mpr hflushing, List.filter_eq_self.mpr hclear, List.nil_append]

/-- Flushing lines of the range, among them every line that has stores. -/
theorem persistsExactly_of_lines {low length : Nat} {lines : List Nat} (h : Refines f₀ hist m c)
    (h' : Refines f₀ hist (m.run (lines.map .flush ++ [.fence])) c') (hlines : ∀ a ∈ lines, Touches low length a)
    (hstores : ∀ st ∈ hist, Touches low length st.line → st.line ∈ lines) : PersistsExactly low length c c' := by
  have hinLine : ∀ a, ∀ st ∈ (m a).pending, st ∈ hist ∧ st.line = a ∧ st.address / 64 * 64 = a := by
    intro a st hst
    obtain ⟨hhist, hline⟩ := h.pending_hist hst
    exact ⟨hhist, hline, (h.inLine st hhist).line_eq.symm.trans hline⟩
  have hline := m.run_flushes_fence lines
  constructor
  · intro a st hst htouches
    rw [h.pending_eq] at hst
    obtain ⟨hhist, hst_line, haddress⟩ := hinLine a st hst
    rw [haddress] at htouches
    have ha : a ∈ lines := hst_line ▸ hstores st hhist (hst_line ▸ htouches)
    have hpersisted : st ∈ (m.run (lines.map .flush ++ [.fence]) a).persisted := by
      rw [hline, if_pos ha]
      exact List.mem_append_right _ hst
    refine ⟨?_, (h'.written st.id).mpr (.inr ⟨a, st, hpersisted, rfl⟩)⟩
    rw [Heap.isFenced, decide_eq_true_eq]
    exact h'.persisted a st hpersisted
  · intro i a ha htouches
    rw [h.mapBase] at ha ⊢
    rw [h'.file i, h.file i, h.pending_eq, ← ha, hline]
    by_cases hmem : a ∈ lines
    · rw [if_pos hmem, Line.stores, List.map_append, lastWrite_append, Option.or_assoc]
    · -- a line of the range that is not flushed has no stores
      have hnone : (m a).pending = [] := by
        apply List.eq_nil_iff_forall_not_mem.mpr
        intro st hst
        obtain ⟨hhist, hst_line, -⟩ := hinLine a st hst
        exact hmem (hst_line ▸ hstores st hhist (hst_line ▸ htouches))
      rw [if_neg hmem, hnone, (List.append_eq_nil_iff.mp hnone).1, List.append_nil, List.map_nil, lastWrite, Option.none_or]
  · intro a st hst htouches hflushing
    rw [h.pending_eq] at hst
    obtain ⟨-, -, haddress⟩ := hinLine a st hst
    rw [haddress] at htouches
    have ha : a ∉ lines := fun hmem => htouches (hlines a hmem)
    have hclear : st ∈ (m a).clear := by
      rw [← h.filter_pending a]
      exact List.mem_filter.mpr ⟨hst, by simp [hflushing]⟩
    have hclear' : st ∈ (m.run (lines.map .flush ++ [.fence]) a).clear := by
      rw [hline, if_neg ha]
      exact hclear
    rw [h'.clear a st hclear', h.clear a st hclear]
  · intro a htouches
    have ha : a ∉ lines := fun hmem => htouches (hlines a hmem)
    rw [h'.pending_eq, h.pending_eq, h.filter_pending, hline, if_neg ha]
    rfl

end Reached

/-! ### From the call to the cache -/

/-- The operation that the reader makes of a flush record. -/
def Parses (r : PMRecord) (f : Flush) : Prop := parsedBody r.op = .flush f.addressNotAligned f.address

/-- The entries of the call, as the pass reads them, become flushes that, replayed on any reached cache and followed
by a fence, persist exactly the lines of the range. -/
def FlushesExactly (I : PMTraceInput) (m : Mappings) (id : UInt32) (tid ptr length : UInt64) (low : Nat) : Prop :=
  ∃ entries, recordFlushWrapper id tid ptr length = some entries ∧
    ∀ reads : List ReadEntry, reads.map (·.toEntry) = entries → ∃ records, I.retained m reads = .ok records ∧
      ∀ f₀ cmds c, ReachedBy f₀ cmds c → ∀ flushes b, List.Forall₂ Parses records flushes →
        ∃ c', c.execAll (flushes.map (fun f => .accept (.flush f)) ++ [.accept (.fence b)]) = .ok c' ∧
          PersistsExactly low length.toNat c c'

section Call

variable {I : PMTraceInput} {m : Mappings} {id : UInt32} {tid ptr length : UInt64} {low : Nat}

/-- Flushes of persistent addresses are all retained. -/
theorem retained_flushes (I : PMTraceInput) {m : Mappings} {reads : List ReadEntry} (htype : ∀ e ∈ reads, e.type = .flType)
    (hpm : ∀ e ∈ reads, m.isPmAddr e.address = true) :
    I.retained m reads = .ok (reads.map fun e => I.record e.toEntry (.flush (m.remap e.address))) := by
  induction reads with
  | nil => rfl
  | cons e reads ih =>
      obtain ⟨htype, htypes⟩ := List.forall_mem_cons.mp htype
      obtain ⟨hpm, hpms⟩ := List.forall_mem_cons.mp hpm
      have hretain : I.retain m e = .ok (m, some (I.record e.toEntry (.flush (m.remap e.address)))) := by
        unfold PMTraceInput.retain
        simp only [htype, if_pos hpm]
      have hend : e.isEnd = false := by simp [Entry.isEnd, htype]
      rw [PMTraceInput.retained, hretain, Loops.ok_bind]
      simp only [hend, Bool.false_eq_true, if_false, ih htypes hpms, Loops.ok_bind]
      rfl

theorem addressNotAligned_of_parses {reads : List ReadEntry} {flushes : List Flush}
    (h : List.Forall₂ Parses (reads.map fun e => I.record e.toEntry (.flush (m.remap e.address))) flushes) :
    flushes.map (·.addressNotAligned) = reads.map fun e => (m.remap e.address).toNat := by
  induction reads generalizing flushes with
  | nil =>
      cases h
      rfl
  | cons e reads ih =>
      obtain _ | ⟨hparse, hrest⟩ := h
      rw [List.map_cons, List.map_cons, ih hrest]
      have haddress : ((m.remap e.address).toNat : Int) = _ := (OpBody.flush.inj hparse).1
      rw [Int.ofNat_inj.mp haddress]

theorem exists_parses (I : PMTraceInput) (m : Mappings) (reads : List ReadEntry) :
    ∃ flushes, List.Forall₂ Parses (reads.map fun e => I.record e.toEntry (.flush (m.remap e.address))) flushes := by
  induction reads with
  | nil => exact ⟨[], .nil⟩
  | cons e reads ih =>
      obtain ⟨flushes, hflushes⟩ := ih
      refine ⟨⟨⟨0, 0, ""⟩, (m.remap e.address).toNat⟩ :: flushes, .cons ?_ hflushes⟩
      rw [Parses, Flush.address, getCachelineAddress_nearest]
      rfl

/-- A flush entry is read without a value. -/
theorem exists_reads {entries : List Entry} (h : ∀ e ∈ entries, e = recordFlush id tid e.address) :
    ∃ reads : List ReadEntry, reads.map (·.toEntry) = entries := by
  induction entries with
  | nil => exact ⟨[], rfl⟩
  | cons e entries ih =>
      obtain ⟨he, hentries⟩ := List.forall_mem_cons.mp h
      obtain ⟨reads, hreads⟩ := ih hentries
      have htype : e.type = .flType := by rw [he, recordFlush]
      refine ⟨⟨e, [], fun hst => ?_⟩ :: reads, by rw [List.map_cons, hreads]⟩
      rw [htype] at hst
      cases hst

/-- The flushes that are read have the lines of the range as addresses. -/
theorem flushes_lines (I : PMTraceInput) (hm : m.Paged) (hrange : PersistentRange m ptr length low) (id : UInt32)
    (tid : UInt64) :
    ∃ entries, recordFlushWrapper id tid ptr length = some entries ∧
      (∃ reads : List ReadEntry, reads.map (·.toEntry) = entries) ∧
      ∀ reads : List ReadEntry, reads.map (·.toEntry) = entries →
        ∃ records, I.retained m reads = .ok records ∧ (∃ flushes, List.Forall₂ Parses records flushes) ∧
          ∀ flushes, List.Forall₂ Parses records flushes →
            ∀ a, a ∈ flushes.map (·.addressNotAligned) ↔ 64 ∣ a ∧ Touches low length.toNat a := by
  obtain ⟨entries, hrun, hentries, hmem⟩ := recordFlushWrapper_spec id tid hrange.length_pos (hrange.top hm)
  refine ⟨entries, hrun, exists_reads hentries, ?_⟩
  intro reads hreads
  have hentry : ∀ e ∈ reads, e.toEntry ∈ entries := fun e he => hreads ▸ List.mem_map_of_mem he
  have haligned : ∀ e ∈ reads, 64 ∣ e.address.toNat ∧ Touches ptr.toNat length.toNat e.address.toNat :=
    fun e he => (hmem _).mp (List.mem_map_of_mem (hentry e he))
  have hremap : ∀ e ∈ reads, m.isPmAddr e.address = true ∧ (m.remap e.address).toNat + ptr.toNat = e.address.toNat + low :=
    fun e he => hrange.remap hm (haligned e he).1 (haligned e he).2
  have htype : ∀ e ∈ reads, e.type = .flType := by
    intro e he
    rw [hentries _ (hentry e he)]
    rfl
  refine ⟨_, retained_flushes I htype fun e he => (hremap e he).1, exists_parses I m reads, ?_⟩
  intro flushes hflushes a
  -- the two starts are on page boundaries, so the lines are moved to lines
  have hmod : low % 64 = ptr.toNat % 64 := by
    have := hm.start
    have := hm.startDup
    rcases hrange.inside with ⟨rfl, -⟩ | ⟨heq, -⟩
    · rfl
    · omega
  rw [addressNotAligned_of_parses hflushes, List.mem_map]
  constructor
  · rintro ⟨e, he, rfl⟩
    obtain ⟨hdvd, hhigh, hlow⟩ := haligned e he
    have heq := (hremap e he).2
    exact ⟨by omega, by omega, by omega⟩
  · rintro ⟨hdvd, hhigh, hlow⟩
    have hmem' : a + ptr.toNat - low ∈ entries.map (·.address.toNat) := (hmem _).mpr ⟨by omega, by omega, by omega⟩
    rw [← hreads, List.map_map] at hmem'
    obtain ⟨e, he, heq⟩ := List.mem_map.mp hmem'
    have heq' : e.address.toNat = a + ptr.toNat - low := heq
    have hremap' := (hremap e he).2
    exact ⟨e, he, by omega⟩

/-- The flushes and the fence run on any cache. -/
theorem Refines.execFlushes {f₀ : BinaryFile} {hist : List Store} {mem : Memory Nat Store} {c : WitcherCache}
    (h : Refines f₀ hist mem c) (flushes : List Flush) (b : BaseOperation) :
    ∃ c', c.execAll (flushes.map (fun f => .accept (.flush f)) ++ [.accept (.fence b)]) = .ok c' ∧
      Refines f₀ hist (mem.run ((flushes.map (·.address)).map .flush ++ [.fence])) c' := by
  have hstores : commandStores (flushes.map (fun f => .accept (.flush f)) ++ [.accept (.fence b)]) = [] := by
    simp [commandStores, Command.stores, storesOf]
  have hevents : commandEvents (flushes.map (fun f => .accept (.flush f)) ++ [.accept (.fence b)]) =
      (flushes.map (·.address)).map .flush ++ [.fence] := by
    rw [commandEvents, List.flatMap_append, List.flatMap_map, List.map_map, List.map_eq_flatMap]
    rfl
  obtain ⟨c', hrun, href⟩ := h.execStores (flushes.map (fun f => .accept (.flush f)) ++ [.accept (.fence b)])
    (by simp [hstores]) (by rw [hstores, List.append_nil]; exact h.nodup)
  rw [hstores, hevents, List.append_nil] at href
  exact ⟨c', hrun, href⟩

/-- The lines that the cache flushes: the doubles nearest to the lines of the range. -/
theorem mem_flushed_iff {flushes : List Flush} {length : Nat}
    (hmem : ∀ a, a ∈ flushes.map (·.addressNotAligned) ↔ 64 ∣ a ∧ Touches low length a) (line : Nat) :
    line ∈ flushes.map (·.address) ↔ ∃ a, 64 ∣ a ∧ Touches low length a ∧ nearestDouble a = line := by
  rw [List.mem_map]
  constructor
  · rintro ⟨f, hf, rfl⟩
    obtain ⟨hdvd, htouches⟩ := (hmem f.addressNotAligned).mp (List.mem_map_of_mem hf)
    exact ⟨f.addressNotAligned, hdvd, htouches, (getCachelineAddress_of_dvd hdvd).symm⟩
  · rintro ⟨a, hdvd, htouches, rfl⟩
    obtain ⟨f, hf, rfl⟩ := List.mem_map.mp ((hmem a).mpr ⟨hdvd, htouches⟩)
    exact ⟨f, hf, getCachelineAddress_of_dvd hdvd⟩

/-- The line of a store is a double already. -/
theorem Store.nearestDouble_line (st : Store) : nearestDouble st.line = st.line := by
  rw [Store.line, ← getCachelineAddress_of_dvd (dvd_getCachelineAddress st.address)]
  exact getCachelineAddress_idem st.address

theorem flushesExactly_of_rounded (I : PMTraceInput) (hm : m.Paged) (hrange : PersistentRange m ptr length low) (id : UInt32)
    (tid : UInt64) (hround : ∀ a, 64 ∣ a → Touches low length.toNat a → Touches low length.toNat (nearestDouble a)) :
    FlushesExactly I m id tid ptr length low := by
  obtain ⟨entries, hrun, -, hreads⟩ := flushes_lines I hm hrange id tid
  refine ⟨entries, hrun, ?_⟩
  intro reads heq
  obtain ⟨records, hretained, -, hparsed⟩ := hreads reads heq
  refine ⟨records, hretained, ?_⟩
  intro f₀ cmds c hreached flushes b hflushes
  have hlines := mem_flushed_iff (hparsed flushes hflushes)
  obtain ⟨c', hexec, href⟩ := hreached.refines.execFlushes flushes b
  refine ⟨c', hexec, persistsExactly_of_lines hreached.refines href ?_ ?_⟩
  · intro line hline
    obtain ⟨a, hdvd, htouches, rfl⟩ := (hlines line).mp hline
    exact hround a hdvd htouches
  · intro st _ htouches
    exact (hlines st.line).mpr ⟨st.line, dvd_getCachelineAddress st.address, htouches, st.nearestDouble_line⟩

/-- A store of one byte at the start of a line that is a double. -/
def lineStore (line : Nat) : Store := ⟨⟨0, 0, ""⟩, line, 1, [1]⟩

theorem lineStore_line {line : Nat} (hdvd : 64 ∣ line) (hdouble : nearestDouble line = line) : (lineStore line).line = line :=
  (getCachelineAddress_of_dvd hdvd).trans hdouble

/-- The cache with this store pending. -/
theorem exists_lineStore_pending {line : Nat} (hdvd : 64 ∣ line) (hdouble : nearestDouble line = line) :
    ∃ c, ReachedBy (BinaryFile.new line [0]) [.accept (.store (lineStore line))] c ∧
      (Memory.empty.run (commandEvents [.accept (.store (lineStore line))]) line).clear = [lineStore line] := by
  have hline := lineStore_line hdvd hdouble
  have hmapped : (lineStore line).Mapped line 1 := ⟨Nat.le_refl _, Nat.le_refl _, rfl⟩
  have hinLine : (lineStore line).InLine := by
    refine ⟨hline.trans ?_, ?_⟩ <;> simp only [lineStore] <;> omega
  obtain ⟨c, hrun, -⟩ := (Refines.new (BinaryFile.new line [0])).execStores [.accept (.store (lineStore line))]
    (List.forall_mem_singleton.mpr ⟨hinLine, hmapped⟩) (List.nodup_singleton _)
  refine ⟨c, ⟨hrun, List.nodup_singleton _, List.forall_mem_singleton.mpr Nat.one_pos,
    List.forall_mem_singleton.mpr hmapped⟩, ?_⟩
  simp [commandEvents, Command.events, Op.events, hline, Memory.run, Memory.step, Memory.empty]

/-- A flush that is taken out of the range persists a store there. -/
theorem not_flushesExactly_of_rounded (I : PMTraceInput) (hm : m.Paged) (hrange : PersistentRange m ptr length low)
    (id : UInt32) (tid : UInt64) {a : Nat} (hdvd : 64 ∣ a) (htouches : Touches low length.toNat a)
    (hround : ¬Touches low length.toNat (nearestDouble a)) : ¬FlushesExactly I m id tid ptr length low := by
  rintro ⟨entries, hrun, hexactly⟩
  obtain ⟨entries', hrun', ⟨reads, heq⟩, hreads⟩ := flushes_lines I hm hrange id tid
  rw [hrun] at hrun'
  cases hrun'
  obtain ⟨records, hretained, ⟨flushes, hflushes⟩, hparsed⟩ := hreads reads heq
  obtain ⟨records', hretained', hpersists⟩ := hexactly reads heq
  rw [hretained] at hretained'
  cases hretained'
  have hdvd' := dvd_nearestDouble hdvd
  have hdouble : nearestDouble (nearestDouble a) = nearestDouble a := by
    have hfloor := nearestDouble_floor a
    rwa [Nat.div_mul_cancel hdvd'] at hfloor
  obtain ⟨c, hreached, hclear⟩ := exists_lineStore_pending hdvd' hdouble
  have href := hreached.refines
  obtain ⟨c', hexec, hexact⟩ := hpersists _ _ c hreached flushes ⟨0, 0, ""⟩ hflushes
  obtain ⟨c'', hexec', href'⟩ := href.execFlushes flushes ⟨0, 0, ""⟩
  rw [hexec] at hexec'
  cases hexec'
  have hst : lineStore (nearestDouble a) ∈ (Memory.empty.run
      (commandEvents [.accept (.store (lineStore (nearestDouble a)))]) (nearestDouble a)).clear := by
    rw [hclear]
    exact List.mem_singleton_self _
  have hpending : lineStore (nearestDouble a) ∈ c.pending (nearestDouble a) := by
    rw [href.pending_eq]
    exact List.mem_append_right _ hst
  have hbefore := href.clear (nearestDouble a) _ hst
  have hafter : c'.heap.flushed (lineStore (nearestDouble a)).id = .fenced := by
    apply href'.persisted (nearestDouble a)
    rw [Memory.run_flushes_fence, if_pos ((mem_flushed_iff (hparsed flushes hflushes) _).mpr ⟨a, hdvd, htouches, rfl⟩)]
    exact List.mem_append_right _ (List.mem_append_right _ hst)
  have hkept := hexact.state (nearestDouble a) _ hpending
    (by rwa [show (lineStore (nearestDouble a)).address / 64 * 64 = nearestDouble a from Nat.div_mul_cancel hdvd'])
    (by simp [Heap.isFlushing, hbefore])
  rw [hafter, hbefore] at hkept
  cases hkept

/-- Lines below `2^59` are doubles. -/
theorem touches_nearestDouble {low length : Nat} (h : low + length ≤ 2 ^ 59) :
    ∀ a, 64 ∣ a → Touches low length a → Touches low length (nearestDouble a) := by
  intro a hdvd htouches
  rw [nearestDouble_of_dvd (k := 6) hdvd (lt_of_lt_of_le htouches.1 h)]
  exact htouches

/-- A range flush persists exactly the lines of its range if and only if rounding their addresses to doubles does not
lead out of the range. -/
theorem flushesExactly_iff (I : PMTraceInput) (hm : m.Paged) (hrange : PersistentRange m ptr length low) (id : UInt32)
    (tid : UInt64) :
    FlushesExactly I m id tid ptr length low ↔
      ∀ a, 64 ∣ a → Touches low length.toNat a → Touches low length.toNat (nearestDouble a) := by
  constructor
  · intro hexact a hdvd htouches
    by_contra hround
    exact not_flushesExactly_of_rounded I hm hrange id tid hdvd htouches hround hexact
  · exact flushesExactly_of_rounded I hm hrange id tid

/-- So it does in a region that ends at `2 ^ 59` or below. -/
theorem flushesExactly_of_le (I : PMTraceInput) (hm : m.Paged) (hrange : PersistentRange m ptr length low) (id : UInt32)
    (tid : UInt64) (hlow : low + length.toNat ≤ 2 ^ 59) : FlushesExactly I m id tid ptr length low := by
  rw [flushesExactly_iff I hm hrange id tid]
  exact touches_nearestDouble hlow

/-- Two bytes across the end of a line: both lines are flushed, and with them their pending stores. -/
theorem flushesExactly_of_le_straddling :
    (Mappings.init 0x10000000 1).Paged ∧ PersistentRange (.init 0x10000000 1) 0x1000003f 2 0x1000003f ∧
      FlushesExactly oneLineInput (.init 0x10000000 1) 4 9 0x1000003f 2 0x1000003f := by
  have hm : (Mappings.init 0x10000000 1).Paged :=
    ⟨by decide, by decide, by decide, by decide, by decide, by decide⟩
  have hrange : PersistentRange (.init 0x10000000 1) 0x1000003f 2 0x1000003f := ⟨by decide, by decide⟩
  exact ⟨hm, hrange, flushesExactly_of_le oneLineInput hm hrange 4 9 (by decide)⟩

/-- The second line of a region at `2^60` is taken to the first. -/
theorem not_flushesExactly_far :
    (Mappings.init 0x1000000000000000 1).Paged ∧
      PersistentRange (.init 0x1000000000000000 1) 0x1000000000000040 64 0x1000000000000040 ∧
      ¬FlushesExactly oneLineInput (.init 0x1000000000000000 1) 4 9 0x1000000000000040 64 0x1000000000000040 := by
  have hm : (Mappings.init 0x1000000000000000 1).Paged :=
    ⟨by decide, by decide, by decide, by decide, by decide, by decide⟩
  have hrange : PersistentRange (.init 0x1000000000000000 1) 0x1000000000000040 64 0x1000000000000040 :=
    ⟨by decide, by decide⟩
  exact ⟨hm, hrange, not_flushesExactly_of_rounded oneLineInput hm hrange 4 9 (a := 0x1000000000000040) (by decide)
    (by decide) (by decide)⟩

end Call

end Witcher

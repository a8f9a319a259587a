import Witcher.WitcherTrace

/-! The transactions of an extracted trace. Its operations are an initial part, then transactions
each followed by the operations up to the next one, then at most one transaction left open. The
recorded ranges are the positions of the transactions. -/

namespace Witcher

/-- One transaction and the operations between its `TXEnd` and the next `TXStart`. -/
structure TxSegment where
  start : BaseOperation
  body : List Op
  stop : BaseOperation
  gap : List Op

def TxSegment.ops (t : TxSegment) : List Op := .txStart t.start :: (t.body ++ .txEnd t.stop :: t.gap)

theorem TxSegment.length_ops (t : TxSegment) : t.ops.length = t.body.length + t.gap.length + 2 := by
  simp only [TxSegment.ops, List.length_cons, List.length_append]
  omega

/-- The positions of the transactions when the first segment starts at `n`. -/
def segmentRanges : Nat → List TxSegment → List (Nat × Nat)
  | _, [] => []
  | n, t :: ts => (n, n + t.body.length + 1) :: segmentRanges (n + t.ops.length) ts

def Plain (ops : List Op) : Prop := ∀ op ∈ ops, op.isBoundary = false

structure Segmented (ops : List Op) (ranges : List (Nat × Nat)) (init : List Op) (segs : List TxSegment)
    (tail : List Op) : Prop where
  ops_eq : ops = init ++ segs.flatMap TxSegment.ops ++ tail
  ranges_eq : ranges = segmentRanges init.length segs
  init_plain : Plain init
  segs_plain : ∀ t ∈ segs, Plain t.body ∧ Plain t.gap

theorem segmentRanges_concat (n : Nat) (segs : List TxSegment) (t : TxSegment) :
    segmentRanges n (segs ++ [t]) = segmentRanges n segs ++
      [(n + (segs.flatMap TxSegment.ops).length, n + (segs.flatMap TxSegment.ops).length + t.body.length + 1)] := by
  induction segs generalizing n with
  | nil => simp [segmentRanges]
  | cons u segs ih =>
      simp only [List.cons_append, segmentRanges, ih, List.flatMap_cons, List.length_append]
      simp only [Nat.add_assoc]

theorem Plain.append {front back : List Op} (hfront : Plain front) (hback : Plain back) :
    Plain (front ++ back) := by
  intro op hop
  rcases List.mem_append.mp hop with h | h
  · exact hfront op h
  · exact hback op h

/-- Operations outside any transaction extend the gap after the last one, or the initial part. -/
theorem Segmented.append_gap {ops added : List Op} {ranges : List (Nat × Nat)} {init : List Op}
    {segs : List TxSegment} (h : Segmented ops ranges init segs []) (hadded : Plain added) :
    ∃ init' segs', Segmented (ops ++ added) ranges init' segs' [] := by
  rcases List.eq_nil_or_concat segs with rfl | ⟨segs, t, rfl⟩
  · refine ⟨init ++ added, [], ?_, ?_, h.init_plain.append hadded, by simp⟩
    · simp [h.ops_eq]
    · rw [h.ranges_eq]
      rfl
  · rw [List.concat_eq_append] at h
    refine ⟨init, segs ++ [{ t with gap := t.gap ++ added }], ?_, ?_, h.init_plain, ?_⟩
    · simp [h.ops_eq, TxSegment.ops]
    · rw [h.ranges_eq, segmentRanges_concat, segmentRanges_concat]
    · intro u hu
      rcases List.mem_append.mp hu with hu | hu
      · exact h.segs_plain u (List.mem_append_left _ hu)
      · obtain ⟨hbody, hgap⟩ := h.segs_plain t (List.mem_append_right _ (List.mem_singleton_self t))
        rw [List.mem_singleton.mp hu]
        exact ⟨hbody, hgap.append hadded⟩

/-- Closing the open transaction. -/
theorem Segmented.close {ops : List Op} {ranges : List (Nat × Nat)} {init body : List Op}
    {segs : List TxSegment} {start stop : BaseOperation}
    (h : Segmented ops ranges init segs (.txStart start :: body)) (hbody : Plain body) :
    Segmented (ops ++ [.txEnd stop])
      (ranges ++ [(init.length + (segs.flatMap TxSegment.ops).length, ops.length)]) init
      (segs ++ [⟨start, body, stop, []⟩]) [] where
  ops_eq := by simp [h.ops_eq, TxSegment.ops]
  ranges_eq := by
    rw [h.ranges_eq, segmentRanges_concat, h.ops_eq]
    simp only [List.length_append, List.length_cons, Nat.add_assoc]
  init_plain := h.init_plain
  segs_plain := by
    intro t ht
    rcases List.mem_append.mp ht with ht | ht
    · exact h.segs_plain t ht
    · rw [List.mem_singleton.mp ht]
      exact ⟨hbody, fun op hop => by simp at hop⟩

/-! ### Slices at a transaction -/

/-- `atomic_write_ops[low:high]`. -/
def slice (ops : List Op) (low high : Nat) : List Op := (ops.take high).drop low

theorem slice_append_length (front back rest : List Op) :
    slice (front ++ back ++ rest) front.length (front.length + back.length) = back := by
  rw [slice, ← List.length_append, List.take_left, List.drop_left]

theorem slice_zero (ops : List Op) (high : Nat) : slice ops 0 high = ops.take high := rfl

/-- The operations up to a later position. -/
theorem take_eq_slice_append (ops : List Op) {low high : Nat} (h : low ≤ high) :
    ops.take high = slice ops 0 low ++ slice ops low high := by
  have hcut := List.take_append_drop low (ops.take high)
  rw [List.take_take, min_eq_left h] at hcut
  exact hcut.symm

/-- The recorded range of a transaction is its position among the segments. -/
theorem segmentRanges_getElem? {n : Nat} {segs : List TxSegment} {t start stop : Nat}
    (h : (segmentRanges n segs)[t]? = some (start, stop)) :
    ∃ before seg after, segs = before ++ seg :: after ∧ before.length = t ∧
      start = n + (before.flatMap TxSegment.ops).length ∧ stop = start + seg.body.length + 1 := by
  induction segs generalizing n t with
  | nil => simp [segmentRanges] at h
  | cons u segs ih =>
      cases t with
      | zero =>
          simp only [segmentRanges, List.getElem?_cons_zero, Option.some.injEq, Prod.mk.injEq] at h
          exact ⟨[], u, segs, rfl, rfl, by simp [h.1], by rw [← h.2, h.1]⟩
      | succ t =>
          rw [segmentRanges, List.getElem?_cons_succ] at h
          obtain ⟨before, seg, after, rfl, hlen, hstart, hstop⟩ := ih h
          refine ⟨u :: before, seg, after, rfl, by simp [hlen], ?_, hstop⟩
          rw [hstart, List.flatMap_cons, List.length_append, Nat.add_assoc]

/-- Where a transaction lies in the trace: what comes before it and what the slices at its range are. -/
structure TxAt (ops init : List Op) (before : List TxSegment) (seg : TxSegment) (after : List TxSegment)
    (start stop : Nat) : Prop where
  start_eq : start = (init ++ before.flatMap TxSegment.ops).length
  stop_eq : stop = start + seg.body.length + 1
  until_start : slice ops 0 start = init ++ before.flatMap TxSegment.ops
  until_stop : slice ops start stop = .txStart seg.start :: seg.body
  body : slice ops (start + 1) stop = seg.body
  whole : slice ops start (stop + 1) = .txStart seg.start :: (seg.body ++ [.txEnd seg.stop])

theorem Segmented.txAt {ops init tail : List Op} {ranges : List (Nat × Nat)} {segs : List TxSegment}
    {t start stop : Nat} (h : Segmented ops ranges init segs tail) (hrange : ranges[t]? = some (start, stop)) :
    ∃ before seg after, segs = before ++ seg :: after ∧ before.length = t ∧
      TxAt ops init before seg after start stop := by
  rw [h.ranges_eq] at hrange
  obtain ⟨before, seg, after, rfl, hlen, hstart, hstop⟩ := segmentRanges_getElem? hrange
  refine ⟨before, seg, after, rfl, hlen, ?_⟩
  rw [← List.length_append] at hstart
  have hops : ops = init ++ before.flatMap TxSegment.ops ++ seg.ops ++ (after.flatMap TxSegment.ops ++ tail) := by
    rw [h.ops_eq]
    simp
  have hparts : ∀ skip mid rest, seg.ops = skip ++ mid ++ rest →
      slice ops (start + skip.length) (start + skip.length + mid.length) = mid := by
    intro skip mid rest hseg
    have hlength : (init ++ before.flatMap TxSegment.ops ++ skip).length = start + skip.length := by
      rw [List.length_append, ← hstart]
    have hcut := slice_append_length (init ++ before.flatMap TxSegment.ops ++ skip) mid
      (rest ++ (after.flatMap TxSegment.ops ++ tail))
    rw [hlength] at hcut
    rw [hops, hseg]
    simpa using hcut
  refine ⟨hstart, hstop, ?_, ?_, ?_, ?_⟩
  · rw [slice_zero, hops, hstart, List.append_assoc (init ++ _), List.take_left]
  · have := hparts [] (.txStart seg.start :: seg.body) (.txEnd seg.stop :: seg.gap) (by simp [TxSegment.ops])
    rw [hstop, Nat.add_assoc]
    simpa using this
  · have := hparts [.txStart seg.start] seg.body (.txEnd seg.stop :: seg.gap) (by simp [TxSegment.ops])
    rw [hstop, Nat.add_assoc, Nat.add_comm seg.body.length, ← Nat.add_assoc]
    simpa using this
  · have := hparts [] (.txStart seg.start :: (seg.body ++ [.txEnd seg.stop])) seg.gap (by simp [TxSegment.ops])
    rw [hstop]
    simpa [Nat.add_assoc] using this

/-- The first transaction starts right after the initial part. -/
theorem Segmented.start_first {ops init tail : List Op} {ranges : List (Nat × Nat)} {segs : List TxSegment}
    {range : Nat × Nat} (h : Segmented ops ranges init segs tail) (hfirst : ranges[0]? = some range) :
    range.1 = init.length := by
  obtain ⟨before, seg, after, _, hlen, htx⟩ := h.txAt hfirst
  rw [htx.start_eq, List.length_eq_zero_iff.mp hlen, List.flatMap_nil, List.append_nil]

/-- The operations between two consecutive transactions are the gap of the first. -/
theorem Segmented.gapAt {ops init tail : List Op} {ranges : List (Nat × Nat)} {segs : List TxSegment}
    {t lastStart lastStop start stop : Nat} (h : Segmented ops ranges init segs tail)
    (hlast : ranges[t]? = some (lastStart, lastStop)) (hrange : ranges[t + 1]? = some (start, stop)) :
    lastStop + 1 ≤ start ∧ ∃ seg ∈ segs, slice ops (lastStop + 1) start = seg.gap := by
  obtain ⟨before, seg, after, hsegs, hlen, hlastTx⟩ := h.txAt hlast
  obtain ⟨before', seg', after', hsegs', hlen', htx⟩ := h.txAt hrange
  -- the second decomposition refines the first
  have hbefore : before' = before ++ [seg] := by
    have heq : before' ++ seg' :: after' = before ++ [seg] ++ after := by
      rw [← hsegs', hsegs]
      simp
    exact (List.append_inj heq (by simp [hlen, hlen'])).1
  have hstart : start = lastStop + 1 + seg.gap.length := by
    rw [htx.start_eq, hlastTx.stop_eq, hlastTx.start_eq, hbefore]
    simp only [List.flatMap_append, List.flatMap_singleton, List.length_append, seg.length_ops]
    omega
  refine ⟨by omega, seg, by rw [hsegs]; simp, ?_⟩
  have hfront : (init ++ before.flatMap TxSegment.ops ++
      (Op.txStart seg.start :: (seg.body ++ [Op.txEnd seg.stop]))).length = lastStop + 1 := by
    rw [List.length_append, ← hlastTx.start_eq, hlastTx.stop_eq]
    simp only [List.length_cons, List.length_append, List.length_nil]
    omega
  have hcut := slice_append_length
    (init ++ before.flatMap TxSegment.ops ++ (.txStart seg.start :: (seg.body ++ [.txEnd seg.stop]))) seg.gap
    (after.flatMap TxSegment.ops ++ tail)
  rw [hfront, ← hstart] at hcut
  rw [h.ops_eq, hsegs, ← hcut]
  simp [TxSegment.ops]

/-! ### The scan -/

/-- The scan's invariant. -/
structure ExtractInv (mapBase length : Nat) (s : ExtractState) : Prop where
  index : s.atomicWriteOpCurrIndex = s.trace.atomicWriteOps.length
  ids : ∀ (i : Nat) (op : Op), s.trace.atomicWriteOps[i]? = some op → op.id = i
  replayable : ∀ op ∈ s.trace.atomicWriteOps, op.Replayable mapBase length
  overlap : ∀ st, Op.store st ∈ s.trace.atomicWriteOps → st.OverlapsWord
  segmented :
    (s.atomicWriteOpCurrTxStartIndex = none ∧ ∃ init segs,
      Segmented s.trace.atomicWriteOps s.trace.atomicWriteOpsTxRanges init segs []) ∨
    ∃ init segs start body, Plain body ∧
      s.atomicWriteOpCurrTxStartIndex = some (init.length + (segs.flatMap TxSegment.ops).length) ∧
      Segmented s.trace.atomicWriteOps s.trace.atomicWriteOpsTxRanges init segs (.txStart start :: body)

theorem ExtractInv.init (mapBase length : Nat) : ExtractInv mapBase length ExtractState.init where
  index := rfl
  ids := by simp [ExtractState.init]
  replayable := by simp [ExtractState.init]
  overlap := by simp [ExtractState.init]
  segmented := .inl ⟨rfl, [], [], ⟨rfl, rfl, by simp [Plain], by simp⟩⟩

theorem ExtractInv.step {mapBase length : Nat} {s s' : ExtractState} {added : List Op}
    (h : ExtractInv mapBase length s) (hstep : Extracted mapBase length s s' added) :
    ExtractInv mapBase length s' where
  index := hstep.index
  ids := by
    intro i op hop
    rw [hstep.ops] at hop
    by_cases hi : i < s.trace.atomicWriteOps.length
    · rw [List.getElem?_append_left hi] at hop
      exact h.ids i op hop
    · rw [List.getElem?_append_right (by omega)] at hop
      rw [hstep.ids _ op hop]
      omega
  replayable := by
    intro op hop
    rw [hstep.ops] at hop
    rcases List.mem_append.mp hop with hop | hop
    · exact h.replayable op hop
    · exact hstep.replayable op hop
  overlap := by
    intro st hst
    rw [hstep.ops] at hst
    rcases List.mem_append.mp hst with hst | hst
    · exact h.overlap st hst
    · exact hstep.overlap st hst
  segmented := by
    rcases hstep.boundary with ⟨hplain, hranges, hstart⟩ | ⟨b, rfl, hnone, hstart, hranges⟩ |
      ⟨b, start, rfl, hsome, hstart, hranges⟩ <;> rw [hstep.ops, hranges, hstart]
    · rcases h.segmented with ⟨hnone, init, segs, hseg⟩ | ⟨init, segs, open_, body, hbody, hsome, hseg⟩
      · exact .inl ⟨hnone, hseg.append_gap hplain⟩
      · refine .inr ⟨init, segs, open_, body ++ added, hbody.append hplain, hsome, ?_⟩
        exact ⟨by rw [hseg.ops_eq]; simp, hseg.ranges_eq, hseg.init_plain, hseg.segs_plain⟩
    · rcases h.segmented with ⟨_, init, segs, hseg⟩ | ⟨init, segs, open_, body, _, hsome, _⟩
      · refine .inr ⟨init, segs, b, [], by simp [Plain], ?_, ?_⟩
        · rw [hseg.ops_eq]
          simp only [List.append_nil, List.length_append]
        · exact ⟨by rw [hseg.ops_eq]; simp, hseg.ranges_eq, hseg.init_plain, hseg.segs_plain⟩
      · rw [hnone] at hsome
        cases hsome
    · rcases h.segmented with ⟨hnone, _⟩ | ⟨init, segs, open_, body, hbody, hopen, hseg⟩
      · rw [hnone] at hsome
        cases hsome
      · rw [hsome] at hopen
        cases hopen
        exact .inl ⟨rfl, init, _, hseg.close hbody⟩

/-- What the replay relies on in an extracted trace. -/
structure WitcherTrace.Valid (mapBase length : Nat) (trace : WitcherTrace) : Prop where
  ids : ∀ (i : Nat) (op : Op), trace.atomicWriteOps[i]? = some op → op.id = i
  replayable : ∀ op ∈ trace.atomicWriteOps, op.Replayable mapBase length
  overlap : ∀ st, Op.store st ∈ trace.atomicWriteOps → st.OverlapsWord
  segmented : ∃ init segs tail, (tail = [] ∨ ∃ start body, Plain body ∧ tail = .txStart start :: body) ∧
    Segmented trace.atomicWriteOps trace.atomicWriteOpsTxRanges init segs tail

/-- Every extracted trace whose stores are mapped is valid. -/
theorem extractOperations_valid {mapBase length : Nat} {entries : List TraceEntry} {trace : WitcherTrace}
    (h : extractOperations entries = .ok trace) (hmap : ∀ e ∈ entries, e.Mapped mapBase length) :
    trace.Valid mapBase length := by
  obtain ⟨s, hrun, hs⟩ := Loops.bind_ok h
  cases hs
  suffices hinv : ∀ (l : List TraceEntry) (s t : ExtractState), (∀ e ∈ l, e.Mapped mapBase length) →
      ExtractInv mapBase length s → l.foldlM extractEntry s = .ok t → ExtractInv mapBase length t by
    have hfinal := hinv entries _ s hmap (ExtractInv.init mapBase length) hrun
    refine ⟨hfinal.ids, hfinal.replayable, hfinal.overlap, ?_⟩
    rcases hfinal.segmented with ⟨_, init, segs, hseg⟩ | ⟨init, segs, start, body, hbody, _, hseg⟩
    · exact ⟨init, segs, [], .inl rfl, hseg⟩
    · exact ⟨init, segs, _, .inr ⟨start, body, hbody, rfl⟩, hseg⟩
  intro l
  induction l with
  | nil =>
      intro s t _ hs ht
      cases ht
      exact hs
  | cons e l ih =>
      intro s t hl hs ht
      rw [List.foldlM_cons] at ht
      obtain ⟨s', hentry, ht⟩ := Loops.bind_ok ht
      obtain ⟨added, hstep⟩ := extractEntry_cases hentry hs.index (hl e List.mem_cons_self)
      exact ih s' t (fun e' he' => hl e' (List.mem_cons_of_mem e he')) (hs.step hstep) ht

/-! ### Ids -/

theorem WitcherTrace.Valid.map_id {mapBase length : Nat} {trace : WitcherTrace} (h : trace.Valid mapBase length) :
    trace.atomicWriteOps.map Op.id = List.range trace.atomicWriteOps.length := by
  apply List.ext_getElem?
  intro i
  rw [List.getElem?_map]
  cases hget : trace.atomicWriteOps[i]? with
  | none =>
      rw [List.getElem?_eq_none_iff] at hget
      simp [hget]
  | some op =>
      have hlt := (List.getElem?_eq_some_iff.mp hget).1
      simp [hlt, h.ids i op hget]

theorem WitcherTrace.Valid.ids_lt {mapBase length : Nat} {trace : WitcherTrace} (h : trace.Valid mapBase length)
    {ops : List Op} (hops : ops.Sublist trace.atomicWriteOps) : (ops.map Op.id).Pairwise (· < ·) := by
  have hsub := hops.map Op.id
  rw [h.map_id] at hsub
  exact List.pairwise_lt_range.sublist hsub

theorem storesOf_ids_sublist (ops : List Op) : ((storesOf ops).map (·.id)).Sublist (ops.map Op.id) := by
  induction ops with
  | nil => exact List.Sublist.slnil
  | cons op ops ih =>
      cases op with
      | store st => exact ih.cons_cons _
      | _ => exact ih.cons _

theorem slice_sublist (ops : List Op) (low high : Nat) : (slice ops low high).Sublist ops :=
  (List.drop_sublist _ _).trans (List.take_sublist _ _)

theorem WitcherTrace.Valid.store_ids_lt {mapBase length : Nat} {trace : WitcherTrace}
    (h : trace.Valid mapBase length) {ops : List Op} (hops : ops.Sublist trace.atomicWriteOps) :
    ((storesOf ops).map (·.id)).Pairwise (· < ·) :=
  (h.ids_lt hops).sublist (storesOf_ids_sublist ops)

theorem WitcherTrace.Valid.store_ids_nodup {mapBase length : Nat} {trace : WitcherTrace}
    (h : trace.Valid mapBase length) {ops : List Op} (hops : ops.Sublist trace.atomicWriteOps) :
    ((storesOf ops).map (·.id)).Nodup :=
  (h.store_ids_lt hops).imp fun hlt => hlt.ne

theorem WitcherTrace.Valid.le_id_of_mem_slice {mapBase length : Nat} {trace : WitcherTrace}
    (h : trace.Valid mapBase length) {low high : Nat} {op : Op} (hop : op ∈ slice trace.atomicWriteOps low high) :
    low ≤ op.id := by
  obtain ⟨i, hget⟩ := List.mem_iff_getElem?.mp hop
  rw [slice, List.getElem?_drop, List.getElem?_take] at hget
  split_ifs at hget
  rw [h.ids _ op hget]
  omega

end Witcher

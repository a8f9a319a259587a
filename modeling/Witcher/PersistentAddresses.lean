import Witcher.ParallelEdges
import Witcher.PMTraceRecords

/-! Which addresses are persistent, and under which address they are known. The persistent memory trace
knows a second mapping of the region and moves its stores and flushes to the first one; the logged ranges
are printed as they are, and the dependence graph tests against one closed range. -/

namespace Witcher

/-! ### Canonical addresses -/

def Mappings.InRegion (m : Mappings) (a : UInt64) : Prop := m.pmAddrStart ≤ a ∧ a < m.pmAddrEnd

instance (m : Mappings) (a : UInt64) : Decidable (m.InRegion a) := inferInstanceAs (Decidable (_ ∧ _))

/-- The address in the region of a persistent address, which may be one of the second mapping. -/
def Mappings.canonical (m : Mappings) (a : UInt64) : Option UInt64 :=
  if m.InRegion a then some a
  else if m.inDup a then some (m.pmAddrStart + (a - m.pmAddrStartDup))
  else none

/-- The second mapping is apart from the region and aliases a part of it. -/
structure Mappings.Aliased (m : Mappings) : Prop where
  order : m.pmAddrStart ≤ m.pmAddrEnd
  apart : ∀ a, m.inDup a → ¬m.InRegion a
  inside : ∀ a, m.inDup a → m.InRegion (m.pmAddrStart + (a - m.pmAddrStartDup))

/-- An entry that maps `[address, address + length)` apart from the region, onto its first pages. -/
structure Entry.MapsAlias (entry : Entry) (m : Mappings) : Prop where
  noWrap : entry.address.toNat + entry.length.toNat < 2 ^ 64
  apart : entry.address.toNat + entry.length.toNat ≤ m.pmAddrStart.toNat ∨ m.pmAddrEnd.toNat ≤ entry.address.toNat
  inside : m.pmAddrStart.toNat + entry.length.toNat ≤ m.pmAddrEnd.toNat

theorem Entry.MapsAlias.aliased {entry : Entry} {m : Mappings} (h : entry.MapsAlias m) :
    Mappings.Aliased { m with pmAddrStartDup := entry.address, pmAddrEndDup := entry.address + entry.length } := by
  have hend : (entry.address + entry.length).toNat = entry.address.toNat + entry.length.toNat := by
    rw [UInt64.toNat_add]
    exact Nat.mod_eq_of_lt h.noWrap
  have hinside := h.inside
  have hstop := m.pmAddrEnd.toNat_lt
  refine ⟨UInt64.le_iff_toNat_le.mpr (by simp only; omega), ?_, ?_⟩
  all_goals
    intro a ha
    simp only [Mappings.inDup, ge_iff_le, Bool.and_eq_true, decide_eq_true_eq, UInt64.le_iff_toNat_le,
      UInt64.lt_iff_toNat_lt, hend] at ha
    simp only [Mappings.InRegion, UInt64.le_iff_toNat_le, UInt64.lt_iff_toNat_lt]
  · rcases h.apart with h | h <;> omega
  · have hsub : (a - entry.address).toNat = a.toNat - entry.address.toNat :=
      UInt64.toNat_sub_of_le _ _ (UInt64.le_iff_toNat_le.mpr ha.1)
    have hadd : (m.pmAddrStart + (a - entry.address)).toNat = m.pmAddrStart.toNat + (a.toNat - entry.address.toNat) := by
      rw [UInt64.toNat_add, hsub]
      exact Nat.mod_eq_of_lt (by omega)
    rw [hadd]
    omega

/-- With no second mapping there is nothing to be apart from. -/
theorem Mappings.aliased_of_not_dup {m : Mappings} (horder : m.pmAddrStart ≤ m.pmAddrEnd) (hend : m.pmAddrEndDup = 0) :
    m.Aliased := by
  have hnone : ∀ a, ¬m.inDup a = true := by
    intro a ha
    simp only [Mappings.inDup, hend, Bool.and_eq_true, decide_eq_true_eq, UInt64.lt_iff_toNat_lt] at ha
    exact absurd ha.2 (Nat.not_lt_zero _)
  exact ⟨horder, fun a ha => absurd ha (hnone a), fun a ha => absurd ha (hnone a)⟩

namespace Mappings.Aliased

variable {m : Mappings} (h : m.Aliased)
include h

/-- What stores and flushes are filtered by and moved to is the canonical address. -/
theorem remap_eq (a : UInt64) : (if m.isPmAddr a then some (m.remap a) else none) = m.canonical a := by
  by_cases hdup : m.inDup a = true
  · have hregion := h.apart a hdup
    simp only [isPmAddr, hdup, Bool.or_true, if_true, remap, canonical, if_neg hregion]
    rw [UInt64.add_comm]
  · by_cases hregion : m.InRegion a
    · have hpm : m.isPmAddr a = true := by
        simp only [isPmAddr, Bool.or_eq_true, Bool.and_eq_true, decide_eq_true_eq]
        exact .inl hregion
      simp only [hpm, if_true, remap, hdup, canonical, if_pos hregion]
      rfl
    · have hpm : ¬m.isPmAddr a = true := by
        simp only [isPmAddr, Bool.or_eq_true, Bool.and_eq_true, decide_eq_true_eq]
        exact fun hor => hor.elim hregion hdup
      simp only [hpm, canonical, if_neg hregion, hdup]
      rfl

/-- An address that stands as it is is canonical in the region only. -/
theorem canonical_eq_self_iff (a : UInt64) : m.canonical a = some a ↔ m.InRegion a := by
  constructor
  · intro hcanonical
    unfold canonical at hcanonical
    split_ifs at hcanonical with hregion hdup
    · exact hregion
    · rw [Option.some.injEq] at hcanonical
      rw [← hcanonical]
      exact h.inside a hdup
  · intro hregion
    rw [canonical, if_pos hregion]

theorem of_inRegion {a : UInt64} (hregion : m.InRegion a) : m.inDup a = false ∧ a ≠ m.pmAddrEnd := by
  refine ⟨?_, ?_⟩
  · cases hdup : m.inDup a with
    | false => rfl
    | true => exact absurd hregion (h.apart a hdup)
  · rintro rfl
    exact UInt64.lt_irrefl _ hregion.2

/-- The closed range agrees except at its end and in the second mapping. -/
theorem isInRange_iff (a : UInt64) :
    (if Range.isInRange ⟨m.pmAddrStart, m.pmAddrEnd⟩ a then some a else none) = m.canonical a ↔
      m.inDup a = false ∧ a ≠ m.pmAddrEnd := by
  have hrange : Range.isInRange ⟨m.pmAddrStart, m.pmAddrEnd⟩ a = true ↔ m.InRegion a ∨ a = m.pmAddrEnd := by
    have horder := UInt64.le_iff_toNat_le.mp h.order
    simp only [Range.isInRange, ge_iff_le, Bool.and_eq_true, decide_eq_true_eq, InRegion, UInt64.le_iff_toNat_le,
      UInt64.lt_iff_toNat_lt, ← UInt64.toNat_inj]
    omega
  by_cases hregion : m.InRegion a
  · rw [if_pos (hrange.mpr (.inl hregion)), canonical, if_pos hregion]
    exact iff_of_true rfl (h.of_inRegion hregion)
  · by_cases heq : a = m.pmAddrEnd
    · rw [if_pos (hrange.mpr (.inr heq)), eq_comm, h.canonical_eq_self_iff a]
      exact iff_of_false hregion fun hand => hand.2 heq
    · rw [if_neg fun hin => (hrange.mp hin).elim hregion heq, canonical, if_neg hregion]
      cases hdup : m.inDup a with
      | false => simp [heq]
      | true => simp

end Mappings.Aliased

/-! ### The mappings along a trace -/

namespace WitcherPMTrace

variable {I : PMTraceInput}

/-- Only an `mmap` changes the mappings. -/
theorem processEntry_mappings {s s' : WitcherPMTrace} {entry : ReadEntry} (h : processEntry I s entry = .ok s') :
    s'.mappings = s.mappings ∨ entry.type = .mmapType ∧ s.mappings.processMmapEntry entry.toEntry = .ok s'.mappings := by
  unfold processEntry at h
  cases htype : entry.type <;> simp only [htype] at h
  case clType =>
    unfold processCallEntry at h
    split_ifs at h
    · cases h
      exact .inl rfl
    · obtain ⟨name, -, h⟩ := Loops.bind_ok h
      split_ifs at h <;> cases h <;> exact .inl rfl
  case rtType =>
    unfold processRetEntry at h
    split_ifs at h
    · cases h
      exact .inl rfl
    · obtain ⟨name, -, h⟩ := Loops.bind_ok h
      split_ifs at h <;> cases h <;> exact .inl rfl
  case stType =>
    cases h
    unfold processStoreEntry
    split_ifs <;> exact .inl rfl
  case flType =>
    cases h
    unfold processFlushEntry
    split_ifs <;> exact .inl rfl
  case mmapType =>
    obtain ⟨m, hm, h⟩ := Loops.bind_ok h
    cases h
    exact .inr ⟨rfl, hm⟩
  case feType =>
    cases h
    left
    rw [processFenceEntry]
  case txaddType =>
    cases h
    left
    rw [processTXAddEntry]
  case txallocType =>
    cases h
    left
    rw [processTXAllocEntry]
  all_goals
    cases h
    exact .inl rfl

end WitcherPMTrace

/-- The entries before the end of a trace whose `mmap` entries, but for failed ones and the one of the region
itself, map aliases of the region. -/
structure AliasTrace (m : Mappings) (trace : List ReadEntry) : Prop where
  order : m.pmAddrStart ≤ m.pmAddrEnd
  fresh : m.pmAddrStartDup = 0 ∧ m.pmAddrEndDup = 0
  noEnd : ∀ entry ∈ trace, entry.isEnd = false
  maps : ∀ entry ∈ trace, entry.type = .mmapType → entry.address ≠ 18446744073709551615 →
    entry.address ≠ m.pmAddrStart → entry.toEntry.MapsAlias m

/-- The mappings of a region, seen after some entries. -/
structure Mappings.SameRegion (m₀ m : Mappings) : Prop where
  start : m.pmAddrStart = m₀.pmAddrStart
  stop : m.pmAddrEnd = m₀.pmAddrEnd
  aliased : m.Aliased

theorem Mappings.SameRegion.processMmapEntry {m₀ m m' : Mappings} (h : m₀.SameRegion m) {entry : Entry}
    (hmap : entry.address ≠ 18446744073709551615 → entry.address ≠ m₀.pmAddrStart → entry.MapsAlias m₀)
    (hm : m.processMmapEntry entry = .ok m') : m₀.SameRegion m' := by
  unfold Mappings.processMmapEntry at hm
  split_ifs at hm with hfailed hstart
  · cases hm
    exact h
  · cases hm
    exact h
  · cases hm
    obtain ⟨hwrap, hapart, hinside⟩ := hmap hfailed (h.start ▸ hstart)
    rw [← h.start, ← h.stop] at hapart
    rw [← h.start, ← h.stop] at hinside
    exact ⟨h.start, h.stop, Entry.MapsAlias.aliased ⟨hwrap, hapart, hinside⟩⟩

theorem WitcherPMTrace.runEntries_sameRegion {I : PMTraceInput} {m₀ : Mappings} {entries : List ReadEntry}
    (hmap : ∀ entry ∈ entries, entry.type = .mmapType → entry.address ≠ 18446744073709551615 →
      entry.address ≠ m₀.pmAddrStart → entry.toEntry.MapsAlias m₀) {s s' : WitcherPMTrace} (hs : m₀.SameRegion s.mappings)
    (h : runEntries I s entries = .ok s') : m₀.SameRegion s'.mappings := by
  induction entries generalizing s with
  | nil =>
      cases h
      exact hs
  | cons entry entries ih =>
      obtain ⟨s₁, hstep, h⟩ := Loops.bind_ok h
      have hs₁ : m₀.SameRegion s₁.mappings := by
        rcases processEntry_mappings hstep with hsame | ⟨htype, hmmap⟩
        · rw [hsame]
          exact hs
        · exact hs.processMmapEntry (hmap entry List.mem_cons_self htype) hmmap
      split_ifs at h
      · cases h
        exact hs₁
      · exact ih (fun e he => hmap e (List.mem_cons_of_mem entry he)) hs₁ h

/-! ### What the persistent memory trace emits -/

def PMOp.address : PMOp → Option UInt64
  | .txAdd address _ | .txAlloc address _ | .store address _ _ | .flush address => some address
  | .txStart | .txEnd | .fence | .call _ _ => none

def PMOp.length : PMOp → Option UInt64
  | .txAdd _ length | .txAlloc _ length | .store _ length _ => some length
  | .txStart | .txEnd | .fence | .call _ _ | .flush _ => none

/-- A flush is printed without a length. -/
def Entry.printedLength (entry : Entry) : Option UInt64 := if entry.type = .flType then none else some entry.length

/-- An access is printed under its canonical address, and not at all when it has none. A store of no bytes is
never printed. -/
def TraceAgrees (I : PMTraceInput) (m : Mappings) (entry : ReadEntry) : Prop :=
  entry.type = .stType ∧ entry.length = 0 ∨ ∃ m' record, I.retain m entry = .ok (m', record) ∧
    record.map (fun r => (r.op.address, r.op.length)) = (m.canonical entry.address).map fun a => (some a, entry.printedLength)

/-- The entries of which the trace prints an address. -/
def Entry.IsTraced (entry : Entry) : Prop :=
  entry.type = .stType ∨ entry.type = .flType ∨ entry.type = .txaddType ∨ entry.type = .txallocType

/-- A logged range. -/
def Entry.IsLogged (entry : Entry) : Prop := entry.type = .txaddType ∨ entry.type = .txallocType

instance (entry : Entry) : Decidable entry.IsLogged := inferInstanceAs (Decidable (_ ∨ _))

/-- The address under which an entry is printed. -/
def Mappings.emitted (m : Mappings) (entry : Entry) : Option UInt64 :=
  if entry.IsLogged then some entry.address
  else if m.isPmAddr entry.address then some (m.remap entry.address)
  else none

theorem retain_emitted (I : PMTraceInput) (m : Mappings) {entry : ReadEntry} (htraced : entry.IsTraced)
    (hbytes : ¬(entry.type = .stType ∧ entry.length = 0)) :
    ∃ record, I.retain m entry = .ok (m, record) ∧
      record.map (fun r => (r.op.address, r.op.length)) =
        (m.emitted entry.toEntry).map fun a => (some a, entry.printedLength) := by
  unfold PMTraceInput.retain
  rcases htraced with htype | htype | htype | htype <;> simp only [htype]
  · have hlength : entry.length ≠ 0 := fun hzero => hbytes ⟨htype, hzero⟩
    by_cases hpm : m.isPmAddr entry.address = true
    · rw [if_pos ⟨hpm, hlength⟩]
      exact ⟨_, rfl, by simp [Mappings.emitted, Entry.IsLogged, Entry.printedLength, htype, hpm, PMTraceInput.record,
        PMOp.address, PMOp.length]⟩
    · rw [if_neg fun hkept => hpm hkept.1]
      exact ⟨_, rfl, by simp [Mappings.emitted, Entry.IsLogged, htype, hpm]⟩
  · by_cases hpm : m.isPmAddr entry.address = true
    · rw [if_pos hpm]
      exact ⟨_, rfl, by simp [Mappings.emitted, Entry.IsLogged, Entry.printedLength, htype, hpm, PMTraceInput.record,
        PMOp.address, PMOp.length]⟩
    · rw [if_neg hpm]
      exact ⟨_, rfl, by simp [Mappings.emitted, Entry.IsLogged, htype, hpm]⟩
  · exact ⟨_, rfl, by simp [Mappings.emitted, Entry.IsLogged, Entry.printedLength, htype, PMTraceInput.record,
      PMOp.address, PMOp.length]⟩
  · exact ⟨_, rfl, by simp [Mappings.emitted, Entry.IsLogged, Entry.printedLength, htype, PMTraceInput.record,
      PMOp.address, PMOp.length]⟩

/-- Stores and flushes are printed under their canonical address; a logged range only when it lies in the
region. -/
theorem traceAgrees_iff {m : Mappings} (h : m.Aliased) (I : PMTraceInput) {entry : ReadEntry} (htraced : entry.IsTraced) :
    TraceAgrees I m entry ↔ (entry.IsLogged → m.InRegion entry.address) := by
  by_cases hbytes : entry.type = .stType ∧ entry.length = 0
  · have hnot : ¬entry.IsLogged := by simp [Entry.IsLogged, hbytes.1]
    exact ⟨fun _ hlogged => absurd hlogged hnot, fun _ => .inl hbytes⟩
  · have hinj : Function.Injective fun a : UInt64 => (some a, entry.printedLength) := by
      intro a b hab
      exact Option.some.inj (Prod.mk.inj hab).1
    obtain ⟨record, hretain, hrecord⟩ := retain_emitted I m htraced hbytes
    have hemitted : TraceAgrees I m entry ↔ m.emitted entry.toEntry = m.canonical entry.address := by
      rw [TraceAgrees, hretain, ← (Option.map_injective hinj).eq_iff, ← hrecord]
      simp [hbytes]
    rw [hemitted, Mappings.emitted]
    split_ifs with hlogged hpm
    · rw [eq_comm, h.canonical_eq_self_iff]
      simp [hlogged]
    · rw [← h.remap_eq, if_pos hpm]
      simp [hlogged]
    · rw [← h.remap_eq, if_neg hpm]
      simp [hlogged]

/-! ### What the dependence graph emits -/

section

variable {ν : Type} [DecidableEq ν]

/-- The execution at a trace index belongs to the program dependence graph. -/
def SlicerInput.Depends (S : SlicerInput ν) (entry : Entry) (i : Nat) : Prop :=
  ∃ d, S.getDynValueFromIndex entry.id i = some d ∧ S.pdg.contains d = true

/-- A vertex for the entry at index `i`, with its address and length. -/
def PPDG.HasVertex (g : PPDG ν) (i : Nat) (address length : UInt64) : Prop :=
  ∃ v ∈ g.vertices, v.2.traceIndex = i ∧ v.2.traceEntry.address = address ∧ v.2.traceEntry.length = length

/-- The vertex of an entry. -/
def SlicerInput.vertexOf (S : SlicerInput ν) (entry : Entry × Nat) : List (DynValue ν × TraceInfo) :=
  if entry.1.IsAccess ∧ S.pmAddrRange.isInRange entry.1.address then
    match S.getDynValueFromIndex entry.1.id entry.2 with
    | some d => if S.pdg.contains d then [(d, ⟨entry.2, entry.1, S.locateSrcInfo entry.1.id⟩)] else []
    | none => []
  else []

theorem generateVertex_vertices {S : SlicerInput ν} {g g' : PPDG ν} {entry : Entry × Nat}
    (h : generateVertex S g entry = some g') : g'.vertices = g.vertices ++ S.vertexOf entry := by
  rw [generateVertex] at h
  rw [SlicerInput.vertexOf]
  split_ifs at h with htype hrange
  · cases h
    rw [if_neg, List.append_nil]
    exact fun hand => hand.1.elim htype.1 htype.2
  · cases h
    rw [if_neg, List.append_nil]
    exact fun hand => by simp [hand.2] at hrange
  · have haccess : entry.1.IsAccess ∧ S.pmAddrRange.isInRange entry.1.address = true := by
      refine ⟨?_, by simpa using hrange⟩
      rw [not_and_or, not_not, not_not] at htype
      exact htype
    rw [if_pos haccess]
    split at h
    · cases h
    · rename_i d hd
      rw [hd]
      split_ifs at h with hin
      · cases h
        simp only [Bool.not_eq_true'] at hin
        simp [hin]
      · rw [(createVertex_cases h).1]
        simp only [Bool.not_eq_true, Bool.not_eq_false'] at hin
        simp [hin]

theorem generateVertices_vertices {S : SlicerInput ν} {trace : List Entry} {g : PPDG ν}
    (h : generateVertices S trace = some g) :
    g.vertices = trace.zipIdx.flatMap S.vertexOf := by
  suffices hloop : ∀ (entries : List (Entry × Nat)) (g₀ g : PPDG ν), entries.foldlM (generateVertex S) g₀ = some g →
      g.vertices = g₀.vertices ++ entries.flatMap S.vertexOf from hloop trace.zipIdx PPDG.empty g h
  intro entries
  induction entries with
  | nil =>
      intro g₀ g hrun
      cases hrun
      rw [List.flatMap_nil, List.append_nil]
  | cons e entries ih =>
      intro g₀ g hrun
      rw [List.foldlM_cons, Option.bind_eq_bind, Option.bind_eq_some_iff] at hrun
      obtain ⟨g₁, hstep, hrun⟩ := hrun
      rw [ih g₁ g hrun, generateVertex_vertices hstep, List.flatMap_cons, List.append_assoc]

/-- The vertices of an access that the program dependence graph contains: one for its own address, if that is
in the closed range. -/
theorem hasVertex_iff {S : SlicerInput ν} {entries : List Entry} {g : PPDG ν} (h : generateVertices S entries = some g)
    {i : Nat} {entry : Entry} (hentry : entries[i]? = some entry) (haccess : entry.IsAccess) (hdepends : S.Depends entry i)
    (address length : UInt64) :
    g.HasVertex i address length ↔
      (if S.pmAddrRange.isInRange entry.address then some entry.address else none) = some address ∧ length = entry.length := by
  obtain ⟨d, hd, hcontains⟩ := hdepends
  have hvertex : S.vertexOf (entry, i) =
      if S.pmAddrRange.isInRange entry.address then [(d, ⟨i, entry, S.locateSrcInfo entry.id⟩)] else [] := by
    simp [SlicerInput.vertexOf, haccess, hd, hcontains]
  have hindex : ∀ (e : Entry × Nat), ∀ v ∈ S.vertexOf e, v.2.traceIndex = e.2 := by
    intro e v hv
    unfold SlicerInput.vertexOf at hv
    split_ifs at hv
    · split at hv
      · split_ifs at hv
        · rw [List.mem_singleton.mp hv]
        · cases hv
      · cases hv
    · cases hv
  rw [PPDG.HasVertex, generateVertices_vertices h]
  constructor
  · rintro ⟨v, hv, rfl, rfl, rfl⟩
    obtain ⟨⟨e, j⟩, he, hv⟩ := List.mem_flatMap.mp hv
    have hj := hindex _ v hv
    rw [List.mem_zipIdx_iff_getElem?] at he
    simp only at hj he
    rw [← hj, hentry] at he
    cases he
    rw [← hj, hvertex] at hv
    split_ifs at hv with hrange
    · rw [List.mem_singleton.mp hv, if_pos hrange]
      exact ⟨rfl, rfl⟩
    · cases hv
  · rintro ⟨hrange, rfl⟩
    split_ifs at hrange with hin
    · cases hrange
      refine ⟨(d, ⟨i, entry, S.locateSrcInfo entry.id⟩), ?_, rfl, rfl, rfl⟩
      apply List.mem_flatMap.mpr
      refine ⟨(entry, i), List.mem_zipIdx_iff_getElem?.mpr hentry, ?_⟩
      rw [hvertex, if_pos hin]
      exact List.mem_cons_self

/-- The vertices of an access carry its canonical address, and there are none when it has none. -/
def VertexAgrees (g : PPDG ν) (m : Mappings) (i : Nat) (entry : Entry) : Prop :=
  ∀ address length, g.HasVertex i address length ↔ m.canonical entry.address = some address ∧ length = entry.length

theorem vertexAgrees_iff {S : SlicerInput ν} {entries : List Entry} {g : PPDG ν} (hg : generateVertices S entries = some g)
    {m : Mappings} (h : m.Aliased) (hrange : S.pmAddrRange = ⟨m.pmAddrStart, m.pmAddrEnd⟩) {i : Nat} {entry : Entry}
    (hentry : entries[i]? = some entry) (haccess : entry.IsAccess) (hdepends : S.Depends entry i) :
    VertexAgrees g m i entry ↔ m.inDup entry.address = false ∧ entry.address ≠ m.pmAddrEnd := by
  have hvertex := hasVertex_iff hg hentry haccess hdepends
  rw [← h.isInRange_iff entry.address, ← hrange]
  constructor
  · intro hagrees
    apply Option.ext
    intro address
    have hiff := (hvertex address entry.length).symm.trans (hagrees address entry.length)
    simpa using hiff
  · intro heq address length
    rw [hvertex address length, heq]

/-! ### One notion -/

/-- Every access entry, at the mappings known when it is reached, is emitted under its canonical address by
each of the passes that emit it. -/
def OneNotion (S : SlicerInput ν) (I : PMTraceInput) (m₀ : Mappings) (entries : List ReadEntry) (g : PPDG ν) : Prop :=
  ∀ i entry s, entries[i]? = some entry →
    WitcherPMTrace.runEntries I ⟨m₀, .empty⟩ (entries.take i) = .ok s →
    (entry.IsTraced → TraceAgrees I s.mappings entry) ∧
      (entry.IsAccess → S.Depends entry.toEntry i → VertexAgrees g s.mappings i entry.toEntry)

/-- Logged ranges lie in the region, and no load or store of the program dependence graph is at the end of the
region or in the second mapping. -/
def InRegionOnly (S : SlicerInput ν) (I : PMTraceInput) (m₀ : Mappings) (entries : List ReadEntry) : Prop :=
  ∀ i entry s, entries[i]? = some entry →
    WitcherPMTrace.runEntries I ⟨m₀, .empty⟩ (entries.take i) = .ok s →
    (entry.IsLogged → s.mappings.InRegion entry.address) ∧
      (entry.IsAccess → S.Depends entry.toEntry i →
        s.mappings.inDup entry.address = false ∧ entry.address ≠ s.mappings.pmAddrEnd)

theorem AliasTrace.sameRegion {m₀ : Mappings} {entries : List ReadEntry} (h : AliasTrace m₀ entries)
    {I : PMTraceInput} {i : Nat} {s : WitcherPMTrace}
    (hs : WitcherPMTrace.runEntries I ⟨m₀, .empty⟩ (entries.take i) = .ok s) : m₀.SameRegion s.mappings := by
  apply WitcherPMTrace.runEntries_sameRegion (fun entry hentry => h.maps entry (List.mem_of_mem_take hentry)) _ hs
  exact ⟨rfl, rfl, Mappings.aliased_of_not_dup h.order h.fresh.2⟩

/-- The passes agree on an entry exactly when it keeps to the region. -/
theorem agrees_iff {S : SlicerInput ν} {I : PMTraceInput} {m₀ : Mappings} {entries : List ReadEntry} {g : PPDG ν}
    (h : AliasTrace m₀ entries) (hrange : S.pmAddrRange = ⟨m₀.pmAddrStart, m₀.pmAddrEnd⟩)
    (hg : generateVertices S (entries.map ReadEntry.toEntry) = some g) {i : Nat} {entry : ReadEntry} {s : WitcherPMTrace}
    (hentry : entries[i]? = some entry) (hs : WitcherPMTrace.runEntries I ⟨m₀, .empty⟩ (entries.take i) = .ok s) :
    ((entry.IsTraced → TraceAgrees I s.mappings entry) ∧
      (entry.IsAccess → S.Depends entry.toEntry i → VertexAgrees g s.mappings i entry.toEntry)) ↔
    ((entry.IsLogged → s.mappings.InRegion entry.address) ∧
      (entry.IsAccess → S.Depends entry.toEntry i →
        s.mappings.inDup entry.address = false ∧ entry.address ≠ s.mappings.pmAddrEnd)) := by
  have hregion := h.sameRegion hs
  have hentry' : (entries.map ReadEntry.toEntry)[i]? = some entry.toEntry := by
    rw [List.getElem?_map, hentry, Option.map_some]
  have hrange' : S.pmAddrRange = ⟨s.mappings.pmAddrStart, s.mappings.pmAddrEnd⟩ := by
    rw [hrange, hregion.start, hregion.stop]
  have htraced : entry.IsLogged → entry.IsTraced := fun hlogged => hlogged.elim (.inr ∘ .inr ∘ .inl) (.inr ∘ .inr ∘ .inr)
  apply and_congr
  · constructor
    · exact fun hagrees hlogged => (traceAgrees_iff hregion.aliased I (htraced hlogged)).mp (hagrees (htraced hlogged)) hlogged
    · exact fun hin ht => (traceAgrees_iff hregion.aliased I ht).mpr hin
  · exact forall_congr' fun haccess => forall_congr' fun hdepends =>
      vertexAgrees_iff hg hregion.aliased hrange' hentry' haccess hdepends

/-- The passes have one notion of persistent address on exactly the traces that keep to the region. -/
theorem oneNotion_iff (S : SlicerInput ν) (I : PMTraceInput) (m₀ : Mappings) (entries : List ReadEntry) (g : PPDG ν)
    (h : AliasTrace m₀ entries) (hrange : S.pmAddrRange = ⟨m₀.pmAddrStart, m₀.pmAddrEnd⟩)
    (hg : generateVertices S (entries.map ReadEntry.toEntry) = some g) :
    OneNotion S I m₀ entries g ↔ InRegionOnly S I m₀ entries := by
  constructor
  · exact fun hone i entry s hentry hs => (agrees_iff h hrange hg hentry hs).mp (hone i entry s hentry hs)
  · exact fun honly i entry s hentry hs => (agrees_iff h hrange hg hentry hs).mpr (honly i entry s hentry hs)

end

/-- Every load and store belongs to the program dependence graph. -/
def oneValue : SlicerInput Nat where
  pdg := ⟨[0], Dict.empty.set ⟨0, 1⟩ 0, []⟩
  heap _ := ⟨0, 1⟩
  getDynValueFromIndex _ _ := some ⟨0, 1⟩
  locateSrcInfo _ := ""
  pmAddrRange := ⟨0x10000000, 0x10100000⟩

def namelessInput : PMTraceInput := ⟨fun _ => [], []⟩

/-- The second mapping of the examples. -/
def dupMapping : ReadEntry := ⟨⟨.mmapType, 1, 9, 0x40000000, 8192⟩, [], by decide⟩

def regionAccesses : List ReadEntry :=
  [dupMapping, ⟨⟨.stType, 2, 9, 0x10000010, 2⟩, [1, 2], by decide⟩, ⟨⟨.flType, 3, 9, 0x40000010, 0⟩, [], by decide⟩,
    ⟨⟨.txaddType, 4, 9, 0x10000010, 2⟩, [], by decide⟩]

theorem aliasTrace_of_cons {entries : List ReadEntry} (hnoEnd : ∀ entry ∈ entries, entry.isEnd = false)
    (hmaps : ∀ entry ∈ entries, entry.type ≠ .mmapType) : AliasTrace (.init 0x10000000 1) (dupMapping :: entries) where
  order := by decide
  fresh := ⟨rfl, rfl⟩
  noEnd := List.forall_mem_cons.mpr ⟨by decide, hnoEnd⟩
  maps := by
    intro entry hentry htype _ _
    rcases List.mem_cons.mp hentry with rfl | hentry
    · exact ⟨by decide, by decide, by decide⟩
    · exact absurd htype (hmaps entry hentry)

/-- A store, a flush through the second mapping and a logged range, all of one address. -/
theorem oneNotion_regionAccesses : ∃ g, generateVertices oneValue (regionAccesses.map ReadEntry.toEntry) = some g ∧
    g.HasVertex 1 0x10000010 2 ∧ OneNotion oneValue namelessInput (.init 0x10000000 1) regionAccesses g := by
  have htrace : AliasTrace (.init 0x10000000 1) regionAccesses := aliasTrace_of_cons (by decide) (by decide)
  obtain ⟨g, hg⟩ : ∃ g, generateVertices oneValue (regionAccesses.map ReadEntry.toEntry) = some g := ⟨_, rfl⟩
  refine ⟨g, hg, ?_, (oneNotion_iff oneValue namelessInput (.init 0x10000000 1) regionAccesses g htrace rfl hg).mpr ?_⟩
  · cases hg
    exact ⟨_, List.mem_cons_self, rfl, rfl, rfl⟩
  · intro i entry s hentry hs
    have hregion := htrace.sameRegion hs
    have hin : ∀ entry ∈ regionAccesses, entry.IsLogged ∨ entry.IsAccess →
        (Mappings.init 0x10000000 1).InRegion entry.address := by decide
    have hin' : entry.IsLogged ∨ entry.IsAccess → s.mappings.InRegion entry.address := by
      rw [Mappings.InRegion, hregion.start, hregion.stop]
      exact hin entry (List.mem_of_getElem? hentry)
    exact ⟨fun hlogged => hin' (.inl hlogged), fun haccess _ => hregion.aliased.of_inRegion (hin' (.inr haccess))⟩

/-- A store through the second mapping. -/
def aliasedStore : List ReadEntry := [dupMapping, ⟨⟨.stType, 2, 9, 0x40000010, 2⟩, [1, 2], by decide⟩]

/-- The trace prints the store under its address in the region; the graph has no vertex for it. -/
theorem oneNotion_fails_aliasedStore : ∃ g, generateVertices oneValue (aliasedStore.map ReadEntry.toEntry) = some g ∧
    AliasTrace (.init 0x10000000 1) aliasedStore ∧ ¬OneNotion oneValue namelessInput (.init 0x10000000 1) aliasedStore g := by
  have htrace : AliasTrace (.init 0x10000000 1) aliasedStore := aliasTrace_of_cons (by decide) (by decide)
  obtain ⟨g, hg⟩ : ∃ g, generateVertices oneValue (aliasedStore.map ReadEntry.toEntry) = some g := ⟨_, rfl⟩
  refine ⟨g, hg, htrace, ?_⟩
  intro hone
  have hs : WitcherPMTrace.runEntries namelessInput ⟨.init 0x10000000 1, .empty⟩ (aliasedStore.take 1) =
      .ok ⟨⟨0x10000000, 0x10100000, 0x40000000, 0x40002000⟩, .empty⟩ := rfl
  have hagrees := ((agrees_iff htrace rfl hg rfl hs).mp (hone 1 _ _ rfl hs)).2 (.inl rfl) ⟨_, rfl, rfl⟩
  exact absurd hagrees.1 (by decide)

end Witcher

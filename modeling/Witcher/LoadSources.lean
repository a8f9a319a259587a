import Witcher.LastWriters

/-! The sources of a load (`getSourcesForLoad`): the executions of the stores whose bytes it read. A load that reads more than
one range makes a record for each of them. -/

namespace Witcher.TraceScan

open Loops

variable {ν β φ : Type} [DecidableEq φ]

namespace Recording

/-- The loop of the plain `findPreviousID` over the records up to an index, the last one first. -/
def findPreviousIDFrom (type : RecordType) (tid : UInt64) (id : UInt32) : List Entry → Option Nat
  | [] => none
  | entry :: rest =>
      if entry.type = type ∧ entry.tid = tid ∧ entry.id = id then some rest.length else findPreviousIDFrom type tid id rest

/-- The last record up to an index, whatever activation it is of. In place of a missing block record it is the end record. -/
def findPreviousID (T : Recording ν) (start_index : Nat) (type : RecordType) (tid : UInt64) (id : UInt32) :
    Except SearchError Nat :=
  if start_index < T.trace.length then
    match findPreviousIDFrom type tid id (T.trace.take (start_index + 1)).reverse with
    | some index => .ok index
    | none =>
        if type = .bbType then
          match T.trace.reverse.findIdx? fun entry => entry.type = .enType with
          | some back => .ok (T.maxIndex - back)
          | none => .error .readsOutside
        else .error .fatalError
  else .error .readsOutside

end Recording

namespace LoadedTrace

/-- Further load records with the number, from the last one that was found on. -/
def loadIndices (T : LoadedTrace ν β φ) (tid : UInt64) (loadID : UInt32) : Nat → Nat → Except SearchError (List Nat)
  | 0, _ => .ok []
  | count + 1, start_index => do
      let index ← T.toRecording.findPreviousID (indexBefore start_index) .ldType tid loadID
      let rest ← T.loadIndices tid loadID count index
      .ok (index :: rest)

/-- An address of zero means that the load is lost. -/
def sourcesOfLoad (T : LoadedTrace ν β φ) (block_index : Nat) : Except SearchError (List (DynValue ν) × Nat) :=
  match T.trace[block_index]? with
  | none => .error .readsOutside
  | some load_entry =>
      if load_entry.address = 0 then .ok ([], 1)
      else T.findAllStoresForLoad (T.trace.take block_index).reverse load_entry

def sourcesOfLoads (T : LoadedTrace ν β φ) : List Nat → Except SearchError (List (DynValue ν) × Nat)
  | [] => .ok ([], 0)
  | block_index :: rest => do
      let found ← T.sourcesOfLoad block_index
      let others ← T.sourcesOfLoads rest
      .ok (found.1 ++ others.1, found.2 + others.2)

/-- The sources, the number of lost loads and the values that are not looked for again. `lsID` numbers the instructions. -/
def getSourcesForLoad [DecidableEq ν] (T : LoadedTrace ν β φ) (lsID : ν → UInt32) (blockOf : ν → Option β)
    (buggy : BuggyValues ν β) (DV : DynValue ν) (count : Nat) :
    Except SearchError ((List (DynValue ν) × Nat) × BuggyValues ν β) :=
  if lsID DV.V = 0 then .error .assertionFails
  else if count = 0 then .ok (([], 0), buggy)
  else do
    let (normalized, buggy) ← T.normalize blockOf buggy DV
    match normalized with
    | none => .ok (([], 0), buggy)
    | some DV =>
        match T.trace[DV.index]? with
        | none => .error .readsOutside
        | some entry => do
            let start_index ← T.findPreviousNestedID DV.index .ldType entry.tid (lsID DV.V) (T.getID DV.V)
            let rest ← T.loadIndices entry.tid (lsID DV.V) (count - 1) start_index
            let found ← T.sourcesOfLoads (start_index :: rest)
            .ok (found, buggy)

end LoadedTrace

end Witcher.TraceScan

namespace Witcher.Instrumentation

open Runs TraceScan Loops Writers

variable {ν β φ : Type} [DecidableEq φ] {P : Program} {x y z : Event} {i j k : Nat}

/-! ### The last stores of a run -/

/-- Before `i` the record `z` at `k` is the last one of a store to the byte. -/
structure LastStoreOf (events : List Event) (b i k : Nat) (z : Event) : Prop where
  get : events[k]? = some z
  lt : k < i
  type : z.entry.type = .stType
  covers : z.entry.Covers b
  none_between : ∀ m u, k < m → m < i → events[m]? = some u → u.entry.type = .stType → ¬u.entry.Covers b

section LastStores

variable {T : Recording ν} {R : RecordedRun P T} {b : Nat} {store : Entry} {older : List Entry}

theorem take_eq_append {l : List Entry} {entry : Entry} (hk : l[k]? = some entry) (hlt : k < i) :
    l.take i = l.take k ++ entry :: (l.take i).drop (k + 1) := by
  obtain ⟨hlength, rfl⟩ := List.getElem?_eq_some_iff.mp hk
  have hk' : k < (l.take i).length := by
    rw [List.length_take]
    omega
  have htake : (l.take i).take k = l.take k := by rw [List.take_take, Nat.min_eq_left (Nat.le_of_lt hlt)]
  rw [← htake, ← List.getElem_take (h := hk'), List.getElem_cons_drop, List.take_append_drop]

theorem reverse_take_eq {l : List Entry} {entry : Entry} (hk : l[k]? = some entry) (hlt : k < i) :
    (l.take i).reverse = ((l.take i).drop (k + 1)).reverse ++ entry :: (l.take k).reverse := by
  conv_lhs => rw [take_eq_append hk hlt]
  rw [List.reverse_append, List.reverse_cons, List.append_assoc]
  rfl

theorem RecordedRun.getElem?_event (R : RecordedRun P T) (hi : R.events[i]? = some x) {entry : Entry} (hlt : k < i)
    (hk : T.trace[k]? = some entry) : ∃ z, R.events[k]? = some z ∧ z.entry = entry := by
  obtain ⟨hlength, -⟩ := List.getElem?_eq_some_iff.mp hi
  have hevent := List.getElem?_eq_getElem (l := R.events) (i := k) (by omega)
  exact ⟨_, hevent, Option.some.inj ((R.getElem?_trace hevent).symm.trans hk)⟩

theorem LastStoreOf.lastStore (h : LastStoreOf R.events b i k z) (hi : R.events[i]? = some x) :
    LastStore b (T.trace.take i).reverse z.entry (T.trace.take k).reverse := by
  refine lastWriter_iff.mpr ⟨_, reverse_take_eq (R.getElem?_trace h.get) h.lt, ⟨h.type, h.covers⟩, fun w hw hcovers => ?_⟩
  obtain ⟨d, hd, rfl⟩ := List.getElem_of_mem (List.mem_reverse.mp hw)
  have hlt : k + 1 + d < i := by
    rw [List.length_drop, List.length_take] at hd
    omega
  rw [List.getElem_drop, List.getElem_take] at hcovers
  obtain ⟨u, hu, hentry⟩ := R.getElem?_event hi hlt (List.getElem?_eq_getElem _)
  rw [← hentry] at hcovers
  exact h.none_between _ u (by omega) hlt hu hcovers.1 hcovers.2

/-- A record before `i`, with those between them. -/
theorem RecordedRun.exists_of_append (R : RecordedRun P T) (hi : R.events[i]? = some x) {newer : List Entry}
    (heq : (T.trace.take i).reverse = newer ++ store :: older) :
    ∃ k z, R.events[k]? = some z ∧ k < i ∧ z.entry = store ∧ older = (T.trace.take k).reverse ∧
      ∀ m u, k < m → m < i → R.events[m]? = some u → u.entry ∈ newer := by
  have htake := congrArg List.reverse heq
  rw [List.reverse_reverse, List.reverse_append, List.reverse_cons, List.append_assoc, List.singleton_append] at htake
  have hlength := congrArg List.length htake
  rw [List.length_append, List.length_cons, List.length_take, List.length_reverse, List.length_reverse] at hlength
  have hget : ∀ m, m < i → T.trace[m]? = (older.reverse ++ store :: newer.reverse)[m]? := fun m hm => by
    rw [← htake, List.getElem?_take_of_lt hm]
  have hstore : T.trace[older.length]? = some store := by
    rw [hget _ (by omega), List.getElem?_append_right (by rw [List.length_reverse]), List.length_reverse, Nat.sub_self,
      List.getElem?_cons_zero]
  obtain ⟨z, hz, rfl⟩ := R.getElem?_event hi (by omega) hstore
  refine ⟨older.length, z, hz, by omega, rfl, ?_, fun m u hm hlt hu => ?_⟩
  · have hprefix := congrArg (List.take older.length) htake
    rw [List.take_take, Nat.min_eq_left (by omega), ← older.length_reverse, List.take_left] at hprefix
    rw [← older.length_reverse, hprefix, List.reverse_reverse]
  · have hu := (hget m hlt).symm.trans (R.getElem?_trace hu)
    obtain ⟨d, rfl⟩ := Nat.exists_eq_add_of_lt hm
    rw [List.getElem?_append_right (by rw [List.length_reverse]; omega), List.length_reverse,
      show older.length + d + 1 - older.length = d + 1 by omega, List.getElem?_cons_succ] at hu
    exact List.mem_reverse.mp (List.mem_of_getElem? hu)

theorem exists_lastStoreOf (h : LastStore b (T.trace.take i).reverse store older) (hi : R.events[i]? = some x) :
    ∃ k z, LastStoreOf R.events b i k z ∧ z.entry = store ∧ older = (T.trace.take k).reverse := by
  obtain ⟨newer, heq, ⟨htype, hcovers⟩, hnewer⟩ := lastWriter_iff.mp h
  obtain ⟨k, z, hz, hlt, rfl, hprefix, hmem⟩ := R.exists_of_append hi heq
  exact ⟨k, z, ⟨hz, hlt, htype, hcovers, fun m u hm hmi hu hst hu' => hnewer _ (hmem m u hm hmi hu) ⟨hst, hu'⟩⟩, rfl, hprefix⟩

end LastStores

/-! ### The executions of the stores -/

/-- Between the record `z` at `k` and the index `l` its thread has no other record of the instruction and ends no execution of
the block. -/
def Quiet (events : List Event) (k : Nat) (z : Event) (l : Nat) : Prop :=
  ∀ m u, k < m → m < l → events[m]? = some u → u.entry.tid = z.entry.tid →
    (u.entry.type = .bbType → u.entry.id ≠ z.exec.block) ∧ (u.entry.type ≠ .bbType → u.entry.id ≠ z.entry.id)

/-- The execution that the record `z` is of has ended with the block record at `l`. -/
structure EndsAt (events : List Event) (z : Event) (l : Nat) (w : Event) : Prop where
  get : events[l]? = some w
  type : w.entry.type = .bbType
  tid_eq : w.entry.tid = z.entry.tid
  exec_eq : w.exec = z.exec

section StoreBlocks

variable {T : Recording ν} {R : RecordedRun P T} {w : Event} {l : Nat}

theorem findNextNestedIDFrom_quiet {block nestID : UInt32} {tid : UInt64} {mid : List Event} {index : Nat} {rest : List Entry}
    (hmid : ∀ u ∈ mid, u.entry.tid = tid → (u.entry.type = .bbType → u.entry.id ≠ block) ∧
      (u.entry.type ≠ .bbType → u.entry.id ≠ nestID)) (hw : w.entry.type = .bbType ∧ w.entry.id = block ∧ w.entry.tid = tid) :
    Recording.findNextNestedIDFrom .bbType block nestID tid 0 index (mid.map Event.entry ++ w.entry :: rest) =
      .ok (index + mid.length) := by
  induction mid generalizing index with
  | nil => exact findNextNestedIDFrom_found hw
  | cons u mid ih =>
      obtain ⟨hu, hmid⟩ := List.forall_mem_cons.mp hmid
      rw [List.map_cons, List.cons_append,
        findNextNestedIDFrom_skip (fun h => (hu h.2.2).1 h.1 h.2.1) fun h => (hu h.2.2).2 h.1 h.2.1,
        ih hmid, List.length_cons, Nat.add_right_comm, Nat.add_assoc]

/-- The block record is found if the executions that are nested in this one are counted, or there are none. -/
theorem EndsAt.findNextNestedID_eq (h : EndsAt R.events z l w) (hz : R.events[k]? = some z) (htype : z.entry.type ≠ .bbType)
    (hsearch : P.Once (Slot.ofInstruction z.entry.id) z.exec.block ∨ Quiet R.events k z l) :
    T.findNextNestedID (k + 1) .bbType z.exec.block z.entry.id z.entry.tid = .ok l := by
  rcases hsearch with honce | hquiet
  · exact R.findNextNestedID_eq hz h.get h.tid_eq h.exec_eq htype h.type honce
  · have hlt := R.lt_block hz h.get h.tid_eq h.exec_eq htype h.type
    obtain ⟨before, mid, after, hevents, rfl, rfl⟩ := exists_append_of_lt hz h.get hlt
    have hid : w.entry.id = z.exec.block := h.exec_eq ▸ (R.block_fields (List.mem_of_getElem? h.get) h.type).1
    rw [Recording.findNextNestedID, R.drop_first hevents]
    refine findNextNestedIDFrom_quiet (fun u hu htid => ?_) ⟨h.type, hid, h.tid_eq⟩
    obtain ⟨d, hd, rfl⟩ := List.getElem_of_mem hu
    refine hquiet (before.length + 1 + d) _ (by omega) (by omega) ?_ htid
    rw [hevents, List.getElem?_append_right (by omega), show before.length + 1 + d - before.length = d + 1 by omega,
      List.getElem?_cons_succ, List.getElem?_append_left hd, List.getElem?_eq_getElem hd]

/-- The stores before `i`: they are of the blocks their numbers say, and their executions have ended and are found. -/
structure StoresTraceable (P : Program) (T : Recording ν) (events : List Event) (i : Nat) : Prop where
  sound : ∀ k z, events[k]? = some z → k < i → z.entry.type = .stType → z.entry.SoundStore
  getID : ∀ k z, events[k]? = some z → k < i → z.entry.type = .stType → T.getID (T.getInstByID z.entry.id) = z.exec.block
  ends : ∀ k z, events[k]? = some z → k < i → z.entry.type = .stType → ∃ l w, EndsAt events z l w ∧
    (P.Once (Slot.ofInstruction z.entry.id) z.exec.block ∨ Quiet events k z l)

theorem StoresTraceable.storeBlock_eq (h : StoresTraceable P T R.events i) (hz : R.events[k]? = some z) (hlt : k < i)
    (htype : z.entry.type = .stType) (hw : EndsAt R.events z l w) : T.storeBlock k z.entry = .ok l := by
  obtain ⟨l', w', hends, hsearch⟩ := h.ends k z hz hlt htype
  obtain rfl : l' = l := R.block_unique hends.get hw.get (hw.tid_eq.trans hends.tid_eq.symm)
    (hw.exec_eq.trans hends.exec_eq.symm)
    hends.type hw.type
  rw [Recording.storeBlock, h.getID k z hz hlt htype]
  exact hends.findNextNestedID_eq hz (by rw [htype]; decide) hsearch

theorem StoresTraceable.storesFound (h : StoresTraceable P T R.events i) (hi : R.events[i]? = some x) :
    StoresFound T (T.trace.take i).reverse := by
  intro newer store older heq htype
  obtain ⟨k, z, hz, hlt, rfl, rfl, -⟩ := R.exists_of_append hi heq
  obtain ⟨l, w, hw, -⟩ := h.ends k z hz hlt htype
  refine ⟨h.sound k z hz hlt htype, l, ?_⟩
  rw [List.length_reverse, List.length_take_of_le (Nat.le_of_lt (R.lt_length hz))]
  exact h.storeBlock_eq hz hlt htype hw

end StoreBlocks

/-! ### The sources of an execution of a load -/

section Sources

variable {T : LoadedTrace ν β φ} {R : RecordedRun P T.toRecording}

/-- The store execution `d` wrote one of the bytes last before the load record at `i`. -/
def StoreSource (T : Recording ν) (events : List Event) (load : Entry) (i : Nat) (d : DynValue ν) : Prop :=
  ∃ b k z l w, load.Covers b ∧ LastStoreOf events b i k z ∧ EndsAt events z l w ∧ d = ⟨T.getInstByID z.entry.id, l⟩

theorem StoresTraceable.sourcesOfLoad_eq (h : StoresTraceable P T.toRecording R.events i) (hi : R.events[i]? = some x)
    (hload : x.entry.Fits) (haddress : x.entry.address ≠ 0) (hlength : 0 < x.entry.length.toNat) :
    ∃ found, T.sourcesOfLoad i = .ok found ∧ (∀ d, d ∈ found.1 ↔ StoreSource T.toRecording R.events x.entry i d) ∧
      (found.2 = 0 ↔ ∀ b, x.entry.Covers b →
        ∃ k z, R.events[k]? = some z ∧ k < i ∧ z.entry.type = .stType ∧ z.entry.Covers b) := by
  obtain ⟨found, heq, hmem, hlost⟩ := findAllStoresForLoad_storesOf (h.storesFound hi) hload hlength
  refine ⟨found, ?_, fun d => ?_, ?_⟩
  · rw [LoadedTrace.sourcesOfLoad, R.getElem?_trace hi]
    simp only
    rw [if_neg haddress, heq]
  · rw [hmem]
    constructor
    · rintro ⟨b, store, older, hb, hlast, hV, hindex⟩
      obtain ⟨k, z, hz, rfl, rfl⟩ := exists_lastStoreOf hlast hi
      obtain ⟨l, w, hw, -⟩ := h.ends k z hz.get hz.lt hz.type
      rw [List.length_reverse, List.length_take_of_le (Nat.le_of_lt (R.lt_length hz.get)),
        h.storeBlock_eq hz.get hz.lt hz.type hw] at hindex
      refine ⟨b, k, z, l, w, hb, hz, hw, ?_⟩
      rw [Except.ok.inj hindex, ← hV]
    · rintro ⟨b, k, z, l, w, hb, hz, hw, rfl⟩
      refine ⟨b, _, _, hb, hz.lastStore hi, rfl, ?_⟩
      rw [List.length_reverse, List.length_take_of_le (Nat.le_of_lt (R.lt_length hz.get))]
      exact h.storeBlock_eq hz.get hz.lt hz.type hw
  · rw [hlost]
    refine forall₂_congr fun b _ => ⟨?_, ?_⟩
    · rintro ⟨store, hstore, htype, hcovers⟩
      obtain ⟨newer, older, heq⟩ := List.append_of_mem hstore
      obtain ⟨k, z, hz, hlt, rfl, -, -⟩ := R.exists_of_append hi heq
      exact ⟨k, z, hz, hlt, htype, hcovers⟩
    · rintro ⟨k, z, hz, hlt, htype, hcovers⟩
      refine ⟨z.entry, ?_, htype, hcovers⟩
      rw [reverse_take_eq (R.getElem?_trace hz) hlt]
      exact List.mem_append_cons_self

/-- The execution of a load has the store executions for its sources that wrote its bytes last, and no others. -/
theorem getSourcesForLoad_eq [DecidableEq ν] {lsID : ν → UInt32} {blockOf : ν → Option β} {buggy : BuggyValues ν β}
    {V : ν} {BB : β} (hi : R.events[i]? = some x) (hx : x.entry.type = .ldType) (hid : x.entry.id = lsID V)
    (hnumber : lsID V ≠ 0) (hend : EndsAt R.events x j y) (hblock : blockOf V = some BB) (hBB : T.getID V = T.blockID BB)
    (hexec : x.exec.block = T.blockID BB) (hbuggy : V ∉ buggy.values) (honce : P.Once (· == x.slot) x.exec.block)
    (hload : x.entry.Fits) (haddress : x.entry.address ≠ 0) (hlength : 0 < x.entry.length.toNat)
    (hstores : StoresTraceable P T.toRecording R.events i) :
    ∃ found, T.getSourcesForLoad lsID blockOf buggy ⟨V, j⟩ 1 = .ok (found, buggy) ∧
      (∀ d, d ∈ found.1 ↔ StoreSource T.toRecording R.events x.entry i d) ∧
      (found.2 = 0 ↔ ∀ b, x.entry.Covers b →
        ∃ k z, R.events[k]? = some z ∧ k < i ∧ z.entry.type = .stType ∧ z.entry.Covers b) := by
  obtain ⟨found, heq, hfound⟩ := hstores.sourcesOfLoad_eq hi hload haddress hlength
  refine ⟨found, ?_, hfound⟩
  have hy : y.entry.id = T.blockID BB := by
    rw [(R.block_fields (List.mem_of_getElem? hend.get) hend.type).1, hend.exec_eq, hexec]
  have hnested := R.findPreviousNestedID_eq hi hend.get hend.tid_eq hend.exec_eq (by rw [hx]; decide) hend.type honce
  rw [hx, hid, hexec, ← hend.tid_eq] at hnested
  rw [LoadedTrace.getSourcesForLoad, if_neg hnumber, if_neg Nat.one_ne_zero, LoadedTrace.normalize, if_neg hbuggy, hblock]
  simp only
  rw [R.findBlock_self hend.get hend.type hy]
  simp only [ok_bind]
  rw [if_pos hend.type]
  simp only [ok_bind]
  rw [R.getElem?_trace hend.get]
  simp only
  rw [hBB, hnested, ok_bind, Nat.sub_self, LoadedTrace.loadIndices, ok_bind, LoadedTrace.sourcesOfLoads, heq, ok_bind,
    LoadedTrace.sourcesOfLoads, ok_bind, List.append_nil, Nat.add_zero, ok_bind]

end Sources

/-! ### The function that calls itself -/

/-- The two stores before the load of the middle activation, which overlap each other. -/
theorem recursive_store (hk : recursiveEvents[k]? = some z) (hlt : k < 6) (htype : z.entry.type = .stType) :
    (k = 1 ∧ z = recursiveRecord .stType 3 0x601000 2 0 2) ∨ (k = 5 ∧ z = recursiveRecord .stType 3 0x601004 5 3 2) := by
  interval_cases k <;> cases hk <;> first
    | exact absurd htype (by decide)
    | exact .inl ⟨rfl, rfl⟩
    | exact .inr ⟨rfl, rfl⟩

theorem storesTraceable_recursive : StoresTraceable recursiveProgram recursiveRecording recursiveEvents 6 where
  sound := by
    intro k z hk hlt htype
    rcases recursive_store hk hlt htype with ⟨-, rfl⟩ | ⟨-, rfl⟩ <;> exact ⟨by unfold Entry.Fits; decide, by decide⟩
  getID := by
    intro k z hk hlt htype
    rcases recursive_store hk hlt htype with ⟨-, rfl⟩ | ⟨-, rfl⟩ <;> rfl
  ends := by
    intro k z hk hlt htype
    rcases recursive_store hk hlt htype with ⟨-, rfl⟩ | ⟨-, rfl⟩
    · exact ⟨14, _, ⟨rfl, rfl, rfl, rfl⟩, .inl (once_recursive rfl)⟩
    · exact ⟨11, _, ⟨rfl, rfl, rfl, rfl⟩, .inl (once_recursive rfl)⟩

/-- The load of the middle activation has its lower half from the store of the outer one. -/
theorem getSourcesForLoad_recursive :
    ∃ found, recursiveTrace.getSourcesForLoad id recursiveBlockOf ⟨[], []⟩ ⟨1, 11⟩ 1 = .ok (found, ⟨[], []⟩) ∧
      (∀ d, d ∈ found.1 ↔ StoreSource recursiveTrace.toRecording recursive.events ⟨.ldType, 1, 7, 0x601000, 8⟩ 6 d) ∧
      (found.2 = 0 ↔ ∀ b, Entry.Covers ⟨.ldType, 1, 7, 0x601000, 8⟩ b → ∃ k z, recursive.events[k]? = some z ∧ k < 6 ∧
        z.entry.type = .stType ∧ z.entry.Covers b) :=
  getSourcesForLoad_eq (T := recursiveTrace) (R := recursive) (i := 6) (x := recursiveRecord .ldType 1 0x601000 5 3 2)
    (y := recursiveBlock 5 3 2) rfl rfl (show (1 : UInt32) = id 1 from rfl) (by decide) ⟨rfl, rfl, rfl, rfl⟩
    (rfl : recursiveBlockOf 1 = some 2) rfl rfl List.not_mem_nil (once_recursive rfl)
    (by unfold Entry.Fits; decide) (by decide) (by decide) storesTraceable_recursive

/-- Both stores are sources of it. -/
example : recursiveTrace.getSourcesForLoad id recursiveBlockOf ⟨[], []⟩ ⟨1, 11⟩ 1 =
    .ok (([⟨3, 11⟩, ⟨3, 14⟩], 0), ⟨[], []⟩) := rfl

end Witcher.Instrumentation

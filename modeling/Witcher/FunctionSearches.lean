import Witcher.Dict
import Witcher.NestedSearches

/-! The search of `TraceFile.cpp` for the record of a block of a function, which skips other activations of the function.
It counts the calls and returns of the function, whose address it knows from the first call in the trace. It does not look at
record 0 unless it begins there. -/

namespace Witcher.TraceScan

variable {ν β φ : Type} [DecidableEq φ]

/-- The map from functions to their addresses, from the call records before the end record. -/
def buildTraceFunAddrMap (calledFunction : UInt32 → Option φ) :
    Dict φ UInt64 → List Entry → Except SearchError (Dict φ UInt64)
  | _, [] => .error .readsOutside
  | traceFunAddrMap, entry :: rest =>
      if entry.type = .enType then .ok traceFunAddrMap
      else if entry.type = .clType then
        match calledFunction entry.id with
        | none => buildTraceFunAddrMap calledFunction traceFunAddrMap rest
        | some fn =>
            match traceFunAddrMap.get? fn with
            | some _ => buildTraceFunAddrMap calledFunction traceFunAddrMap rest
            | none => buildTraceFunAddrMap calledFunction (traceFunAddrMap.set fn entry.address) rest
      else buildTraceFunAddrMap calledFunction traceFunAddrMap rest

/-- A trace that was read, with what the program says of values, calls and blocks. -/
structure LoadedTrace (ν β φ : Type) [DecidableEq φ] extends Recording ν where
  isConstant : ν → Bool
  calledFunction : ν → Option φ
  blockID : β → UInt32
  getBlock : UInt32 → β
  getParent : β → φ
  traceFunAddrMap : Dict φ UInt64
  built : buildTraceFunAddrMap (fun id => calledFunction (getInstByID id)) Dict.empty trace = .ok traceFunAddrMap

section AddressMap

variable {calledFunction : UInt32 → Option φ} {traceFunAddrMap result : Dict φ UInt64} {entry : Entry} {trace rest : List Entry}
  {fn : φ} {a : UInt64}

/-- One record before the end record: it adds an address for the function it calls, if there is none. -/
theorem buildTraceFunAddrMap_cons (calledFunction : UInt32 → Option φ) (traceFunAddrMap : Dict φ UInt64) (rest : List Entry)
    (hend : entry.type ≠ .enType) :
    ∃ next : Dict φ UInt64, buildTraceFunAddrMap calledFunction traceFunAddrMap (entry :: rest) =
        buildTraceFunAddrMap calledFunction next rest ∧
      (∀ fn a, traceFunAddrMap.get? fn = some a → next.get? fn = some a) ∧
      (∀ fn a, next.get? fn = some a → traceFunAddrMap.get? fn = some a ∨
        entry.type = .clType ∧ calledFunction entry.id = some fn ∧ entry.address = a) ∧
      ∀ fn, entry.type = .clType → calledFunction entry.id = some fn → next.get? fn ≠ none := by
  rw [buildTraceFunAddrMap, if_neg hend]
  by_cases hcall : entry.type = .clType
  · rw [if_pos hcall]
    match hcalled : calledFunction entry.id with
    | none => exact ⟨traceFunAddrMap, rfl, fun _ _ h => h, fun _ _ h => .inl h, fun _ _ h => nomatch h⟩
    | some fn =>
        simp only
        match hget : traceFunAddrMap.get? fn with
        | some a =>
            refine ⟨traceFunAddrMap, rfl, fun _ _ h => h, fun _ _ h => .inl h, ?_⟩
            rintro fn' - hfn
            cases hfn
            rw [hget]
            exact Option.some_ne_none a
        | none =>
            refine ⟨traceFunAddrMap.set fn entry.address, rfl, fun fn' a h => ?_, fun fn' a h => ?_, ?_⟩
            · rw [Dict.get?_set, if_neg]
              · exact h
              · rintro rfl
                cases hget.symm.trans h
            · rw [Dict.get?_set] at h
              split_ifs at h with hfn
              · exact .inr ⟨hcall, by rw [hfn], Option.some.inj h⟩
              · exact .inl h
            · rintro fn' - hfn
              cases hfn
              rw [Dict.get?_set, if_pos rfl]
              exact Option.some_ne_none _
  · rw [if_neg hcall]
    exact ⟨traceFunAddrMap, rfl, fun _ _ h => h, fun _ _ h => .inl h, fun _ h => (hcall h).elim⟩

theorem buildTraceFunAddrMap_source (h : buildTraceFunAddrMap calledFunction traceFunAddrMap trace = .ok result)
    (hget : result.get? fn = some a) : traceFunAddrMap.get? fn = some a ∨
      ∃ entry ∈ trace, entry.type = .clType ∧ calledFunction entry.id = some fn ∧ entry.address = a := by
  induction trace generalizing traceFunAddrMap with
  | nil => cases h
  | cons entry rest ih =>
      by_cases hend : entry.type = .enType
      · rw [buildTraceFunAddrMap, if_pos hend] at h
        cases h
        exact .inl hget
      · obtain ⟨next, heq, -, hsource, -⟩ := buildTraceFunAddrMap_cons calledFunction traceFunAddrMap rest hend
        rcases ih (heq.symm.trans h) with hnext | ⟨call, hmem, hcall⟩
        · rcases hsource fn a hnext with hold | hentry
          · exact .inl hold
          · exact .inr ⟨entry, List.mem_cons_self, hentry⟩
        · exact .inr ⟨call, List.mem_cons_of_mem _ hmem, hcall⟩

theorem buildTraceFunAddrMap_mono (h : buildTraceFunAddrMap calledFunction traceFunAddrMap trace = .ok result)
    (hget : traceFunAddrMap.get? fn ≠ none) : result.get? fn ≠ none := by
  induction trace generalizing traceFunAddrMap with
  | nil => cases h
  | cons entry rest ih =>
      by_cases hend : entry.type = .enType
      · rw [buildTraceFunAddrMap, if_pos hend] at h
        cases h
        exact hget
      · obtain ⟨next, heq, hkeep, -⟩ := buildTraceFunAddrMap_cons calledFunction traceFunAddrMap rest hend
        obtain ⟨a, ha⟩ := Option.ne_none_iff_exists'.mp hget
        exact ih (heq.symm.trans h) (by rw [hkeep fn a ha]; exact Option.some_ne_none a)

/-- Every function that a record before the end record calls has an address. -/
theorem buildTraceFunAddrMap_complete (h : buildTraceFunAddrMap calledFunction traceFunAddrMap (trace ++ rest) = .ok result)
    (hend : ∀ entry ∈ trace, entry.type ≠ .enType) (hmem : entry ∈ trace) (htype : entry.type = .clType)
    (hcalled : calledFunction entry.id = some fn) : result.get? fn ≠ none := by
  induction trace generalizing traceFunAddrMap with
  | nil => cases hmem
  | cons first trace ih =>
      obtain ⟨hfirst, hend⟩ := List.forall_mem_cons.mp hend
      obtain ⟨next, heq, -, -, hadded⟩ := buildTraceFunAddrMap_cons calledFunction traceFunAddrMap (trace ++ rest) hfirst
      have hnext : buildTraceFunAddrMap calledFunction next (trace ++ rest) = .ok result := heq.symm.trans h
      rcases List.mem_cons.mp hmem with rfl | hmem
      · exact buildTraceFunAddrMap_mono hnext (hadded fn htype hcalled)
      · exact ih hnext hend hmem

end AddressMap

namespace LoadedTrace

/-- Where the function has no call in the trace, an address that nothing matches. -/
def funAddr (T : LoadedTrace ν β φ) (fn : φ) : UInt64 := (T.traceFunAddrMap.get? fn).getD (0 - 1)

/-- The loop of `findPreviousID` over the records up to an index, the last one first. -/
def findPreviousIDFrom (maxIndex : Nat) (funAddr : UInt64) (type : RecordType) (tid : UInt64) (ids : List UInt32) :
    Int → List Entry → Except SearchError Nat
  | nesting, [] => if nesting < 0 then .error .assertionFails else .error .readsOutside
  | nesting, entry :: rest =>
      if nesting < 0 then .error .assertionFails
      else if (entry.type = type ∧ entry.tid = tid ∧ entry.id ∈ ids) ∧
          (nesting = 0 ∨ nesting = 1 ∧ type = .clType ∧ entry.type = .clType ∧ entry.tid = tid ∧ entry.address = funAddr) then
        .ok rest.length
      else
        let nesting := if entry.type = .rtType ∧ entry.tid = tid ∧ entry.address = funAddr then nesting + 1 else nesting
        let nesting := if entry.type = .clType ∧ entry.tid = tid ∧ entry.address = funAddr then nesting - 1 else nesting
        -- The loop ends before record 0.
        if rest.length = 1 then .ok maxIndex else findPreviousIDFrom maxIndex funAddr type tid ids nesting rest

def findPreviousID (T : LoadedTrace ν β φ) (fn : φ) (start_index : Nat) (type : RecordType) (tid : UInt64)
    (ids : List UInt32) : Except SearchError Nat :=
  if start_index < T.trace.length then
    findPreviousIDFrom T.maxIndex (T.funAddr fn) type tid ids 0 (T.trace.take (start_index + 1)).reverse
  else .error .readsOutside

/-! ### One record of the loop -/

section Loop

variable {maxIndex : Nat} {funAddr tid : UInt64} {ids : List UInt32} {nesting : Int} {entry : Entry} {rest : List Entry}

theorem findPreviousIDFrom_found (hentry : entry.type = .bbType ∧ entry.tid = tid ∧ entry.id ∈ ids) :
    findPreviousIDFrom maxIndex funAddr .bbType tid ids 0 (entry :: rest) = .ok rest.length := by
  rw [findPreviousIDFrom, if_neg (by decide), if_pos ⟨hentry, .inl rfl⟩]

/-- At a record that is looked for, the search finds it. -/
theorem findPreviousID_found {T : LoadedTrace ν β φ} {fn : φ} {i : Nat} (hget : T.trace[i]? = some entry)
    (htype : entry.type = .bbType) (hmem : entry.id ∈ ids) : T.findPreviousID fn i .bbType entry.tid ids = .ok i := by
  obtain ⟨hlt, rfl⟩ := List.getElem?_eq_some_iff.mp hget
  rw [findPreviousID, if_pos hlt, List.take_succ_eq_append_getElem hlt, List.reverse_append, List.reverse_singleton,
    List.singleton_append, findPreviousIDFrom_found ⟨htype, rfl, hmem⟩, List.length_reverse,
      List.length_take_of_le (Nat.le_of_lt hlt)]

theorem not_found (hentry : (entry.type = .bbType ∧ entry.tid = tid ∧ entry.id ∈ ids) → nesting ≠ 0) :
    ¬((entry.type = .bbType ∧ entry.tid = tid ∧ entry.id ∈ ids) ∧
      (nesting = 0 ∨ nesting = 1 ∧ (RecordType.bbType : RecordType) = .clType ∧ entry.type = .clType ∧ entry.tid = tid ∧
        entry.address = funAddr)) := by
  rintro ⟨hmatch, hzero | ⟨-, htype, -⟩⟩
  · exact hentry hmatch hzero
  · cases htype

theorem findPreviousIDFrom_pass (hnesting : 0 ≤ nesting)
    (hentry : (entry.type = .bbType ∧ entry.tid = tid ∧ entry.id ∈ ids) → nesting ≠ 0) (hrest : rest.length ≠ 1) :
    findPreviousIDFrom maxIndex funAddr .bbType tid ids nesting (entry :: rest) =
      findPreviousIDFrom maxIndex funAddr .bbType tid ids
        (nesting + (if entry.type = .rtType ∧ entry.tid = tid ∧ entry.address = funAddr then 1 else 0) -
          if entry.type = .clType ∧ entry.tid = tid ∧ entry.address = funAddr then 1 else 0) rest := by
  rw [findPreviousIDFrom, if_neg (Int.not_lt.mpr hnesting), if_neg (not_found hentry)]
  simp only
  rw [if_neg hrest]
  congr 1
  split_ifs <;> omega

theorem findPreviousIDFrom_last (hnesting : 0 ≤ nesting)
    (hentry : (entry.type = .bbType ∧ entry.tid = tid ∧ entry.id ∈ ids) → nesting ≠ 0) (hrest : rest.length = 1) :
    findPreviousIDFrom maxIndex funAddr .bbType tid ids nesting (entry :: rest) = .ok maxIndex := by
  rw [findPreviousIDFrom, if_neg (Int.not_lt.mpr hnesting), if_neg (not_found hentry)]
  simp only
  rw [if_pos hrest]

end Loop

end LoadedTrace

end Witcher.TraceScan

namespace Witcher.Instrumentation

open Runs TraceScan

variable {P : Program} {tid : UInt64} {s t : Thread} {label : Option Event} {x y z : Event} {f : UInt64}

/-! ### The activations of a function -/

def Thread.activationsOf (f : UInt64) (s : Thread) : Nat := s.stack.countP fun a => a.function == f

/-- The record of a call of the function, in the thread. -/
def Event.Calls (tid f : UInt64) (x : Event) : Prop := x.entry.type = .clType ∧ x.entry.tid = tid ∧ x.entry.address = f

def Event.Returns (tid f : UInt64) (x : Event) : Prop := x.entry.type = .rtType ∧ x.entry.tid = tid ∧ x.entry.address = f

instance (tid f : UInt64) (x : Event) : Decidable (x.Calls tid f) := inferInstanceAs (Decidable (_ ∧ _))

instance (tid f : UInt64) (x : Event) : Decidable (x.Returns tid f) := inferInstanceAs (Decidable (_ ∧ _))

theorem countP_function {a : Activation} {stack : List Activation} :
    (a :: stack).countP (fun a => a.function == f) =
      stack.countP (fun a => a.function == f) + if a.function = f then 1 else 0 := by
  split_ifs with hf
  · exact List.countP_cons_of_pos (beq_iff_eq.mpr hf)
  · exact List.countP_cons_of_neg fun h => hf (beq_iff_eq.mp h)

theorem Step.activationsOf_silent (h : Step P tid s none t) (hdirect : ¬P.indirect f) (hs : s.stack ≠ []) (ht : t.stack ≠ []) :
    t.activationsOf f = s.activationsOf f := by
  have hne : ∀ {function : UInt64}, P.indirect function → function ≠ f := by
    rintro function hindirect rfl
    exact hdirect hindirect
  cases h with
  | begin function => exact (hs rfl).elim
  | enter hindirect => rw [Thread.activationsOf, countP_function, if_neg (hne hindirect), Nat.add_zero, Thread.activationsOf]
  | leave hindirect =>
      symm
      rw [Thread.activationsOf, countP_function, if_neg (hne hindirect), Nat.add_zero, Thread.activationsOf]
  | exit => exact (ht rfl).elim
  | recordStartBB hrecords => rw [Thread.activationsOf, Thread.activationsOf, countP_function, countP_function]

/-- Calls and returns of the function change the number of its activations. An external function has no blocks. -/
theorem Step.activationsOf_record (h : Step P tid s (some x) t) (hf : ∃ block, P.blockFunction block = f) :
    (t.activationsOf f + if x.Returns tid f then 1 else 0) = s.activationsOf f + if x.Calls tid f then 1 else 0 := by
  cases h with
  | recordBB htype hid htid haddress =>
      rw [if_neg fun h => (by cases htype.symm.trans h.1), if_neg fun h => (by cases htype.symm.trans h.1),
        Thread.activationsOf, Thread.activationsOf, countP_function, countP_function]
  | @recordCall number function call e id slots stack next entry htype hid htid haddress =>
      have hcalls : (⟨entry, e, number⟩ : Event).Calls tid f ↔ P.callee id = f := by
        rw [Event.Calls, haddress]
        exact ⟨fun h => h.2.2, fun h => ⟨htype, htid, h⟩⟩
      rw [if_neg fun h => (by cases htype.symm.trans h.1), Thread.activationsOf, Thread.activationsOf, countP_function,
        countP_function, countP_function]
      simp only [hcalls, Nat.add_zero]
  | @recordReturn inner number function call e id slots stack next entry htype hid htid haddress =>
      have hreturns : (⟨entry, e, number⟩ : Event).Returns tid f ↔ P.callee id = f := by
        rw [Event.Returns, haddress]
        exact ⟨fun h => h.2.2, fun h => ⟨htype, htid, h⟩⟩
      have hcalls : ¬(⟨entry, e, number⟩ : Event).Calls tid f := fun h => by cases htype.symm.trans h.1
      rw [if_neg hcalls, Thread.activationsOf, Thread.activationsOf, countP_function, countP_function, countP_function]
      simp only [hreturns, Nat.add_zero]
  | @record number function call e slot slots stack next entry htype hblock hend hid htid hexternal =>
      obtain ⟨block, rfl⟩ := hf
      have hcalls : ¬(⟨entry, e, number⟩ : Event).Calls tid (P.blockFunction block) :=
        fun h => (hexternal (.inl (htype.symm.trans h.1))).2 block h.2.2.symm
      have hreturns : ¬(⟨entry, e, number⟩ : Event).Returns tid (P.blockFunction block) :=
        fun h => (hexternal (.inr (htype.symm.trans h.1))).2 block h.2.2.symm
      rw [if_neg hcalls, if_neg hreturns, Thread.activationsOf, Thread.activationsOf, countP_function, countP_function]

/-! ### Inside of an activation -/

/-- The activation with the number `n`, of the function `f`, has not ended. Below it the stack is `outer`. -/
structure Thread.InActivation (n : Nat) (f : UInt64) (outer : List Activation) (s : Thread) : Prop where
  distinct : s.Distinct
  active : ∃ inner a, s.stack = inner ++ a :: outer ∧ a.number = n ∧ a.function = f

variable {n : Nat} {outer : List Activation}

theorem Activation.Goes.same {a a' : Activation} {next : Nat} (h : a.Goes P next label a') :
    a'.number = a.number ∧ a'.function = a.function := by
  cases h <;> exact ⟨rfl, rfl⟩

theorem Watched.inActivation (h : Watched P tid s label t) (hs : s.InActivation n f outer) :
    t.InActivation n f outer ∨ t.Gone n := by
  rcases h with h | ⟨x, -, -, rfl⟩
  · obtain ⟨inner, a, hstack, hnumber, hfunction⟩ := hs.active
    rcases h.goes hstack with ⟨inner', a', hstack', hgoes⟩ | ⟨rfl, -, hnext, hnumbers⟩
    · exact .inl ⟨h.distinct hs.distinct, inner', a', hstack', hgoes.same.1.trans hnumber, hgoes.same.2.trans hfunction⟩
    · have hnodup := hs.distinct.nodup
      have hlt := hs.distinct.lt_next
      rw [Thread.numbers, hstack, List.nil_append, List.flatMap_cons, Activation.numbers, hnumber,
        List.cons_append] at hnodup hlt
      refine .inr ⟨fun hmem => (List.nodup_cons.mp hnodup).1 ?_, hnext ▸ hlt n List.mem_cons_self⟩
      rw [hnumbers] at hmem
      exact List.mem_append_right _ hmem
  · exact .inl hs

theorem Thread.InActivation.ne_nil (hs : s.InActivation n f outer) : s.stack ≠ [] := by
  obtain ⟨inner, a, hstack, -⟩ := hs.active
  rw [hstack]
  exact List.append_ne_nil_of_right_ne_nil _ (List.cons_ne_nil _ _)

/-- The number of the activations of the function that this one has led to. -/
def Thread.NestedActivations (f : UInt64) (outer : List Activation) (k : Nat) (s : Thread) : Prop :=
  k + (outer.countP (fun a => a.function == f) + 1) = s.activationsOf f

theorem Thread.InActivation.le_activationsOf (hs : s.InActivation n f outer) :
    outer.countP (fun a => a.function == f) + 1 ≤ s.activationsOf f := by
  obtain ⟨inner, a, hstack, -, hfunction⟩ := hs.active
  rw [Thread.activationsOf, hstack, List.countP_append, countP_function, if_pos hfunction]
  omega

/-- Where the activation is on top, nothing that it has called runs. -/
theorem Thread.InActivation.outer_eq (hs : s.InActivation n f outer) {a : Activation} {stack : List Activation}
    (hstack : s.stack = a :: stack) (hnumber : a.number = n) : stack = outer ∧ a.function = f := by
  obtain ⟨inner, b, hstack', hnumber', hfunction⟩ := hs.active
  cases inner with
  | nil =>
      obtain ⟨rfl, rfl⟩ := List.cons.inj (hstack.symm.trans hstack')
      exact ⟨rfl, hfunction⟩
  | cons first inner =>
      exfalso
      obtain ⟨rfl, -⟩ := List.cons.inj (hstack.symm.trans hstack')
      have hnodup := hs.distinct.nodup
      rw [Thread.numbers, hstack', List.cons_append, List.flatMap_cons, Activation.numbers, List.cons_append] at hnodup
      refine (List.nodup_cons.mp hnodup).1 (List.mem_append_right _ (List.mem_flatMap.mpr ⟨b, List.mem_append_cons_self, ?_⟩))
      rw [Activation.numbers, hnumber, ← hnumber']
      exact List.mem_cons_self

theorem Watched.activationsOf_record (h : Watched P tid s (some x) t) (hf : ∃ block, P.blockFunction block = f) :
    (t.activationsOf f + if x.Returns tid f then 1 else 0) = s.activationsOf f + if x.Calls tid f then 1 else 0 := by
  by_cases htid : x.entry.tid = tid
  · exact (h.step htid).activationsOf_record hf
  · rw [if_neg fun h => htid h.2.1, if_neg fun h => htid h.2.1, h.eq_of_foreign htid]

theorem Watched.activationsOf_silent (h : Watched P tid s none t) (hdirect : ¬P.indirect f) (hs : s.stack ≠ [])
    (ht : t.stack ≠ []) :
    t.activationsOf f = s.activationsOf f := by
  rcases h with h | ⟨x, hlabel, -⟩
  · exact h.activationsOf_silent hdirect hs ht
  · cases hlabel

/-! ### The search inside of an activation -/

theorem Thread.InActivation.lt_activationsOf (hs : s.InActivation n f outer) {a : Activation} {stack : List Activation}
    (hstack : s.stack = a :: stack) (hnumber : a.number ≠ n) (hfunction : a.function = f) :
    outer.countP (fun a => a.function == f) + 1 < s.activationsOf f := by
  obtain ⟨inner, b, hstack', hnumber', hfunction'⟩ := hs.active
  cases inner with
  | nil => exact (hnumber ((List.cons.inj (hstack.symm.trans hstack')).1 ▸ hnumber')).elim
  | cons first inner =>
      obtain ⟨rfl, -⟩ := List.cons.inj (hstack.symm.trans hstack')
      rw [Thread.activationsOf, hstack', List.cons_append, countP_function, if_pos hfunction, List.countP_append,
        countP_function, if_pos hfunction']
      omega

variable {mid : List Event} {funAddr : UInt64} {ids : List UInt32} {maxIndex : Nat} {suffix : List Entry}

/-- What the search passes over on its way through the activation `n`. -/
structure Passed (tid f funAddr : UInt64) (ids : List UInt32) (n : Nat) (z : Event) : Prop where
  address_iff : z.entry.tid = tid → z.entry.type = .clType ∨ z.entry.type = .rtType →
    (z.entry.address = funAddr ↔ z.entry.address = f)
  id_notMem : z.entry.type = .bbType → z.entry.tid = tid → z.activation = n → z.entry.id ∉ ids

theorem Passed.calls_iff (h : Passed tid f funAddr ids n z) :
    z.Calls tid f ↔ z.entry.type = .clType ∧ z.entry.tid = tid ∧ z.entry.address = funAddr :=
  ⟨fun ⟨htype, htid, haddress⟩ => ⟨htype, htid, (h.address_iff htid (.inl htype)).mpr haddress⟩,
    fun ⟨htype, htid, haddress⟩ => ⟨htype, htid, (h.address_iff htid (.inl htype)).mp haddress⟩⟩

theorem Passed.returns_iff (h : Passed tid f funAddr ids n z) :
    z.Returns tid f ↔ z.entry.type = .rtType ∧ z.entry.tid = tid ∧ z.entry.address = funAddr :=
  ⟨fun ⟨htype, htid, haddress⟩ => ⟨htype, htid, (h.address_iff htid (.inr htype)).mpr haddress⟩,
    fun ⟨htype, htid, haddress⟩ => ⟨htype, htid, (h.address_iff htid (.inr htype)).mp haddress⟩⟩

/-- The search looks for blocks of the function `f`, which is entered with a record only. -/
structure Searchable (P : Program) (f : UInt64) (ids : List UInt32) : Prop where
  hasBlock : ∃ block, P.blockFunction block = f
  direct : ¬P.indirect f
  function_eq : ∀ id ∈ ids, P.blockFunction id = f

/-- A block record that is looked for is of another activation of the function, and then the counter is not zero. -/
theorem Watched.not_found (h : Watched P tid s (some z) t) (hs : s.InActivation n f outer) (hf : Searchable P f ids)
    (hz : Passed tid f funAddr ids n z) (hmatch : z.entry.type = .bbType ∧ z.entry.tid = tid ∧ z.entry.id ∈ ids) :
    outer.countP (fun a => a.function == f) + 1 < s.activationsOf f := by
  obtain ⟨htype, htid, hmem⟩ := hmatch
  obtain ⟨stack, a, hstack, -, -, hnumber, hfunction, hid, -⟩ := (h.step htid).of_block htype
  refine hs.lt_activationsOf hstack (fun heq => hz.id_notMem htype htid (hnumber.symm.trans heq) hmem) ?_
  rw [hfunction, ← hid]
  exact hf.function_eq _ hmem

/-- The loop reads the records backwards. With two or more records before them it does not end among them. -/
theorem findPreviousIDFrom_follow (maxIndex : Nat) (suffix : List Entry) (hf : Searchable P f ids)
    (hrun : Emits (fun a label b => (Watched P tid a label b ∧ a.InActivation n f outer ∧ b.InActivation n f outer) ∧
      ∀ x, label = some x → Passed tid f funAddr ids n x) s mid t)
    (ht : t.NestedActivations f outer 0) (hsuffix : 2 ≤ suffix.length) :
    ∃ k : Nat, s.NestedActivations f outer k ∧
      LoadedTrace.findPreviousIDFrom maxIndex funAddr .bbType tid ids 0 (mid.reverse.map Event.entry ++ suffix) =
        LoadedTrace.findPreviousIDFrom maxIndex funAddr .bbType tid ids k suffix := by
  have hread := hrun.converse.follow (k := 0) Event.entry
    (fun k _ rest => LoadedTrace.findPreviousIDFrom maxIndex funAddr .bbType tid ids (k : Nat) (rest ++ suffix))
    (Thread.NestedActivations f outer) ?_ ?_ ht
  · obtain ⟨k, hk, heq⟩ := hread
    refine ⟨k, hk, ?_⟩
    have hnil := heq 0 []
    rwa [List.append_nil] at hnil
  · rintro k a b hk ⟨⟨hstep, hb, ha⟩, -⟩
    exact hk.trans (hstep.activationsOf_silent hf.direct hb.ne_nil ha.ne_nil)
  · rintro k a z b hk ⟨⟨hstep, hb, ha⟩, hpassed⟩
    have hz := hpassed z rfl
    have hcount := hstep.activationsOf_record hf.hasBlock
    have hle := hb.le_activationsOf
    rw [Thread.NestedActivations] at hk
    have hentry : z.entry.type = .bbType ∧ z.entry.tid = tid ∧ z.entry.id ∈ ids → (k : Int) ≠ 0 := by
      intro hmatch
      have hlt := hstep.not_found hb hf hz hmatch
      rw [if_neg fun h => (by cases hmatch.1.symm.trans h.1), if_neg fun h => (by cases hmatch.1.symm.trans h.1)] at hcount
      omega
    refine ⟨b.activationsOf f - (outer.countP (fun a => a.function == f) + 1), ?_, fun i rest => ?_⟩
    · rw [Thread.NestedActivations]
      omega
    · rw [List.cons_append, LoadedTrace.findPreviousIDFrom_pass (Int.natCast_nonneg k) hentry]
      · congr 1
        simp only [← hz.calls_iff, ← hz.returns_iff]
        split_ifs at hcount ⊢ <;> omega
      · rw [List.length_append]
        omega

/-! ### The addresses of the functions -/

/-- The trace was recorded by the program: all calls with records are direct ones. `address` is where a function is. -/
structure Linked {ν β φ : Type} [DecidableEq φ] (P : Program) (T : LoadedTrace ν β φ) (address : φ → UInt64) : Prop where
  injective : Function.Injective address
  ne_max : ∀ fn, address fn ≠ 0 - 1
  callee : ∀ block slots id, P.records block slots → callSlot id ∈ slots ∨ returnSlot id ∈ slots →
    ∃ fn, T.calledFunction (T.getInstByID id) = some fn ∧ P.callee id = address fn
  blockFunction : ∀ b, P.blockFunction (T.blockID b) = address (T.getParent b)
  blockID_getBlock : ∀ block slots, P.records block slots → T.blockID (T.getBlock block) = block

section Addresses

variable {ν β φ : Type} [DecidableEq φ] {T : LoadedTrace ν β φ} {address : φ → UInt64} {fn : φ}

theorem Linked.call_fields (hL : Linked P T address) (R : RecordedRun P T.toRecording) :
    ∀ x ∈ R.events, x.entry.type = .clType ∨ x.entry.type = .rtType →
      ∃ fn, T.calledFunction (T.getInstByID x.entry.id) = some fn ∧ x.entry.address = address fn := by
  refine R.forall_events fun s x t hs hstep hx => ?_
  have hblock : x.entry.type ≠ .bbType := by rcases hx with h | h <;> rw [h] <;> decide
  obtain ⟨slots, hrecords, hmem⟩ := hstep.slot_mem hs hblock
  have hslot : callSlot x.entry.id ∈ slots ∨ returnSlot x.entry.id ∈ slots := by
    rw [Event.slot] at hmem
    rcases hx with h | h <;> rw [h] at hmem
    · exact .inl hmem
    · exact .inr hmem
  obtain ⟨fn, hfn, hcallee⟩ := hL.callee _ _ _ hrecords hslot
  exact ⟨fn, hfn, (hstep.call_address hx).trans hcallee⟩

theorem Linked.numbered (hL : Linked P T address) (R : RecordedRun P T.toRecording) {x : Event} (hmem : x ∈ R.events)
    (hx : x.entry.type = .bbType) : T.blockID (T.getBlock x.entry.id) = x.entry.id := by
  refine R.forall_events (C := fun x => x.entry.type = .bbType → T.blockID (T.getBlock x.entry.id) = x.entry.id)
    (fun s x t hs hstep hx => ?_) x hmem hx
  obtain ⟨stack, a, hstack, -, hruns, -, -, hid, -⟩ := hstep.of_block hx
  obtain ⟨made, hmade⟩ := hs a (hstack ▸ List.mem_cons_self) _ _ hruns
  rw [hid]
  exact hL.blockID_getBlock _ _ hmade

/-- A function that is never called with a record does not return with one. -/
theorem Step.not_called (h : Step P tid s label t) (hf : ∃ block, P.blockFunction block = f)
    (hcall : ∀ x, label = some x → ¬x.Calls tid f) (hs : ∀ a ∈ s.stack, a.call ≠ none → a.function ≠ f) :
    (∀ a ∈ t.stack, a.call ≠ none → a.function ≠ f) ∧ ∀ x, label = some x → ¬x.Returns tid f := by
  cases h with
  | begin function => exact ⟨List.forall_mem_singleton.mpr fun h => (h rfl).elim, fun _ h => nomatch h⟩
  | enter hindirect => exact ⟨List.forall_mem_cons.mpr ⟨fun h => (h rfl).elim, hs⟩, fun _ h => nomatch h⟩
  | leave hindirect => exact ⟨(List.forall_mem_cons.mp hs).2, fun _ h => nomatch h⟩
  | exit => exact ⟨fun _ h => (nomatch h), fun _ h => nomatch h⟩
  | recordStartBB hrecords => exact ⟨List.forall_mem_cons.mpr (List.forall_mem_cons.mp hs), fun _ h => nomatch h⟩
  | recordBB htype hid htid haddress =>
      refine ⟨List.forall_mem_cons.mpr (List.forall_mem_cons.mp hs), ?_⟩
      rintro x ⟨⟩ h
      cases htype.symm.trans h.1
  | recordCall htype hid htid haddress =>
      refine ⟨List.forall_mem_cons.mpr ⟨fun _ hfn => ?_, List.forall_mem_cons.mpr (List.forall_mem_cons.mp hs)⟩, ?_⟩
      · exact hcall _ rfl ⟨htype, htid, haddress.trans hfn⟩
      · rintro x ⟨⟩ h
        cases htype.symm.trans h.1
  | recordReturn htype hid htid haddress =>
      obtain ⟨hinner, hs⟩ := List.forall_mem_cons.mp hs
      refine ⟨List.forall_mem_cons.mpr (List.forall_mem_cons.mp hs), ?_⟩
      rintro x ⟨⟩ h
      exact hinner (Option.some_ne_none _) (haddress.symm.trans h.2.2)
  | record htype hblock hend hid htid hexternal =>
      refine ⟨List.forall_mem_cons.mpr (List.forall_mem_cons.mp hs), ?_⟩
      rintro x ⟨⟩ h
      obtain ⟨block, rfl⟩ := hf
      exact (hexternal (.inr (htype.symm.trans h.1))).2 block h.2.2.symm

theorem RecordedRun.not_returned {ν : Type} {T : Recording ν} (R : RecordedRun P T) (hf : ∃ block, P.blockFunction block = f)
    (hcall : ∀ x ∈ R.events, ¬x.Calls tid f) : ∀ x ∈ R.events, ¬x.Returns tid f := by
  obtain ⟨final, hrun⟩ := R.watched tid
  refine ((hrun.labelled hcall).invariant (I := fun s => ∀ a ∈ s.stack, a.call ≠ none → a.function ≠ f)
    (fun s label t hs ⟨hstep, hlabel⟩ => ?_) (fun s x t hs ⟨hstep, hlabel⟩ => ?_) fun _ hmem => nomatch hmem).2
  · rcases hstep with hstep | ⟨x, -, -, rfl⟩
    · exact (hstep.not_called hf hlabel hs).1
    · exact hs
  · rcases hstep with hstep | ⟨y, hy, hown, -⟩
    · exact (hstep.not_called hf hlabel hs).2 x rfl
    · cases hy
      exact fun h => of_decide_eq_false hown h.2.1

/-- The address that the search has for a function tells its calls and returns from the others. -/
theorem Linked.address_iff (hL : Linked P T address) (R : RecordedRun P T.toRecording)
    (hf : ∃ block, P.blockFunction block = address fn) {z : Event} (hz : z ∈ R.events)
    (htype : z.entry.type = .clType ∨ z.entry.type = .rtType) :
    z.entry.address = T.funAddr fn ↔ z.entry.address = address fn := by
  match hget : T.traceFunAddrMap.get? fn with
  | some a =>
      have ha : a = address fn := by
        rcases buildTraceFunAddrMap_source T.built hget with h | ⟨entry, hmem, hcall, hcalled, rfl⟩
        · cases h
        · rw [R.trace_eq, List.mem_append, List.mem_append, List.mem_singleton] at hmem
          rcases hmem with hmem | hmem | rfl
          · obtain ⟨x, hx, rfl⟩ := List.mem_map.mp hmem
            obtain ⟨fn', hfn', haddress⟩ := hL.call_fields R x hx (.inl hcall)
            rw [haddress, Option.some.inj (hfn'.symm.trans hcalled)]
          · cases hcall.symm.trans (R.closing_type entry hmem)
          · cases hcall.symm.trans R.stop_type
      rw [LoadedTrace.funAddr, hget, ha]
      rfl
  | none =>
      have hcall : ∀ x ∈ R.events, ¬x.Calls z.entry.tid (address fn) := by
        rintro x hx ⟨hcl, -, haddress⟩
        obtain ⟨fn', hfn', haddress'⟩ := hL.call_fields R x hx (.inl hcl)
        obtain rfl := hL.injective (haddress'.symm.trans haddress)
        have hbuilt := T.built
        rw [R.trace_eq] at hbuilt
        exact buildTraceFunAddrMap_complete hbuilt
          (List.forall_mem_map.mpr (R.forall_events fun _ _ _ _ hstep => hstep.type_ne_end))
            (List.mem_map_of_mem hx) hcl hfn' hget
      obtain ⟨fn', -, haddress⟩ := hL.call_fields R z hz htype
      rw [LoadedTrace.funAddr, hget]
      refine iff_of_false (fun h => hL.ne_max fn' (haddress.symm.trans h)) fun h => ?_
      rcases htype with hcl | hrt
      · exact hcall z hz ⟨hcl, rfl, h⟩
      · exact R.not_returned hf hcall z hz ⟨hrt, rfl, h⟩

end Addresses

/-! ### The last block of the activation -/

section LastBlock

variable {ν : Type} {T : Recording ν} {before after : List Event}

/-- The run between two block records of one activation stays inside of it. -/
theorem RecordedRun.exists_inside (R : RecordedRun P T) (hevents : R.events = before ++ x :: (mid ++ y :: after))
    (hx : x.entry.type = .bbType) (hy : y.entry.type = .bbType) (htid : y.entry.tid = x.entry.tid)
    (hactivation : y.activation = x.activation) :
    ∃ outer s t, Emits (fun a label b => Watched P x.entry.tid a label b ∧
        a.InActivation x.activation (P.blockFunction x.entry.id) outer ∧
        b.InActivation x.activation (P.blockFunction x.entry.id) outer) s mid t ∧
      s.InActivation x.activation (P.blockFunction x.entry.id) outer ∧
      s.NestedActivations (P.blockFunction x.entry.id) outer 0 ∧ t.NestedActivations (P.blockFunction x.entry.id) outer 0 ∧
      P.blockFunction y.entry.id = P.blockFunction x.entry.id := by
  obtain ⟨final, hrun⟩ := R.watched x.entry.tid
  rw [hevents] at hrun
  obtain ⟨r, s, hbefore, hfirst, hrun⟩ := hrun.split
  obtain ⟨t, u, hmid, hlast, -⟩ := hrun.split
  have hstep := Watched.step hfirst rfl
  have hdistinct := (reached hbefore ⟨Thread.distinct_start, Thread.planned_start⟩).1
  obtain ⟨outer, a, -, hs, -, hnumber, hfunction, hid, -⟩ := hstep.of_block hx
  obtain ⟨outer', b, ht, -, -, hnumber', hfunctiony, hidy, -⟩ := (Watched.step hlast htid).of_block hy
  rw [← hid] at hfunction
  have hinside : s.InActivation x.activation (P.blockFunction x.entry.id) outer :=
    ⟨hstep.distinct hdistinct, [], _, hs, hnumber, hfunction⟩
  have hnumbers : x.activation ∈ t.numbers := by
    rw [Thread.numbers, ht, ← hactivation, ← hnumber']
    exact List.mem_cons_self
  have hrun := hmid.restrict (fun _ _ _ ha hnext => Watched.inActivation hnext ha) (fun _ _ _ ha hnext => Watched.gone hnext ha)
    hinside fun hgone => hgone.not_mem hnumbers
  obtain ⟨rfl, hfunction'⟩ := (hrun.last_of_restrict hinside).outer_eq ht (hnumber'.trans hactivation)
  refine ⟨outer', s, t, hrun, hinside, ?_, ?_, by rw [hidy, ← hfunctiony, hfunction']⟩
  · rw [Thread.NestedActivations, Thread.activationsOf, hs, countP_function, if_pos hfunction, Nat.zero_add]
  · rw [Thread.NestedActivations, Thread.activationsOf, ht, countP_function, if_pos hfunction', Nat.zero_add]

/-- The search through an activation finds its last block record. If that is record 0 it is found only where the search
begins. -/
theorem RecordedRun.findPreviousIDFrom_eq (R : RecordedRun P T) (hevents : R.events = before ++ x :: (mid ++ y :: after))
    (hx : x.entry.type = .bbType) (hy : y.entry.type = .bbType) (htid : y.entry.tid = x.entry.tid)
    (hactivation : y.activation = x.activation) (hf : Searchable P (P.blockFunction x.entry.id) ids) (hmem : x.entry.id ∈ ids)
    (hpassed : ∀ z ∈ mid, Passed x.entry.tid (P.blockFunction x.entry.id) funAddr ids x.activation z) :
    LoadedTrace.findPreviousIDFrom maxIndex funAddr .bbType x.entry.tid ids 0
      (mid.reverse.map Event.entry ++ x.entry :: before.reverse.map Event.entry) =
        .ok (if before = [] ∧ mid ≠ [] then maxIndex else before.length) := by
  obtain ⟨outer, s, t, hrun, hinside, hs, ht, -⟩ := R.exists_inside hevents hx hy htid hactivation
  have hrun := hrun.labelled hpassed
  cases before with
  | cons first before =>
      obtain ⟨k, hk, heq⟩ := findPreviousIDFrom_follow (s := s) maxIndex
        (x.entry :: (first :: before).reverse.map Event.entry) hf hrun ht
        (by simp)
      obtain rfl : k = 0 := by
        rw [Thread.NestedActivations] at hk hs
        omega
      rw [heq, Int.ofNat_zero, LoadedTrace.findPreviousIDFrom_found ⟨hx, rfl, hmem⟩, List.length_map, List.length_reverse,
        if_neg fun h => List.cons_ne_nil _ _ h.1]
  | nil =>
      cases mid with
      | nil => exact LoadedTrace.findPreviousIDFrom_found ⟨hx, rfl, hmem⟩
      | cons z mid =>
          -- The first record after record 0 is the last one that the loop looks at.
          rw [← List.nil_append (z :: mid)] at hrun
          obtain ⟨a, b, -, ⟨⟨hstep, ha, hb⟩, hz⟩, hrun⟩ := hrun.split
          obtain ⟨k, hk, heq⟩ := findPreviousIDFrom_follow (s := b) maxIndex [z.entry, x.entry] hf hrun ht (Nat.le_refl 2)
          have hcount := hstep.activationsOf_record hf.hasBlock
          rw [Thread.NestedActivations] at hk
          have hentry : z.entry.type = .bbType ∧ z.entry.tid = x.entry.tid ∧ z.entry.id ∈ ids → (k : Int) ≠ 0 := by
            intro hmatch
            have hlt := hstep.not_found ha hf (hz z rfl) hmatch
            rw [if_neg fun h => (by cases hmatch.1.symm.trans h.1),
              if_neg fun h => (by cases hmatch.1.symm.trans h.1)] at hcount
            omega
          rw [List.reverse_cons, List.map_append, List.append_assoc, if_pos ⟨rfl, List.cons_ne_nil _ _⟩]
          exact heq.trans (LoadedTrace.findPreviousIDFrom_last (Int.natCast_nonneg k) hentry rfl)

end LastBlock

/-! ### The searches of a trace that was read -/

section Search

variable {ν β φ : Type} [DecidableEq φ] {T : LoadedTrace ν β φ} {address : φ → UInt64} {fn : φ} {i j : Nat}

/-- Blocks of the function `fn`, which is entered with a record only. -/
structure BlocksOf (P : Program) (address : φ → UInt64) (fn : φ) (ids : List UInt32) : Prop where
  direct : ¬P.indirect (address fn)
  function_eq : ∀ id ∈ ids, P.blockFunction id = address fn

/-- The record `x` at `i` is the last one of the blocks `C` before the block record `y` at `j`, of those of its activation. -/
structure LastBefore (events : List Event) (C : UInt32 → Prop) (i : Nat) (x : Event) (j : Nat) (y : Event) : Prop where
  first : events[i]? = some x
  last : events[j]? = some y
  lt : i < j
  first_type : x.entry.type = .bbType
  last_type : y.entry.type = .bbType
  tid_eq : y.entry.tid = x.entry.tid
  activation_eq : y.activation = x.activation
  holds : C x.entry.id
  none_between : ∀ k z, i < k → k < j → events[k]? = some z → z.entry.type = .bbType → z.entry.tid = x.entry.tid →
    z.activation = x.activation → ¬C z.entry.id

theorem LastBefore.mono {events : List Event} {C D : UInt32 → Prop} (h : LastBefore events C i x j y) (hx : D x.entry.id)
    (hD : ∀ id, D id → C id) : LastBefore events D i x j y :=
  { h with
    holds := hx
    none_between := fun k z hi hj hget htype htid hactivation hz =>
      h.none_between k z hi hj hget htype htid hactivation (hD _ hz) }

variable {R : RecordedRun P T.toRecording}

theorem LastBefore.loop_eq (h : LastBefore R.events (· ∈ ids) i x j y) (hL : Linked P T address)
    (hids : BlocksOf P address fn ids) :
    LoadedTrace.findPreviousIDFrom T.maxIndex (T.funAddr fn) .bbType x.entry.tid ids 0 (T.trace.take j).reverse =
      .ok (if i = 0 ∧ j ≠ 1 then T.maxIndex else i) := by
  obtain ⟨before, mid, after, hevents, rfl, rfl⟩ := exists_append_of_lt h.first h.last h.lt
  have hfunction : P.blockFunction x.entry.id = address fn := hids.function_eq _ h.holds
  have hpassed : ∀ z ∈ mid, Passed x.entry.tid (P.blockFunction x.entry.id) (T.funAddr fn) ids x.activation z := by
    intro z hz
    obtain ⟨k, hk, hget⟩ := List.getElem_of_mem hz
    have hevent : R.events[before.length + 1 + k]? = some z := by
      rw [hevents, List.getElem?_append_right (by omega), show before.length + 1 + k - before.length = k + 1 by omega,
        List.getElem?_cons_succ, List.getElem?_append_left hk, List.getElem?_eq_getElem hk, hget]
    refine ⟨fun _ htype => ?_, h.none_between _ z (by omega) (by omega) hevent⟩
    rw [hfunction]
    exact hL.address_iff R ⟨_, hfunction⟩ (List.mem_of_getElem? hevent) htype
  rw [R.reverse_take_last hevents, R.findPreviousIDFrom_eq hevents h.first_type h.last_type h.tid_eq h.activation_eq
    ⟨⟨_, rfl⟩, hfunction ▸ hids.direct, fun id hid => (hids.function_eq id hid).trans hfunction.symm⟩ h.holds hpassed]
  have hiff : (before = [] ∧ mid ≠ []) ↔ (before.length = 0 ∧ before.length + 1 + mid.length ≠ 1) := by
    rw [← List.length_pos_iff, ← List.length_eq_zero_iff]
    omega
  simp only [hiff]

theorem RecordedRun.getElem?_trace {ν : Type} {T : Recording ν} (R : RecordedRun P T) (h : R.events[j]? = some y) :
    T.trace[j]? = some y.entry := by
  obtain ⟨hj, rfl⟩ := List.getElem?_eq_some_iff.mp h
  rw [R.trace_eq, List.getElem?_append_left (by rwa [List.length_map]), List.getElem?_map, List.getElem?_eq_getElem hj,
    Option.map_some]

theorem RecordedRun.lt_length {ν : Type} {T : Recording ν} (R : RecordedRun P T) (h : R.events[j]? = some y) :
    j < T.trace.length :=
  (List.getElem?_eq_some_iff.mp (R.getElem?_trace h)).choose

theorem RecordedRun.reverse_take_succ {ν : Type} {T : Recording ν} (R : RecordedRun P T) (h : R.events[j]? = some y) :
    (T.trace.take (j + 1)).reverse = y.entry :: (T.trace.take j).reverse := by
  obtain ⟨hj, hget⟩ := List.getElem?_eq_some_iff.mp (R.getElem?_trace h)
  rw [List.take_succ_eq_append_getElem hj, hget, List.reverse_append]
  rfl

theorem LastBefore.blockFunction_eq {C : UInt32 → Prop} (h : LastBefore R.events C i x j y) :
    P.blockFunction y.entry.id = P.blockFunction x.entry.id := by
  obtain ⟨before, mid, after, hevents, -, -⟩ := exists_append_of_lt h.first h.last h.lt
  obtain ⟨-, -, -, -, -, -, -, heq⟩ := R.exists_inside hevents h.first_type h.last_type h.tid_eq h.activation_eq
  exact heq

/-- From the record before a block record on, the search finds the last record of the blocks in the activation. -/
theorem LastBefore.findPreviousID_before (h : LastBefore R.events (· ∈ ids) i x j y) (hL : Linked P T address)
    (hids : BlocksOf P address fn ids) :
    T.findPreviousID fn (j - 1) .bbType x.entry.tid ids = .ok (if i = 0 ∧ j ≠ 1 then T.maxIndex else i) := by
  have hj := R.lt_length h.last
  have hpos := Nat.zero_lt_of_lt h.lt
  rw [LoadedTrace.findPreviousID, if_pos (by omega), Nat.sub_add_cancel hpos, h.loop_eq hL hids]

/-- From the block record of another block on, the search finds it unless it is record 0. -/
theorem LastBefore.findPreviousID_at (h : LastBefore R.events (· ∈ ids) i x j y) (hL : Linked P T address)
    (hids : BlocksOf P address fn ids) (hy : y.entry.id ∉ ids) :
    T.findPreviousID fn j .bbType x.entry.tid ids = .ok (if i = 0 then T.maxIndex else i) := by
  have hj := R.lt_length h.last
  have hlt := h.lt
  have hlength : (T.trace.take j).reverse.length = j := by rw [List.length_reverse, List.length_take_of_le (Nat.le_of_lt hj)]
  rw [LoadedTrace.findPreviousID, if_pos hj, R.reverse_take_succ h.last]
  by_cases hone : j = 1
  · rw [if_pos (by omega)]
    exact LoadedTrace.findPreviousIDFrom_last (Int.le_refl 0) (fun hmatch => (hy hmatch.2.2).elim) (hlength.trans hone)
  · rw [LoadedTrace.findPreviousIDFrom_pass (Int.le_refl 0) (fun hmatch => (hy hmatch.2.2).elim) (by rwa [hlength]),
      if_neg fun hrt => (by cases h.last_type.symm.trans hrt.1), if_neg fun hcl => (by cases h.last_type.symm.trans hcl.1)]
    have hloop := h.loop_eq hL hids
    simp only [hone, ne_eq, not_false_iff, and_true] at hloop
    exact hloop

theorem RecordedRun.findPreviousID_self (R : RecordedRun P T.toRecording) (h : R.events[j]? = some y)
    (hy : y.entry.type = .bbType) (hmem : y.entry.id ∈ ids) : T.findPreviousID fn j .bbType y.entry.tid ids = .ok j :=
  LoadedTrace.findPreviousID_found (R.getElem?_trace h) hy hmem

end Search

/-- The search for the last record of the blocks in the activation: from the record before a block record on, and from the
block record of another block on. Record 0 is found only where the search begins. -/
theorem LastBefore.findPreviousID_eq {ν β φ : Type} [DecidableEq φ] {T : LoadedTrace ν β φ} {address : φ → UInt64} {fn : φ}
    {i j : Nat} {ids : List UInt32} {R : RecordedRun P T.toRecording} (h : LastBefore R.events (· ∈ ids) i x j y)
    (hL : Linked P T address) (hids : BlocksOf P address fn ids) :
    T.findPreviousID fn (j - 1) .bbType y.entry.tid ids = .ok (if i = 0 ∧ j ≠ 1 then T.maxIndex else i) ∧
      (y.entry.id ∉ ids → T.findPreviousID fn j .bbType y.entry.tid ids = .ok (if i = 0 then T.maxIndex else i)) := by
  rw [h.tid_eq]
  exact ⟨h.findPreviousID_before hL hids, h.findPreviousID_at hL hids⟩

/-! ### The search in the function that calls itself -/

/-- Blocks and instructions are known by their numbers. Value 20 is the operand of the call and 30 its callee. -/
def recursiveTrace : LoadedTrace UInt32 UInt32 Unit where
  toRecording := recursiveRecording
  isConstant := fun V => V == 30
  calledFunction := fun V => if V = 2 then some () else none
  blockID := fun block => block
  getBlock := fun id => id
  getParent := fun _ => ()
  traceFunAddrMap := ⟨[((), 0x400600)], by decide⟩
  built := rfl

theorem linked_recursive : Linked recursiveProgram recursiveTrace fun _ => 0x400600 where
  injective := fun _ _ _ => rfl
  ne_max := fun _ => by decide
  callee := by
    rintro block slots id rfl hmem
    rw [recursiveSlots] at hmem
    split_ifs at hmem
    · have hid : id = 2 := by simpa [callSlot, returnSlot] using hmem
      exact ⟨(), by rw [hid]; rfl, rfl⟩
    · rcases hmem with hmem | hmem <;> cases hmem
  blockFunction := fun _ => rfl
  blockID_getBlock := fun _ _ _ => rfl

theorem blocksOf_recursive (ids : List UInt32) : BlocksOf recursiveProgram (fun _ : Unit => 0x400600) () ids :=
  ⟨id, fun _ _ => rfl⟩

/-- Block 1 of the middle activation comes before its block 2; there is another activation in between. -/
theorem lastBefore_recursive {C : UInt32 → Prop} (hC : C 1) :
    LastBefore recursive.events C 4 (recursiveBlock 4 3 1) 11 (recursiveBlock 5 3 2) where
  first := rfl
  last := rfl
  lt := by decide
  first_type := rfl
  last_type := rfl
  tid_eq := rfl
  activation_eq := rfl
  holds := hC
  none_between := by
    refine forall_between
      (C := fun z => z.entry.type = .bbType → z.entry.tid = 7 → z.activation = 3 → ¬C z.entry.id) fun z hz => ?_
    intro htype _ hactivation
    have hnone : ∀ z ∈ (recursiveEvents.take 11).drop 5, z.entry.type = .bbType → z.activation ≠ 3 := by decide
    exact (hnone z hz htype hactivation).elim

theorem findPreviousID_recursive :
    recursiveTrace.findPreviousID () 10 .bbType 7 [1] = .ok 4 ∧
      ((2 : UInt32) ∉ [(1 : UInt32)] → recursiveTrace.findPreviousID () 11 .bbType 7 [1] = .ok 4) :=
  (lastBefore_recursive (C := (· ∈ [(1 : UInt32)])) (by decide)).findPreviousID_eq linked_recursive (blocksOf_recursive _)

end Witcher.Instrumentation

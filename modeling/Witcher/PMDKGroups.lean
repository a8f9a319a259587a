import Witcher.Loops
import Witcher.WitcherTxCache

/-! The groups of a PMDK operation trace. A call of PMDK has left the functions it ran through, each with its `BEGIN` and its
`END`, and what they registered and flushed; the values of all flushes are in a second file. A replayed call takes the
next group. -/

namespace Witcher.PMDKTraceHandler

open Bytes

/-! ### Groups -/

/-- Registrations, flushes and functions that return. -/
inductive GroupBody : List PMDKTraceOp → Prop
  | nil : GroupBody []
  | registerFile {rest : List PMDKTraceOp} (addr size offset : Nat) (hrest : GroupBody rest) :
      GroupBody (.registerFile addr size offset :: rest)
  | flush {rest : List PMDKTraceOp} (addr size : Nat) (hrest : GroupBody rest) : GroupBody (.flush addr size :: rest)
  | func {inner rest : List PMDKTraceOp} (funcName : String) (hinner : GroupBody inner) (hrest : GroupBody rest) :
      GroupBody (.funcBegin funcName :: (inner ++ .funcEnd funcName :: rest))

structure Group where
  name : String
  body : List PMDKTraceOp
  balanced : GroupBody body

def Group.ops (g : Group) : List PMDKTraceOp := .funcBegin g.name :: (g.body ++ [.funcEnd g.name])

def groupOps (groups : List Group) : List PMDKTraceOp := groups.flatMap Group.ops

/-! ### Flushes -/

/-- The mapping that an operation registers. -/
def mappingOf : PMDKTraceOp → Option (Nat × Nat)
  | .registerFile addr size _ => some (addr, size)
  | _ => none

def mappings (ops : List PMDKTraceOp) : List (Nat × Nat) := ops.filterMap mappingOf

def flushSize : PMDKTraceOp → Nat
  | .flush _ size => size
  | _ => 0

/-- What the flushes take of the value file. -/
def flushedSize (ops : List PMDKTraceOp) : Nat := (ops.map flushSize).sum

def Inside (m : Nat × Nat) (addr size : Nat) : Prop := m.1 ≤ addr ∧ addr + size ≤ m.1 + m.2

instance (m : Nat × Nat) (addr size : Nat) : Decidable (Inside m addr size) := inferInstanceAs (Decidable (_ ∧ _))

/-- The flushes of operations that begin with the mappings `regs` and the value file `values`: each takes the next bytes, and
its place in the file is its distance from the start of its mapping. -/
inductive FlushesOf : List (Nat × Nat) → List UInt8 → List PMDKTraceOp → List PMDKFlush → Prop
  | nil {regs : List (Nat × Nat)} {values : List UInt8} : FlushesOf regs values [] []
  | funcBegin {regs : List (Nat × Nat)} {values : List UInt8} {ops : List PMDKTraceOp} {flushes : List PMDKFlush}
    (name : String)
      (h : FlushesOf regs values ops flushes) : FlushesOf regs values (.funcBegin name :: ops) flushes
  | funcEnd {regs : List (Nat × Nat)} {values : List UInt8} {ops : List PMDKTraceOp} {flushes : List PMDKFlush} (name : String)
      (h : FlushesOf regs values ops flushes) : FlushesOf regs values (.funcEnd name :: ops) flushes
  | registerFile {regs : List (Nat × Nat)} {values : List UInt8} {ops : List PMDKTraceOp} {flushes : List PMDKFlush}
      (addr size offset : Nat) (h : FlushesOf (regs ++ [(addr, size)]) values ops flushes) :
      FlushesOf regs values (.registerFile addr size offset :: ops) flushes
  | flush {regs : List (Nat × Nat)} {values : List UInt8} {ops : List PMDKTraceOp} {flushes : List PMDKFlush} {m : Nat × Nat}
      {addr size : Nat} (hm : m ∈ regs) (hinside : Inside m addr size) (h : FlushesOf regs (values.drop size) ops flushes) :
      FlushesOf regs values (.flush addr size :: ops) (⟨addr, addr - m.1, size, values.take size⟩ :: flushes)

/-- Every flush is inside of exactly one mapping that was registered before it, and its place in the file is inside of the
file. -/
def Covered (length : Nat) : List (Nat × Nat) → List PMDKTraceOp → Prop
  | _, [] => True
  | regs, .registerFile addr size _ :: ops => Covered length (regs ++ [(addr, size)]) ops
  | regs, .flush addr size :: ops =>
      (∃ m ∈ regs, Inside m addr size ∧ addr - m.1 + size ≤ length ∧ ∀ m' ∈ regs, Inside m' addr size → m' = m) ∧
        Covered length regs ops
  | regs, _ :: ops => Covered length regs ops

variable {length : Nat} {regs : List (Nat × Nat)} {values : List UInt8} {front back ops rest : List PMDKTraceOp}

theorem mappings_append : mappings (front ++ back) = mappings front ++ mappings back := List.filterMap_append

theorem flushedSize_append : flushedSize (front ++ back) = flushedSize front + flushedSize back := by
  rw [flushedSize, List.map_append, List.sum_append]
  rfl

theorem flushedSize_cons {op : PMDKTraceOp} (h : flushSize op = 0) : flushedSize (op :: ops) = flushedSize ops := by
  rw [flushedSize, List.map_cons, List.sum_cons, h, Nat.zero_add]
  rfl

theorem covered_append : Covered length regs (front ++ back) ↔ Covered length regs front ∧
    Covered length (regs ++ mappings front) back := by
  induction front generalizing regs with
  | nil => rw [List.nil_append, Covered, mappings, List.filterMap_nil, List.append_nil, true_and]
  | cons op front ih =>
      cases op with
      | registerFile addr size offset =>
          rw [List.cons_append, Covered, Covered, ih, List.append_assoc]
          rfl
      | flush addr size =>
          rw [List.cons_append, Covered, Covered, ih, and_assoc]
          rfl
      | funcBegin name => exact ih
      | funcEnd name => exact ih
      | other => exact ih

theorem FlushesOf.append {flushes flushes' : List PMDKFlush} (h : FlushesOf regs values front flushes)
    (h' : FlushesOf (regs ++ mappings front) (values.drop (flushedSize front)) back flushes') :
    FlushesOf regs values (front ++ back) (flushes ++ flushes') := by
  induction h with
  | nil =>
      rw [mappings, List.filterMap_nil, List.append_nil] at h'
      exact h'
  | funcBegin name h ih =>
      rw [flushedSize_cons rfl] at h'
      exact .funcBegin name (ih h')
  | funcEnd name h ih =>
      rw [flushedSize_cons rfl] at h'
      exact .funcEnd name (ih h')
  | registerFile addr size offset h ih =>
      rw [flushedSize_cons rfl] at h'
      refine .registerFile addr size offset (ih ?_)
      rw [List.append_assoc]
      exact h'
  | @flush regs values ops flushes m addr size hm hinside h ih =>
      refine .flush hm hinside (ih ?_)
      rw [List.drop_drop]
      exact h'

/-! ### The loop inside of a group -/

/-- The handler in front of `ops` with the mappings `regs`; the set may be traversed in any order. -/
structure HandlerAt (h : PMDKTraceHandler) (regs : List (Nat × Nat)) (values : List UInt8) (ops : List PMDKTraceOp) : Prop where
  op_trace : h.pmdkOpTrace = ops
  val_trace : h.pmdkValTrace = values
  register_set : ∀ m, m ∈ h.registerSet ↔ m ∈ regs
  iterate : ∀ l m, m ∈ h.iterate l ↔ m ∈ l

theorem HandlerAt.getBinaryBaseOff_eq {h : PMDKTraceHandler} (hat : HandlerAt h regs values ops) {addr size : Nat}
    {m : Nat × Nat} (hm : m ∈ regs) (hinside : Inside m addr size) (honly : ∀ m' ∈ regs, Inside m' addr size → m' = m) :
    h.getBinaryBaseOff addr size = .ok (addr - m.1) := by
  have hmem : ∀ m', m' ∈ h.iterate h.registerSet ↔ m' ∈ regs := fun m' => by rw [hat.iterate, hat.register_set]
  rw [getBinaryBaseOff]
  cases hfind : (h.iterate h.registerSet).find? fun m => addr ≥ m.1 && addr + size ≤ m.1 + m.2 with
  | none =>
      have hnone := List.find?_eq_none.mp hfind m ((hmem m).mpr hm)
      rw [Bool.and_eq_true, decide_eq_true_eq, decide_eq_true_eq] at hnone
      exact absurd hinside hnone
  | some m' =>
      have hfound := List.find?_some hfind
      rw [Bool.and_eq_true, decide_eq_true_eq, decide_eq_true_eq] at hfound
      rw [honly m' ((hmem m').mp (List.mem_of_find?_eq_some hfind)) hfound]

/-- The loop after a step that leaves a function on the stack. -/
theorem flushLoop_cons {funcName : String} {op : PMDKTraceOp} {s s' : FlushState} (hstep : processOp funcName s op = .ok s')
    (hstack : s'.funcStack ≠ []) :
    flushLoop funcName (op :: ops) s =
      flushLoop funcName ops { s' with handler := { s'.handler with pmdkOpTrace := ops } } := by
  rw [flushLoop, hstep]
  exact if_neg fun hlength => hstack (List.length_eq_zero_iff.mp hlength)

/-- What a run over operations inside of a group leaves. -/
structure BodyRun (funcName : String) (s : FlushState) (regs : List (Nat × Nat)) (values : List UInt8)
    (ops rest : List PMDKTraceOp) (s' : FlushState) (flushes : List PMDKFlush) : Prop where
  loop : flushLoop funcName (ops ++ rest) s = flushLoop funcName rest s'
  list : s'.flushList = s.flushList ++ flushes
  flushes_of : FlushesOf regs values ops flushes
  handler : HandlerAt s'.handler (regs ++ mappings ops) (values.drop (flushedSize ops)) rest

section Body

variable {funcName name : String} {s s' s'' : FlushState} {flushes flushes' : List PMDKFlush} {addr size : Nat}

theorem BodyRun.append (h : BodyRun funcName s regs values front (back ++ rest) s' flushes)
    (h' : BodyRun funcName s' (regs ++ mappings front) (values.drop (flushedSize front)) back rest s'' flushes') :
    BodyRun funcName s regs values (front ++ back) rest s'' (flushes ++ flushes') where
  loop := by rw [List.append_assoc, h.loop, h'.loop]
  list := by rw [h'.list, h.list, List.append_assoc]
  flushes_of := h.flushes_of.append h'.flushes_of
  handler := by
    have hhandler := h'.handler
    rw [List.append_assoc, ← mappings_append, List.drop_drop, ← flushedSize_append] at hhandler
    exact hhandler

/-- An operation that leaves a function on the stack. -/
theorem BodyRun.of_step {op : PMDKTraceOp} {t : FlushState} {stack : List String} (hstep : processOp funcName s op = .ok t)
    (ht : t.funcStack = stack) (hstack : stack ≠ [])
    (hlist : t.flushList = s.flushList ++ flushes) (hflushes : FlushesOf regs values [op] flushes)
    (hvalues : t.handler.pmdkValTrace = values.drop (flushedSize [op]))
    (hregs : ∀ m, m ∈ t.handler.registerSet ↔ m ∈ regs ++ mappings [op]) (hiterate : ∀ l m, m ∈ t.handler.iterate l ↔ m ∈ l) :
    ∃ s', BodyRun funcName s regs values [op] rest s' flushes ∧ s'.funcStack = stack :=
  ⟨{ t with handler := { t.handler with pmdkOpTrace := rest } },
    ⟨flushLoop_cons hstep (ht ▸ hstack), hlist, hflushes, ⟨rfl, hvalues, hregs, hiterate⟩⟩, ht⟩

theorem BodyRun.funcBegin (hat : HandlerAt s.handler regs values (.funcBegin name :: rest))
    (hcall : s.funcStack = [] → matchesCall funcName name = true) :
    ∃ s', BodyRun funcName s regs values [.funcBegin name] rest s' [] ∧ s'.funcStack = name :: s.funcStack := by
  have hstep : processOp funcName s (.funcBegin name) = .ok { s with funcStack := name :: s.funcStack } := by
    rw [processOp, processOpBegin]
    by_cases hstack : s.funcStack = []
    · rw [if_pos (List.length_eq_zero_iff.mpr hstack), hcall hstack]
      rfl
    · rw [if_neg fun hlength => hstack (List.length_eq_zero_iff.mp hlength)]
  refine BodyRun.of_step hstep rfl (List.cons_ne_nil _ _) (List.append_nil _).symm (.funcBegin name .nil) hat.val_trace
    (fun m => ?_) hat.iterate
  change m ∈ s.handler.registerSet ↔ m ∈ regs ++ []
  rw [List.append_nil, hat.register_set]

theorem BodyRun.funcEnd {stack : List String} (hat : HandlerAt s.handler regs values (.funcEnd name :: rest))
    (hstack : s.funcStack = name :: stack) (hne : stack ≠ []) :
    ∃ s', BodyRun funcName s regs values [.funcEnd name] rest s' [] ∧ s'.funcStack = stack := by
  have hstep : processOp funcName s (.funcEnd name) = .ok { s with funcStack := stack } := by
    rw [processOp, processOpEnd, hstack]
    change (do assert (decide (name = name)); .ok { s with funcStack := stack } : Except ReplayError FlushState) = _
    rw [decide_eq_true rfl]
    rfl
  refine BodyRun.of_step hstep rfl hne (List.append_nil _).symm (.funcEnd name .nil) hat.val_trace (fun m => ?_) hat.iterate
  change m ∈ s.handler.registerSet ↔ m ∈ regs ++ []
  rw [List.append_nil, hat.register_set]

/-- The code takes registrations with offset 0 only. -/
theorem BodyRun.registerFile (hat : HandlerAt s.handler regs values (.registerFile addr size 0 :: rest))
    (hstack : s.funcStack ≠ []) :
    ∃ s', BodyRun funcName s regs values [.registerFile addr size 0] rest s' [] ∧ s'.funcStack = s.funcStack := by
  have hstep : processOp funcName s (.registerFile addr size 0) =
      .ok { s with handler := { s.handler with registerSet := s.handler.registerSet.insert (addr, size) } } := rfl
  refine BodyRun.of_step hstep rfl hstack (List.append_nil _).symm (.registerFile addr size 0 .nil) hat.val_trace
    (fun m => ?_) hat.iterate
  change m ∈ s.handler.registerSet.insert (addr, size) ↔ m ∈ regs ++ [(addr, size)]
  rw [List.mem_insert_iff, List.mem_append, List.mem_singleton, hat.register_set, or_comm]

theorem BodyRun.flush (hat : HandlerAt s.handler regs values (.flush addr size :: rest)) (hstack : s.funcStack ≠ [])
    {m : Nat × Nat} (hm : m ∈ regs) (hinside : Inside m addr size) (honly : ∀ m' ∈ regs, Inside m' addr size → m' = m) :
    ∃ s', BodyRun funcName s regs values [.flush addr size] rest s' [⟨addr, addr - m.1, size, values.take size⟩] ∧
      s'.funcStack = s.funcStack := by
  have hstep : processOp funcName s (.flush addr size) = .ok { s with
      handler := { s.handler with pmdkValTrace := s.handler.pmdkValTrace.drop size }
      flushList := s.flushList ++ [⟨addr, addr - m.1, size, s.handler.pmdkValTrace.take size⟩] } := by
    rw [processOp, processOpFlush, hat.getBinaryBaseOff_eq hm hinside honly]
    rfl
  refine BodyRun.of_step hstep rfl hstack ?_ (.flush hm hinside .nil) ?_ (fun m => ?_) hat.iterate
  · change s.flushList ++ [_] = _
    rw [hat.val_trace]
  · change s.handler.pmdkValTrace.drop size = values.drop (size + 0)
    rw [hat.val_trace, Nat.add_zero]
  · change m ∈ s.handler.registerSet ↔ m ∈ regs ++ []
    rw [List.append_nil, hat.register_set]

/-- A body leaves the functions around it on the stack. -/
theorem bodyRun {body : List PMDKTraceOp} (hbody : GroupBody body) (hat : HandlerAt s.handler regs values (body ++ rest))
    (hstack : s.funcStack ≠ []) (hcovered : Covered length regs body)
    (hoffsets : ∀ addr size offset, .registerFile addr size offset ∈ body → offset = 0) :
    ∃ s' flushes, BodyRun funcName s regs values body rest s' flushes ∧ s'.funcStack = s.funcStack := by
  induction hbody generalizing s regs values rest with
  | nil =>
      refine ⟨s, [], ⟨rfl, (List.append_nil _).symm, .nil, ?_⟩, rfl⟩
      rw [mappings, List.filterMap_nil, List.append_nil]
      exact hat
  | @registerFile ops addr size offset hrest ih =>
      obtain rfl := hoffsets addr size offset (List.mem_cons_self ..)
      obtain ⟨t, hrun, ht⟩ : ∃ t, BodyRun funcName s regs values [.registerFile addr size 0] _ t [] ∧
        t.funcStack = s.funcStack :=
        BodyRun.registerFile hat hstack
      obtain ⟨s', flushes, hrun', hs'⟩ := ih hrun.handler (by rw [ht]; exact hstack) hcovered
        fun addr size offset hmem => hoffsets addr size offset (List.mem_cons_of_mem _ hmem)
      exact ⟨s', _, hrun.append hrun', hs'.trans ht⟩
  | @flush ops addr size hrest ih =>
      obtain ⟨-, htail⟩ := covered_append.mp (show Covered length regs ([.flush addr size] ++ ops) from hcovered)
      obtain ⟨m, hm, hinside, -, honly⟩ := hcovered.1
      obtain ⟨t, hrun, ht⟩ : ∃ t, BodyRun funcName s regs values [.flush addr size] _ t _ ∧ t.funcStack = s.funcStack :=
        BodyRun.flush hat hstack hm hinside honly
      obtain ⟨s', flushes, hrun', hs'⟩ := ih hrun.handler (by rw [ht]; exact hstack) htail
        fun addr size offset hmem => hoffsets addr size offset (List.mem_cons_of_mem _ hmem)
      exact ⟨s', _, hrun.append hrun', hs'.trans ht⟩
  | @func inner ops name hinner hrest ihinner ihrest =>
      -- The function goes on the stack, its body runs above the others, and it is popped.
      have hoffset : ∀ part : List PMDKTraceOp, (∀ op ∈ part, op ∈ inner ++ .funcEnd name :: ops) →
          ∀ addr size offset, .registerFile addr size offset ∈ part → offset = 0 :=
        fun part hpart addr size offset hmem => hoffsets addr size offset (List.mem_cons_of_mem _ (hpart _ hmem))
      obtain ⟨-, hcovered⟩ := covered_append.mp
        (show Covered length regs ([.funcBegin name] ++ (inner ++ .funcEnd name :: ops)) from hcovered)
      obtain ⟨hcoveredInner, hcovered⟩ := covered_append.mp hcovered
      obtain ⟨-, hcoveredRest⟩ := covered_append.mp (show Covered length _ ([.funcEnd name] ++ ops) from hcovered)
      obtain ⟨t, hbegin, ht⟩ : ∃ t,
        BodyRun funcName s regs values [.funcBegin name] (inner ++ ([.funcEnd name] ++ ops) ++ rest) t [] ∧
          t.funcStack = name :: s.funcStack := BodyRun.funcBegin hat fun hnil => absurd hnil hstack
      have hatInner := hbegin.handler
      rw [List.append_assoc] at hatInner
      obtain ⟨u, flushes, hinner, hu⟩ := ihinner hatInner (by rw [ht]; exact List.cons_ne_nil _ _) hcoveredInner
        (hoffset inner fun op hop => List.mem_append_left _ hop)
      obtain ⟨v, hend, hv⟩ := BodyRun.funcEnd hinner.handler (hu.trans ht) hstack
      obtain ⟨s', flushes', hrest, hs'⟩ := ihrest hend.handler (by rw [hv]; exact hstack) hcoveredRest
        (hoffset ops fun op hop => List.mem_append_right _ (List.mem_cons_of_mem _ hop))
      have hback : BodyRun funcName u _ _ ([.funcEnd name] ++ ops) rest s' ([] ++ flushes') := hend.append hrest
      have hmid : BodyRun funcName t _ _ (inner ++ ([.funcEnd name] ++ ops)) rest s' (flushes ++ ([] ++ flushes')) :=
        hinner.append hback
      exact ⟨s', _, hbegin.append hmid, hs'.trans hv⟩

end Body

/-! ### One call -/

/-- A call takes the group in front of the cursor. -/
theorem getFlushList_group {g : Group} {h : PMDKTraceHandler} {call : String} (hmatch : matchesCall call g.name = true)
    (hat : HandlerAt h regs values (g.ops ++ rest)) (hcovered : Covered length regs g.ops)
    (hoffsets : ∀ addr size offset, .registerFile addr size offset ∈ g.ops → offset = 0) :
    ∃ flushes h', h.getFlushList call = .ok (flushes, h') ∧ FlushesOf regs values g.ops flushes ∧
      HandlerAt h' (regs ++ mappings g.ops) (values.drop (flushedSize g.ops)) rest := by
  obtain ⟨-, hcovered⟩ := covered_append.mp
    (show Covered length regs ([.funcBegin g.name] ++ (g.body ++ [.funcEnd g.name])) from hcovered)
  obtain ⟨hcovered, -⟩ := covered_append.mp hcovered
  obtain ⟨t, hbegin, ht⟩ := BodyRun.funcBegin (s := ⟨h, [], []⟩) hat fun _ => hmatch
  have hbegin : BodyRun call ⟨h, [], []⟩ regs values [.funcBegin g.name] ((g.body ++ [.funcEnd g.name]) ++ rest) t [] := hbegin
  have hatBody := hbegin.handler
  rw [List.append_assoc] at hatBody
  obtain ⟨u, flushes, hbody, hu⟩ : ∃ u flushes, BodyRun call t _ _ g.body _ u flushes ∧ u.funcStack = t.funcStack :=
    bodyRun g.balanced hatBody (by rw [ht]; exact List.cons_ne_nil _ _) hcovered
    fun addr size offset hmem => hoffsets addr size offset (List.mem_cons_of_mem _ (List.mem_append_left _ hmem))
  have hend : processOp call u (.funcEnd g.name) = .ok { u with funcStack := [] } := by
    rw [processOp, processOpEnd, hu, ht]
    change (do assert (decide (g.name = g.name)); .ok { u with funcStack := [] } : Except ReplayError FlushState) = _
    rw [decide_eq_true rfl]
    rfl
  have hloop : flushLoop call h.pmdkOpTrace ⟨h, [], []⟩ =
      .ok { u with funcStack := [], handler := { u.handler with pmdkOpTrace := rest } } := by
    have hstart := hbegin.loop
    rw [List.append_assoc] at hstart
    rw [hat.op_trace, Group.ops, List.cons_append, List.append_assoc]
    refine hstart.trans (hbody.loop.trans ?_)
    rw [List.singleton_append, flushLoop, hend]
    rfl
  have hlist : u.flushList = flushes := by
    rw [hbody.list, hbegin.list]
    rfl
  have hflushes : FlushesOf regs values g.ops ([] ++ (flushes ++ [])) :=
    hbegin.flushes_of.append (hbody.flushes_of.append (.funcEnd g.name .nil))
  rw [List.nil_append, List.append_nil] at hflushes
  -- The end of the function neither flushes nor maps.
  have hsize : ∀ ops : List PMDKTraceOp, flushedSize (ops ++ [.funcEnd g.name]) = flushedSize ops := fun ops => by
    rw [flushedSize_append]
    rfl
  have hmappings : ∀ ops : List PMDKTraceOp, mappings (ops ++ [.funcEnd g.name]) = mappings ops := fun ops => by
    rw [mappings_append, show mappings [.funcEnd g.name] = [] from rfl, List.append_nil]
  have hhandler := hbody.handler
  refine ⟨flushes, { u.handler with pmdkOpTrace := rest }, ?_, hflushes, rfl, ?_, ?_, hhandler.iterate⟩
  · rw [getFlushList, hloop]
    change Except.ok (u.flushList, _) = _
    rw [hlist]
  · change u.handler.pmdkValTrace = _
    rw [hhandler.val_trace, List.drop_drop, ← flushedSize_append]
    change _ = values.drop (flushedSize (([.funcBegin g.name] ++ g.body) ++ [.funcEnd g.name]))
    rw [hsize]
  · intro m
    change m ∈ u.handler.registerSet ↔ _
    rw [hhandler.register_set, List.append_assoc, ← mappings_append]
    change _ ↔ m ∈ regs ++ mappings (([.funcBegin g.name] ++ g.body) ++ [.funcEnd g.name])
    rw [hmappings]

/-- The flushes stay inside of the file, and the value file has their bytes. -/
theorem FlushesOf.fits {flushes : List PMDKFlush} (h : FlushesOf regs values ops flushes) (hcovered : Covered length regs ops)
    (hvalues : flushedSize ops ≤ values.length) : ∀ f ∈ flushes, f.baseOff + f.size ≤ length ∧ f.value.length = f.size := by
  induction h with
  | nil => exact fun f hf => (by cases hf)
  | funcBegin name h ih =>
      rw [flushedSize_cons rfl] at hvalues
      exact ih hcovered hvalues
  | funcEnd name h ih =>
      rw [flushedSize_cons rfl] at hvalues
      exact ih hcovered hvalues
  | registerFile addr size offset h ih =>
      rw [flushedSize_cons rfl] at hvalues
      exact ih hcovered hvalues
  | @flush regs values ops flushes m addr size hm hinside h ih =>
      obtain ⟨⟨m', hm', hinside', hfits, honly⟩, hcovered⟩ := hcovered
      obtain rfl := honly m hm hinside
      have hsize : flushedSize (.flush addr size :: ops) = size + flushedSize ops := rfl
      rw [hsize] at hvalues
      refine List.forall_mem_cons.mpr ⟨⟨hfits, ?_⟩, ih hcovered ?_⟩
      · rw [List.length_take, Nat.min_eq_left (by omega)]
      · rw [List.length_drop]
        omega

/-- The write of a flush. -/
def flushWrite (flush : PMDKFlush) : Write UInt8 := ⟨flush.baseOff, flush.value⟩

theorem doStoreDirect_eq {f : BinaryFile} {flush : PMDKFlush} (hfits : flush.baseOff + flush.size ≤ f.fileMap.length)
    (hvalue : flush.value.length = flush.size) : f.doStoreDirect flush.baseOff (flush.baseOff + flush.size) flush.value =
      .ok { f with fileMap := applyWrites f.fileMap [flushWrite flush] } := by
  have hbase : sliceBound f.fileMap.length flush.baseOff = flush.baseOff := by
    rw [sliceBound, if_neg (by omega), Int.toNat_natCast, Nat.min_eq_left (by omega)]
  have hmax : sliceBound f.fileMap.length (flush.baseOff + flush.size) = flush.baseOff + flush.size := by
    rw [sliceBound, if_neg (by omega), Nat.min_eq_left (by omega)]
    omega
  rw [BinaryFile.doStoreDirect, hbase, hmax, if_pos (by omega)]
  rfl

theorem doStoreDirects_eq {flushes : List PMDKFlush} {f : BinaryFile}
    (h : ∀ flush ∈ flushes, flush.baseOff + flush.size ≤ f.fileMap.length ∧ flush.value.length = flush.size) :
    flushes.foldlM (fun (f : BinaryFile) flush => f.doStoreDirect flush.baseOff (flush.baseOff + flush.size) flush.value) f =
      .ok { f with fileMap := applyWrites f.fileMap (flushes.map flushWrite) } := by
  induction flushes generalizing f with
  | nil => rfl
  | cons flush flushes ih =>
      obtain ⟨hfits, hvalue⟩ := h flush (List.mem_cons_self ..)
      have hlength : (applyWrites f.fileMap [flushWrite flush]).length = f.fileMap.length :=
        length_patch _ _ _ (by rw [flushWrite, hvalue]; exact hfits)
      rw [List.foldlM_cons, doStoreDirect_eq hfits hvalue]
      refine (ih fun flush' hflush' => ?_).trans ?_
      · change _ ≤ (applyWrites f.fileMap [flushWrite flush]).length ∧ _
        rw [hlength]
        exact h flush' (List.mem_cons_of_mem _ hflush')
      · rfl

/-! ### All calls -/

/-- A cache in front of the first group. -/
def start (file : BinaryFile) (groups : List Group) (values : List UInt8)
    (iterate : List (Nat × Nat) → List (Nat × Nat)) : WitcherTxCache :=
  .new file ⟨groupOps groups, values, [], iterate⟩

/-- Calls for the groups of a trace that registers offset 0 only, with a value file that is long enough. -/
structure Replayable (groups : List Group) (calls : List String) (values : List UInt8) (length : Nat) : Prop where
  names : List.Forall₂ (fun call g => matchesCall call g.name = true) calls groups
  covered : Covered length [] (groupOps groups)
  offsets : ∀ addr size offset, .registerFile addr size offset ∈ groupOps groups → offset = 0
  values : flushedSize (groupOps groups) ≤ values.length

/-- The state after `k` calls. -/
structure Replayed (groups : List Group) (values : List UInt8) (length k : Nat) (c : WitcherTxCache) : Prop where
  handler : HandlerAt c.pmdkTraceHandler (mappings (groupOps (groups.take k)))
    (values.drop (flushedSize (groupOps (groups.take k))))
    (groupOps (groups.drop k))
  length_file : c.binaryFile.fileMap.length = length

section Calls

variable {groups : List Group} {calls : List String} {c : WitcherTxCache} {k : Nat} {g : Group} {call : String}

theorem groupOps_append (front back : List Group) : groupOps (front ++ back) = groupOps front ++ groupOps back :=
  List.flatMap_append

theorem drop_eq_cons (hg : groups[k]? = some g) : groups.drop k = g :: groups.drop (k + 1) := by
  obtain ⟨hk, rfl⟩ := List.getElem?_eq_some_iff.mp hg
  exact List.drop_eq_getElem_cons hk

/-- A call of a group that is there. -/
theorem Replayed.accept (h : Replayable groups calls values length) (hc : Replayed groups values length k c)
    (hg : groups[k]? = some g) (hcall : calls[k]? = some call) :
    ∃ c' flushes, c.handlerAccept call = .ok c' ∧
      FlushesOf (mappings (groupOps (groups.take k))) (values.drop (flushedSize (groupOps (groups.take k)))) g.ops flushes ∧
      c'.binaryFile.fileMap = applyWrites c.binaryFile.fileMap (flushes.map flushWrite) ∧
        Replayed groups values length (k + 1) c' := by
  have hdrop := drop_eq_cons hg
  have htake : groups.take (k + 1) = groups.take k ++ [g] := by rw [List.take_add_one, hg, Option.toList_some]
  have hops : groupOps groups = groupOps (groups.take k) ++ (g.ops ++ groupOps (groups.drop (k + 1))) := by
    conv_lhs => rw [← List.take_append_drop k groups, hdrop, groupOps_append]
    rfl
  have hopsTake : groupOps (groups.take (k + 1)) = groupOps (groups.take k) ++ g.ops := by
    rw [htake, groupOps_append]
    exact congrArg _ (List.append_nil _)
  have hmatch : matchesCall call g.name = true := by
    obtain ⟨hk, hgk⟩ := List.getElem?_eq_some_iff.mp hg
    obtain ⟨hk', hcallk⟩ := List.getElem?_eq_some_iff.mp hcall
    have hname := h.names.get hk' hk
    rw [List.get_eq_getElem, List.get_eq_getElem] at hname
    rw [← hgk, ← hcallk]
    exact hname
  have hat := hc.handler
  rw [hdrop] at hat
  have hcovered := h.covered
  rw [hops, covered_append, List.nil_append, covered_append] at hcovered
  have hvalues := h.values
  rw [hops, flushedSize_append, flushedSize_append] at hvalues
  obtain ⟨flushes, h', hlist, hflushes, hhandler⟩ := getFlushList_group hmatch hat hcovered.2.1 fun addr size offset hmem =>
    h.offsets addr size offset (by rw [hops]; exact List.mem_append_right _ (List.mem_append_left _ hmem))
  have hfits := hflushes.fits hcovered.2.1 (by rw [List.length_drop]; omega)
  rw [← hc.length_file] at hfits
  let file : BinaryFile := { c.binaryFile with fileMap := applyWrites c.binaryFile.fileMap (flushes.map flushWrite) }
  refine ⟨{ c with binaryFile := file, pmdkTraceHandler := h' }, flushes, ?_, hflushes, rfl, ?_, ?_⟩
  · rw [WitcherTxCache.handlerAccept, hlist]
    change (flushes.foldlM (fun (f : BinaryFile) flush =>
      f.doStoreDirect flush.baseOff (flush.baseOff + flush.size) flush.value) c.binaryFile >>= _) = _
    rw [doStoreDirects_eq hfits]
    rfl
  · rw [hopsTake, mappings_append, flushedSize_append, ← List.drop_drop]
    exact hhandler
  · refine (length_applyWrites _ _ ?_).trans hc.length_file
    intro w hw
    obtain ⟨flush, hflush, rfl⟩ := List.mem_map.mp hw
    rw [Write.Fits, flushWrite, (hfits flush hflush).2]
    exact (hfits flush hflush).1

theorem replayed (h : Replayable groups calls values length) {file : BinaryFile} (hfile : file.fileMap.length = length)
    {iterate : List (Nat × Nat) → List (Nat × Nat)} (hiterate : ∀ l m, m ∈ iterate l ↔ m ∈ l) (hk : k ≤ groups.length) :
    ∃ c, (calls.take k).foldlM WitcherTxCache.handlerAccept (start file groups values iterate) = .ok c ∧
      Replayed groups values length k c := by
  induction k with
  | zero => exact ⟨_, rfl, ⟨rfl, rfl, fun m => Iff.rfl, hiterate⟩, hfile⟩
  | succ k ih =>
      obtain ⟨c, hrun, hc⟩ := ih (Nat.le_of_succ_le hk)
      have hk' : k < calls.length := by
        rw [h.names.length_eq]
        exact hk
      have hcall := List.getElem?_eq_getElem hk'
      obtain ⟨c', flushes, haccept, -, -, hc'⟩ := hc.accept h (List.getElem?_eq_getElem hk) hcall
      refine ⟨c', ?_, hc'⟩
      rw [List.take_add_one, hcall, Option.toList_some, List.foldlM_append, hrun]
      change ([calls[k]].foldlM WitcherTxCache.handlerAccept c : Except ReplayError WitcherTxCache) = _
      rw [List.foldlM_cons, haccept]
      rfl

end Calls

/-- The call numbered `k` takes the group numbered `k`. Its flushes go to the file in their order, each with the next bytes of
the value file behind those of all flushes before it, at its distance from the start of its mapping. -/
theorem accept_groups (groups : List Group) (calls : List String) (values : List UInt8) (file : BinaryFile)
    (iterate : List (Nat × Nat) → List (Nat × Nat)) (hiterate : ∀ l m, m ∈ iterate l ↔ m ∈ l)
    (h : Replayable groups calls values file.fileMap.length) (k : Nat) (g : Group) (call : String) (hg : groups[k]? = some g)
    (hcall : calls[k]? = some call) :
    ∃ c c' flushes, (calls.take k).foldlM WitcherTxCache.handlerAccept (start file groups values iterate) = .ok c ∧
      c.handlerAccept call = .ok c' ∧
      c.pmdkTraceHandler.pmdkOpTrace = g.ops ++ groupOps (groups.drop (k + 1)) ∧
      c'.pmdkTraceHandler.pmdkOpTrace = groupOps (groups.drop (k + 1)) ∧
      FlushesOf (mappings (groupOps (groups.take k))) (values.drop (flushedSize (groupOps (groups.take k)))) g.ops flushes ∧
      c'.binaryFile.fileMap = applyWrites c.binaryFile.fileMap (flushes.map flushWrite) := by
  have hk : k < groups.length := (List.getElem?_eq_some_iff.mp hg).choose
  obtain ⟨c, hrun, hc⟩ := replayed h rfl hiterate (Nat.le_of_lt hk)
  obtain ⟨c', flushes, haccept, hflushes, hfile, hc'⟩ := hc.accept h hg hcall
  have hops := hc.handler.op_trace
  rw [drop_eq_cons hg] at hops
  exact ⟨c, c', flushes, hrun, haccept, hops, hc'.handler.op_trace, hflushes, hfile⟩

instance decidableCovered (length : Nat) : ∀ (regs : List (Nat × Nat)) (ops : List PMDKTraceOp),
    Decidable (Covered length regs ops)
  | _, [] => .isTrue trivial
  | regs, .registerFile addr size _ :: ops => decidableCovered length (regs ++ [(addr, size)]) ops
  | regs, .flush _ _ :: ops => @instDecidableAnd _ _ inferInstance (decidableCovered length regs ops)
  | regs, .funcBegin _ :: ops => decidableCovered length regs ops
  | regs, .funcEnd _ :: ops => decidableCovered length regs ops
  | regs, .other :: ops => decidableCovered length regs ops

/-- A commit that maps the file and flushes in a nested function, and an allocation that flushes. -/
def commitGroup : Group where
  name := "pmemobj_tx_commit"
  body := [.registerFile 4096 16 0, .funcBegin "pmem_flush", .flush 4100 2, .funcEnd "pmem_flush", .flush 4096 1]
  balanced := .registerFile 4096 16 0 (.func "pmem_flush" (.flush 4100 2 .nil) (.flush 4096 1 .nil))

def allocGroup : Group where
  name := "pmemobj_tx_zalloc"
  body := [.flush 4104 2]
  balanced := .flush 4104 2 .nil

/-- A group that maps `size` bytes at `offset` and flushes two of them. -/
def mapGroup (size offset : Nat) : Group where
  name := "pmemobj_persist"
  body := [.registerFile 4096 size offset, .flush 4096 2]
  balanced := .registerFile 4096 size offset (.flush 4096 2 .nil)

def zeroFile (n : Nat) : BinaryFile := ⟨4096, List.replicate n 0, []⟩

theorem accept_groups_commit : Replayable [commitGroup, allocGroup] ["pmemobj_tx_end", "pmemobj_tx_alloc"] [1, 2, 3, 4, 5] 16 ∧
    ∃ (c c' : WitcherTxCache) (flushes : List PMDKFlush), (["pmemobj_tx_end"].foldlM WitcherTxCache.handlerAccept
        (start (zeroFile 16) [commitGroup, allocGroup] [1, 2, 3, 4, 5] id) : Except ReplayError WitcherTxCache) = .ok c ∧
      c.handlerAccept "pmemobj_tx_alloc" = .ok c' ∧ c'.pmdkTraceHandler.pmdkOpTrace = [] ∧
      c'.binaryFile.fileMap = applyWrites c.binaryFile.fileMap (flushes.map flushWrite) := by
  have hreplayable : Replayable [commitGroup, allocGroup] ["pmemobj_tx_end", "pmemobj_tx_alloc"] [1, 2, 3, 4, 5] 16 := by
    refine ⟨.cons (by decide +kernel) (.cons (by decide +kernel) .nil), by decide +kernel, ?_, by decide +kernel⟩
    intro addr size offset hmem
    simp [groupOps, Group.ops, commitGroup, allocGroup] at hmem
    exact hmem.2.2
  obtain ⟨c, c', flushes, hrun, haccept, -, hops, -, hfile⟩ :=
    accept_groups [commitGroup, allocGroup] ["pmemobj_tx_end", "pmemobj_tx_alloc"]
    [1, 2, 3, 4, 5] (zeroFile 16) id (fun _ _ => Iff.rfl) hreplayable 1 allocGroup "pmemobj_tx_alloc" rfl rfl
  exact ⟨hreplayable, c, c', flushes, hrun, haccept, hops, hfile⟩

/-- A mapping with an offset, a value file that ends too early, and a mapping that is longer than the file. -/
theorem accept_fails :
    (Covered 16 [] (mapGroup 16 4096).ops ∧
      (start (zeroFile 16) [mapGroup 16 4096] [1, 2] id).handlerAccept "pmemobj_persist" = .error .assertion) ∧
    (Covered 16 [] (mapGroup 16 0).ops ∧
      (start (zeroFile 16) [mapGroup 16 0] [1] id).handlerAccept "pmemobj_persist" = .error .indexError) ∧
    (Covered 16 [] (mapGroup 16 0).ops ∧
      (start (zeroFile 1) [mapGroup 16 0] [1, 2] id).handlerAccept "pmemobj_persist" = .error .indexError) :=
  ⟨⟨by decide +kernel, rfl⟩, ⟨by decide +kernel, rfl⟩, ⟨by decide +kernel, rfl⟩⟩

end Witcher.PMDKTraceHandler

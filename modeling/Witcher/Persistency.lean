import Mathlib.Logic.Function.Basic
import Mathlib.Data.List.Basic

/-! Line persistency. A memory is divided into lines; each line keeps its stores in program order,
cut into a persisted part, a part whose write-back has been requested, and a part still only in the
cache. A flush requests the write-back of one line, a fence completes every requested write-back,
and a drain completes everything. A line is never reordered, so what can be persisted of it is
always a leading part of its stores. -/

namespace Witcher.Persistency

/-- The stores of one line in program order: persisted, then flushing, then clear. -/
structure Line (σ : Type) where
  persisted : List σ
  flushing : List σ
  clear : List σ

def Line.pending {σ : Type} (l : Line σ) : List σ := l.flushing ++ l.clear

def Line.stores {σ : Type} (l : Line σ) : List σ := l.persisted ++ l.pending

inductive Event (ι σ : Type) where
  | store (line : ι) (st : σ)
  | flush (line : ι)
  | fence
  | drain

abbrev Memory (ι σ : Type) := ι → Line σ

variable {ι σ : Type}

def Memory.empty : Memory ι σ := fun _ => ⟨[], [], []⟩

variable [DecidableEq ι]

def Memory.step (m : Memory ι σ) : Event ι σ → Memory ι σ
  | .store c st => Function.update m c { m c with clear := (m c).clear ++ [st] }
  | .flush c => Function.update m c ⟨(m c).persisted, (m c).flushing ++ (m c).clear, []⟩
  | .fence => fun c => ⟨(m c).persisted ++ (m c).flushing, [], (m c).clear⟩
  | .drain => fun c => ⟨(m c).persisted ++ (m c).flushing ++ (m c).clear, [], []⟩

def Memory.run (m : Memory ι σ) (events : List (Event ι σ)) : Memory ι σ := events.foldl Memory.step m

@[simp] theorem Memory.run_nil (m : Memory ι σ) : m.run [] = m := rfl

@[simp] theorem Memory.run_cons (m : Memory ι σ) (e : Event ι σ) (events : List (Event ι σ)) :
    m.run (e :: events) = (m.step e).run events := rfl

theorem Memory.run_append (m : Memory ι σ) (front back : List (Event ι σ)) :
    m.run (front ++ back) = (m.run front).run back := by
  simp only [Memory.run, List.foldl_append]

/-! ### What a store and a flush do to the lines -/

theorem Memory.step_store_self (m : Memory ι σ) (c : ι) (st : σ) :
    m.step (.store c st) c = { m c with clear := (m c).clear ++ [st] } :=
  Function.update_self _ _ _

theorem Memory.step_store_of_ne (m : Memory ι σ) {a c : ι} (h : a ≠ c) (st : σ) : m.step (.store c st) a = m a :=
  Function.update_of_ne h _ _

theorem Memory.step_flush_self (m : Memory ι σ) (c : ι) :
    m.step (.flush c) c = ⟨(m c).persisted, (m c).flushing ++ (m c).clear, []⟩ :=
  Function.update_self _ _ _

theorem Memory.step_flush_of_ne (m : Memory ι σ) {a c : ι} (h : a ≠ c) : m.step (.flush c) a = m a :=
  Function.update_of_ne h _ _

theorem Memory.flushing_step_store (m : Memory ι σ) (a c : ι) (st : σ) :
    (m.step (.store c st) a).flushing = (m a).flushing := by
  by_cases h : a = c
  · rw [h, m.step_store_self]
  · rw [m.step_store_of_ne h]

/-- A flush moves stores within the pending part of its line. -/
theorem Memory.pending_step_flush (m : Memory ι σ) (a c : ι) : (m.step (.flush c) a).pending = (m a).pending := by
  by_cases h : a = c
  · rw [h, m.step_flush_self, Line.pending, List.append_nil, Line.pending]
  · rw [m.step_flush_of_ne h]

/-- Flushes request the write-back of their lines. -/
theorem Memory.run_flushes (m : Memory ι σ) (lines : List ι) (a : ι) :
    m.run (lines.map .flush) a = if a ∈ lines then ⟨(m a).persisted, (m a).pending, []⟩ else m a := by
  induction lines generalizing m with
  | nil => simp
  | cons c lines ih =>
      rw [List.map_cons, Memory.run_cons, ih, m.pending_step_flush]
      by_cases h : a = c
      · rw [h, m.step_flush_self]
        simp [Line.pending]
      · simp [m.step_flush_of_ne h, h]

/-- Flushes and a fence persist their lines, and of the other lines what was requested before. -/
theorem Memory.run_flushes_fence (m : Memory ι σ) (lines : List ι) (a : ι) : m.run (lines.map .flush ++ [.fence]) a =
    if a ∈ lines then ⟨(m a).stores, [], []⟩ else ⟨(m a).persisted ++ (m a).flushing, [], (m a).clear⟩ := by
  rw [Memory.run_append, Memory.run_cons, Memory.run_nil]
  show Line.mk _ _ _ = _
  rw [m.run_flushes]
  split_ifs <;> rfl

/-! ### Program order -/

/-- The stores an event list issues to line `c`, in program order. -/
def storesAt (c : ι) : List (Event ι σ) → List σ
  | [] => []
  | .store a st :: events => if a = c then st :: storesAt c events else storesAt c events
  | _ :: events => storesAt c events

theorem Memory.stores_step (m : Memory ι σ) (e : Event ι σ) (c : ι) :
    (m.step e c).stores = (m c).stores ++ storesAt c [e] := by
  cases e with
  | store a st =>
      by_cases h : a = c
      · subst h
        simp [Memory.step, storesAt, Line.stores, Line.pending]
      · simp [Memory.step, storesAt, h, Function.update_of_ne (Ne.symm h)]
  | flush a =>
      by_cases h : a = c
      · subst h
        simp [Memory.step, storesAt, Line.stores, Line.pending]
      · simp [Memory.step, storesAt, Function.update_of_ne (Ne.symm h)]
  | fence => simp [Memory.step, storesAt, Line.stores, Line.pending]
  | drain => simp [Memory.step, storesAt, Line.stores, Line.pending]

/-- Only a fence or a drain persists anything. -/
theorem Memory.persisted_step (m : Memory ι σ) {e : Event ι σ} (hfence : e ≠ .fence) (hdrain : e ≠ .drain)
    (c : ι) : (m.step e c).persisted = (m c).persisted := by
  cases e with
  | store a st => by_cases h : c = a <;> simp [Memory.step, h]
  | flush a => by_cases h : c = a <;> simp [Memory.step, h]
  | fence => exact absurd rfl hfence
  | drain => exact absurd rfl hdrain

theorem Memory.pending_step_drain (m : Memory ι σ) (c : ι) : (m.step .drain c).pending = [] := rfl

/-! ### When everything is persisted -/

def HasFence : List (Event ι σ) → Prop
  | [] => False
  | .fence :: _ => True
  | _ :: events => HasFence events

/-- A flush of line `c` with a fence after it. -/
def HasFlushFence (c : ι) : List (Event ι σ) → Prop
  | [] => False
  | .flush a :: events => (a = c ∧ HasFence events) ∨ HasFlushFence c events
  | _ :: events => HasFlushFence c events

/-- Every store to line `c` is followed by a flush of that line and then a fence. -/
def Covered (c : ι) : List (Event ι σ) → Prop
  | [] => True
  | .store a _ :: events => (a = c → HasFlushFence c events) ∧ Covered c events
  | _ :: events => Covered c events

omit [DecidableEq ι] in
theorem HasFlushFence.hasFence {c : ι} {events : List (Event ι σ)} (h : HasFlushFence c events) :
    HasFence events := by
  induction events with
  | nil => exact h
  | cons e events ih =>
      cases e with
      | store a st => exact ih h
      | flush a => exact h.elim And.right ih
      | fence => trivial
      | drain => exact ih h

/-- Without drains, a line has nothing pending exactly when everything it held, and every store
issued since, has been flushed and then fenced. -/
theorem Memory.pending_run_eq_nil_iff (m : Memory ι σ) (events : List (Event ι σ)) (c : ι)
    (hdrain : ∀ e ∈ events, e ≠ .drain) :
    (m.run events c).pending = [] ↔
      ((m c).clear = [] ∨ HasFlushFence c events) ∧ ((m c).flushing = [] ∨ HasFence events) ∧
        Covered c events := by
  induction events generalizing m with
  | nil => simp [Line.pending, HasFlushFence, HasFence, Covered, and_comm]
  | cons e events ih =>
      have hrest : ∀ e' ∈ events, e' ≠ .drain := fun e' he' => hdrain e' (List.mem_cons_of_mem e he')
      have hle : HasFlushFence c events → HasFence events := HasFlushFence.hasFence
      rw [Memory.run_cons, ih _ hrest]
      cases e with
      | store a st =>
          by_cases h : a = c
          · subst h
            simp only [Memory.step, Function.update_self, HasFlushFence, HasFence, Covered]
            simp
            tauto
          · simp [Memory.step, Function.update_of_ne (Ne.symm h), HasFlushFence, HasFence, Covered, h]
      | flush a =>
          by_cases h : a = c
          · subst h
            simp only [Memory.step, Function.update_self, HasFlushFence, HasFence, Covered]
            simp
            tauto
          · simp [Memory.step, Function.update_of_ne (Ne.symm h), HasFlushFence, HasFence, Covered, h]
      | fence => simp [Memory.step, HasFlushFence, HasFence, Covered]
      | drain => exact absurd rfl (hdrain _ List.mem_cons_self)

end Witcher.Persistency

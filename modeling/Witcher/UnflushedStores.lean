import Witcher.TraceRanges
import Witcher.WitcherTCEngine

/-! The report of unflushed stores. The cache is never cleared, so a store may stay in it for many
transactions and leave it at a fence of any of them; it is reported at the first transaction start that
finds it there. All the same the report depends on the store's own transaction only: a store is still in the
cache when its transaction ends if and only if the transaction did not persist it, and the next start or the
end of the pass reports it. -/

namespace Witcher.WitcherTCEngine

open PythonText TraceText

theorem assert_ok {b : Bool} {u : Unit} (h : assert b = .ok u) : b = true := by
  cases b with
  | true => rfl
  | false => cases h

/-! ### What a step does to the cache and to the report -/

def cacheStep (stores : List CachedStore) (op : TraceOp) : List CachedStore :=
  match op.body with
  | .store st => TCCache.acceptStore stores ⟨op, st.address, st.size⟩
  | .flush _ address => TCCache.acceptFlush stores ⟨op, address, TraceText.cachelineBytes⟩
  | .fence => TCCache.acceptFence stores
  | _ => stores

theorem mem_foldl_insert {stores : List CachedStore} {acc : List TraceOp} {x : TraceOp} :
    x ∈ stores.foldl (fun acc c => acc.insert c.store.op) acc ↔ x ∈ acc ∨ ∃ c ∈ stores, c.store.op = x := by
  induction stores generalizing acc with
  | nil => simp
  | cons c stores ih =>
      rw [List.foldl_cons, ih, List.mem_insert_iff]
      simp only [List.mem_cons, exists_eq_or_imp]
      constructor
      · rintro ((h | h) | h)
        · exact .inr (.inl h.symm)
        · exact .inl h
        · exact .inr (.inr h)
      · rintro (h | h | h)
        · exact .inl (.inr h)
        · exact .inl (.inl h.symm)
        · exact .inr h

theorem mem_addUnflushed {res : CTRes} {stores : List CachedStore} {x : TraceOp} :
    x ∈ (res.addUnflushed stores).unflushedStores ↔ x ∈ res.unflushedStores ∨ ∃ c ∈ stores, c.store.op = x :=
  mem_foldl_insert

theorem acceptLog_ok {s s' : TCState} {log : RangedOp} (h : acceptLog s log = .ok s') :
    s.nesting.inPMDKTX = true ∧ s'.cache = s.cache ∧ s'.nesting = s.nesting ∧ s'.pmdkLogs = s.pmdkLogs ++ [log] ∧
      s'.res.unflushedStores = s.res.unflushedStores ∧ s'.res.unloggedStores = s.res.unloggedStores := by
  obtain ⟨_, hassert, h⟩ := Loops.bind_ok h
  cases h
  refine ⟨assert_ok hassert, rfl, rfl, rfl, ?_, ?_⟩
  · dsimp only
    split_ifs <;> rfl
  · dsimp only
    split_ifs <;> rfl

/-- A step changes the cache by its store, flush or fence, and reports the whole cache at a boundary. -/
theorem step_cache {s s' : TCState} {op : TraceOp} (h : step s op = .ok s') :
    s'.cache = cacheStep s.cache op ∧
      ∀ x, x ∈ s'.res.unflushedStores ↔
        x ∈ s.res.unflushedStores ∨ (op.body.isBoundary = true ∧ ∃ c ∈ s.cache, c.store.op = x) := by
  unfold step at h
  unfold cacheStep
  cases hbody : op.body with
  | txStart =>
      rw [hbody] at h
      cases h
      exact ⟨rfl, fun x => by simp [mem_addUnflushed, OpBody.isBoundary]⟩
  | txEnd =>
      rw [hbody] at h
      cases h
      exact ⟨rfl, fun x => by simp [mem_addUnflushed, OpBody.isBoundary]⟩
  | fence =>
      rw [hbody] at h
      cases h
      refine ⟨rfl, fun x => ?_⟩
      simp only [acceptFence, OpBody.isBoundary]
      split_ifs <;> simp
  | pmdkCall funcName note =>
      rw [hbody] at h
      obtain ⟨nesting, -, h⟩ := Loops.bind_ok h
      cases h
      exact ⟨rfl, fun x => by simp [OpBody.isBoundary]⟩
  | pmdkTXAdd address size =>
      rw [hbody] at h
      obtain ⟨-, hcache, -, -, hres, -⟩ := acceptLog_ok h
      exact ⟨hcache, fun x => by simp [hres, OpBody.isBoundary]⟩
  | pmdkTXAlloc address size =>
      rw [hbody] at h
      obtain ⟨-, hcache, -, -, hres, -⟩ := acceptLog_ok h
      exact ⟨hcache, fun x => by simp [hres, OpBody.isBoundary]⟩
  | store st =>
      rw [hbody] at h
      cases h
      refine ⟨rfl, fun x => ?_⟩
      simp only [acceptStore, OpBody.isBoundary]
      split_ifs <;> simp
  | flush unaligned address =>
      rw [hbody] at h
      cases h
      refine ⟨rfl, fun x => ?_⟩
      simp only [acceptFlush, OpBody.isBoundary]
      split_ifs <;> simp

/-! ### One store in the cache -/

/-- What an operation does to the `flushed` field of a store; `none` once the store has left the cache. -/
def nextFlag (r : RangedOp) (flag : Option Nat) (op : TraceOp) : Option Nat :=
  match op.body with
  | .flush _ address => if isInFlush ⟨op, address, TraceText.cachelineBytes⟩ r then flag.map fun _ => 1 else flag
  | .fence => flag.filter (· = 0)
  | _ => flag

/-- The cache holds the store with the given `flushed` field, or not at all. -/
structure Holds (r : RangedOp) (flag : Option Nat) (stores : List CachedStore) : Prop where
  flushed : ∀ c ∈ stores, c.store.op = r.op → c.store = r ∧ flag = some c.flushed
  held : flag ≠ none → ∃ c ∈ stores, c.store.op = r.op

theorem Holds.acceptStore {r new : RangedOp} {flag : Option Nat} {stores : List CachedStore} (h : Holds r flag stores)
    (hnew : new.op ≠ r.op) : Holds r flag (TCCache.acceptStore stores new) where
  flushed c hc hop := by
    rcases List.mem_append.mp hc with hc | hc
    · exact h.flushed c hc hop
    · rw [List.mem_singleton.mp hc] at hop
      exact absurd hop hnew
  held hflag := by
    obtain ⟨c, hc, hop⟩ := h.held hflag
    exact ⟨c, List.mem_append_left _ hc, hop⟩

theorem Holds.acceptFlush {r flush : RangedOp} {flag : Option Nat} {stores : List CachedStore} (h : Holds r flag stores) :
    Holds r (if isInFlush flush r then flag.map fun _ => 1 else flag) (TCCache.acceptFlush stores flush) where
  flushed c hc hop := by
    obtain ⟨c', hc', rfl⟩ := List.mem_map.mp hc
    have hstore : (if isInFlush flush c'.store then { c' with flushed := 1 } else c').store = c'.store := by
      split_ifs <;> rfl
    rw [hstore] at hop ⊢
    obtain ⟨hr, hflag⟩ := h.flushed c' hc' hop
    refine ⟨hr, ?_⟩
    rw [hr, hflag]
    split_ifs <;> rfl
  held hflag := by
    have hsome : flag ≠ none := by
      rintro rfl
      simp at hflag
    obtain ⟨c, hc, hop⟩ := h.held hsome
    refine ⟨_, List.mem_map_of_mem hc, ?_⟩
    split_ifs <;> exact hop

theorem Holds.acceptFence {r : RangedOp} {flag : Option Nat} {stores : List CachedStore} (h : Holds r flag stores) :
    Holds r (flag.filter (· = 0)) (TCCache.acceptFence stores) where
  flushed c hc hop := by
    obtain ⟨hc, hclear⟩ := List.mem_filter.mp hc
    obtain ⟨hr, hflag⟩ := h.flushed c hc hop
    refine ⟨hr, ?_⟩
    rw [hflag, Option.filter_some, if_pos hclear]
  held hflag := by
    cases flag with
    | none => simp at hflag
    | some n =>
        obtain ⟨c, hc, hop⟩ := h.held (by simp)
        have hn := (h.flushed c hc hop).2
        cases hn
        rw [Option.filter_some] at hflag
        split_ifs at hflag with hclear
        · exact ⟨c, List.mem_filter.mpr ⟨hc, hclear⟩, hop⟩
        · exact absurd rfl hflag

theorem Holds.cacheStep {r : RangedOp} {flag : Option Nat} {stores : List CachedStore} (h : Holds r flag stores) {op : TraceOp}
    (hop : op ≠ r.op) : Holds r (nextFlag r flag op) (cacheStep stores op) := by
  unfold nextFlag WitcherTCEngine.cacheStep
  cases op.body with
  | store st => exact h.acceptStore hop
  | flush _ address => exact h.acceptFlush
  | fence => exact h.acceptFence
  | _ => exact h

/-! ### When a store leaves the cache -/

def FlushOf (r : RangedOp) (op : TraceOp) : Prop :=
  ∃ unaligned address, op.body = .flush unaligned address ∧ isInFlush ⟨op, address, TraceText.cachelineBytes⟩ r = true

/-- A flush of the store and a fence after it. -/
def Persisted (r : RangedOp) (ops : List TraceOp) : Prop :=
  ∃ front f back, ops = front ++ f :: back ∧ FlushOf r f ∧ ∃ g ∈ back, g.body = .fence

theorem foldl_nextFlag_none (r : RangedOp) (ops : List TraceOp) : ops.foldl (nextFlag r) none = none := by
  induction ops with
  | nil => rfl
  | cons op ops ih =>
      have hnone : nextFlag r none op = none := by
        unfold nextFlag
        cases op.body <;> simp
      rw [List.foldl_cons, hnone, ih]

/-- Once flushed, the store leaves the cache at the next fence. -/
theorem foldl_nextFlag_flushed (r : RangedOp) (ops : List TraceOp) :
    ops.foldl (nextFlag r) (some 1) = none ↔ ∃ g ∈ ops, g.body = .fence := by
  induction ops with
  | nil => simp
  | cons op ops ih =>
      rw [List.foldl_cons]
      by_cases hfence : op.body = .fence
      · have hnone : nextFlag r (some 1) op = none := by
          unfold nextFlag
          rw [hfence]
          rfl
        rw [hnone, foldl_nextFlag_none]
        exact ⟨fun _ => ⟨op, List.mem_cons_self, hfence⟩, fun _ => rfl⟩
      · have hsame : nextFlag r (some 1) op = some 1 := by
          unfold nextFlag
          cases hbody : op.body with
          | flush _ address =>
              dsimp only
              split_ifs <;> rfl
          | fence => exact absurd hbody hfence
          | _ => rfl
        rw [hsame, ih]
        simp [hfence]

theorem persisted_cons_iff {r : RangedOp} {op : TraceOp} {ops : List TraceOp} :
    Persisted r (op :: ops) ↔ (FlushOf r op ∧ ∃ g ∈ ops, g.body = .fence) ∨ Persisted r ops := by
  constructor
  · rintro ⟨front, f, back, hsplit, hf, hg⟩
    cases front with
    | nil =>
        rw [List.nil_append, List.cons.injEq] at hsplit
        obtain ⟨rfl, rfl⟩ := hsplit
        exact .inl ⟨hf, hg⟩
    | cons a front =>
        rw [List.cons_append, List.cons.injEq] at hsplit
        exact .inr ⟨front, f, back, hsplit.2, hf, hg⟩
  · rintro (⟨hf, hg⟩ | ⟨front, f, back, rfl, hf, hg⟩)
    · exact ⟨[], op, ops, rfl, hf, hg⟩
    · exact ⟨op :: front, f, back, rfl, hf, hg⟩

theorem foldl_nextFlag_clear (r : RangedOp) (ops : List TraceOp) :
    ops.foldl (nextFlag r) (some 0) = none ↔ Persisted r ops := by
  induction ops with
  | nil => simp [Persisted]
  | cons op ops ih =>
      rw [List.foldl_cons, persisted_cons_iff]
      by_cases hflush : FlushOf r op
      · obtain ⟨unaligned, address, hbody, hin⟩ := hflush
        have hflag : nextFlag r (some 0) op = some 1 := by
          unfold nextFlag
          rw [hbody]
          exact if_pos hin
        rw [hflag, foldl_nextFlag_flushed]
        constructor
        · intro hg
          exact .inl ⟨⟨unaligned, address, hbody, hin⟩, hg⟩
        · rintro (⟨-, hg⟩ | ⟨front, f, back, rfl, -, g, hg, hfence⟩)
          · exact hg
          · exact ⟨g, by simp [hg], hfence⟩
      · have hflag : nextFlag r (some 0) op = some 0 := by
          unfold nextFlag
          cases hbody : op.body with
          | flush unaligned address =>
              dsimp only
              exact if_neg fun hin => hflush ⟨unaligned, address, hbody, hin⟩
          | _ => rfl
        rw [hflag, ih]
        simp [hflush]

/-! ### Runs -/

section Runs

variable {s s' : TCState} {ops : List TraceOp} {r : RangedOp} {flag : Option Nat}

theorem Holds.run (h : Holds r flag s.cache) (hrun : ops.foldlM step s = .ok s') (hnew : r.op ∉ ops) :
    Holds r (ops.foldl (nextFlag r) flag) s'.cache := by
  induction ops generalizing s flag with
  | nil =>
      cases hrun
      exact h
  | cons op ops ih =>
      rw [List.foldlM_cons] at hrun
      obtain ⟨s₁, hstep, hrun⟩ := Loops.bind_ok hrun
      have hop : op ≠ r.op := fun heq => hnew (heq ▸ List.mem_cons_self)
      refine ih ?_ hrun fun hmem => hnew (List.mem_cons_of_mem op hmem)
      rw [(step_cache hstep).1]
      exact h.cacheStep hop

theorem unflushed_mono (hrun : ops.foldlM step s = .ok s') {x : TraceOp} (hx : x ∈ s.res.unflushedStores) :
    x ∈ s'.res.unflushedStores :=
  Loops.foldlM_invariant (P := fun s => x ∈ s.res.unflushedStores)
    (fun _ _ _ _ hs hstep => ((step_cache hstep).2 x).mpr (.inl hs)) hx hrun

/-- Nothing is reported between the boundaries. -/
theorem unflushed_quiet (hrun : ops.foldlM step s = .ok s') (hquiet : ∀ op ∈ ops, op.body.isBoundary = false) {x : TraceOp}
    (hx : x ∉ s.res.unflushedStores) : x ∉ s'.res.unflushedStores := by
  refine Loops.foldlM_invariant (P := fun s => x ∉ s.res.unflushedStores) ?_ hx hrun
  intro s₁ op hop s₂ hs hstep hx
  rcases ((step_cache hstep).2 x).mp hx with hx | ⟨hboundary, -⟩
  · exact hs hx
  · rw [hquiet op hop] at hboundary
    cases hboundary

/-- A store that the cache does not hold is not reported. -/
theorem unflushed_absent (hrun : ops.foldlM step s = .ok s') (h : Holds r none s.cache) (hnew : r.op ∉ ops)
    (hx : r.op ∉ s.res.unflushedStores) : Holds r none s'.cache ∧ r.op ∉ s'.res.unflushedStores := by
  refine Loops.foldlM_invariant (P := fun s => Holds r none s.cache ∧ r.op ∉ s.res.unflushedStores) ?_ ⟨h, hx⟩ hrun
  rintro s₁ op hop s₂ ⟨hs, hx⟩ hstep
  obtain ⟨hcache, hres⟩ := step_cache hstep
  constructor
  · have hnext := hs.cacheStep (show op ≠ r.op from fun heq => hnew (heq ▸ hop))
    have hnone : nextFlag r none op = none := foldl_nextFlag_none r [op]
    rw [hcache, ← hnone]
    exact hnext
  · intro hmem
    rcases (hres r.op).mp hmem with hmem | ⟨-, c, hc, heq⟩
    · exact hx hmem
    · cases (hs.flushed c hc heq).2

end Runs

/-- A store enters the cache unflushed. -/
theorem Holds.store {x : TraceOp} {st : StoreBody} {s s' : TCState} (hx : x.body = .store st)
    (h : Holds ⟨x, st.address, st.size⟩ none s.cache) (hstep : step s x = .ok s') :
    Holds ⟨x, st.address, st.size⟩ (some 0) s'.cache := by
  rw [(step_cache hstep).1, WitcherTCEngine.cacheStep, hx]
  refine ⟨?_, fun _ => ⟨_, List.mem_append_right _ (List.mem_singleton_self _), rfl⟩⟩
  intro c hc hop
  rcases List.mem_append.mp hc with hc | hc
  · cases (h.flushed c hc hop).2
  · rw [List.mem_singleton.mp hc]
    exact ⟨rfl, rfl⟩

/-- What is in the cache at a boundary is reported there, and at the end of the pass if there is none. -/
theorem reported_of_held {after : List TraceOp} {x : TraceOp} {s s' : TCState} (hrun : after.foldlM step s = .ok s')
    (hnext : ∀ op ∈ after.head?, op.body.isBoundary = true) (hheld : ∃ c ∈ s.cache, c.store.op = x) :
    x ∈ s'.res.unflushedStores ∨ ∃ c ∈ s'.cache, c.store.op = x := by
  cases after with
  | nil =>
      cases hrun
      exact .inr hheld
  | cons op after =>
      rw [List.foldlM_cons] at hrun
      obtain ⟨s₁, hstep, hrun⟩ := Loops.bind_ok hrun
      have hreported := ((step_cache hstep).2 x).mpr (.inr ⟨hnext op (by simp), hheld⟩)
      exact .inl (unflushed_mono hrun hreported)

/-- The report is decided by the rest of the store's transaction: `pre` and `after` are the operations of the
other transactions, and what comes next starts with a boundary. -/
theorem reported_iff {pre back after : List TraceOp} {x : TraceOp} {st : StoreBody} {s : TCState} (hx : x.body = .store st)
    (hrun : (pre ++ x :: (back ++ after)).foldlM step TCState.init = .ok s) (hnodup : (pre ++ x :: (back ++ after)).Nodup)
    (hquiet : ∀ op ∈ back, op.body.isBoundary = false)
    (hnext : ∀ op ∈ after.head?, op.body.isBoundary = true) :
    x ∈ (s.res.addUnflushed s.cache).unflushedStores ↔ ¬Persisted ⟨x, st.address, st.size⟩ back := by
  obtain ⟨-, hnodup', hdisjoint⟩ := List.nodup_append.mp hnodup
  have hpre : x ∉ pre := fun h => hdisjoint x h x List.mem_cons_self rfl
  have hrest : x ∉ back ++ after := (List.nodup_cons.mp hnodup').1
  have hback : x ∉ back := fun h => hrest (List.mem_append_left _ h)
  have hafter : x ∉ after := fun h => hrest (List.mem_append_right _ h)
  rw [List.foldlM_append] at hrun
  obtain ⟨s₁, hrun₁, hrun⟩ := Loops.bind_ok hrun
  rw [List.foldlM_cons] at hrun
  obtain ⟨s₂, hstep, hrun⟩ := Loops.bind_ok hrun
  rw [List.foldlM_append] at hrun
  obtain ⟨s₃, hrun₃, hrun⟩ := Loops.bind_ok hrun
  -- before the store, at the store, and at the end of its transaction
  obtain ⟨hholds₁, hres₁⟩ := unflushed_absent (r := ⟨x, st.address, st.size⟩) hrun₁
    ⟨by simp [TCState.init], by simp⟩ hpre (by simp [TCState.init, CTRes.init])
  have hholds₂ := hholds₁.store hx hstep
  have hres₂ : x ∉ s₂.res.unflushedStores := by
    intro hmem
    rcases ((step_cache hstep).2 x).mp hmem with hmem | ⟨hboundary, -⟩
    · exact hres₁ hmem
    · rw [hx] at hboundary
      cases hboundary
  have hholds₃ := hholds₂.run hrun₃ hback
  have hres₃ := unflushed_quiet hrun₃ hquiet hres₂
  rw [mem_addUnflushed, ← foldl_nextFlag_clear]
  constructor
  · intro hmem hnone
    rw [hnone] at hholds₃
    obtain ⟨hholds, hres⟩ := unflushed_absent hrun hholds₃ hafter hres₃
    rcases hmem with hmem | ⟨c, hc, heq⟩
    · exact hres hmem
    · cases (hholds.flushed c hc heq).2
  · intro hsome
    exact reported_of_held hrun hnext (hholds₃.held hsome)

/-! ### The transactions of a trace -/

theorem slice_sublist_drop {α : Type} (l back : List α) {i j low : Int} (hlow : 0 ≤ low) (hi : low ≤ i) (hij : i ≤ j)
    (hback : back.Sublist (l.drop j.toNat)) : (slice l i j ++ back).Sublist (l.drop low.toNat) := by
  have hslice : slice l i j = (l.drop i.toNat).take (j.toNat - i.toNat) := by
    rw [slice_of_nonneg l (by omega) (by omega), List.drop_take]
  have hdrop : l.drop j.toNat = (l.drop i.toNat).drop (j.toNat - i.toNat) := by
    rw [List.drop_drop]
    congr 1
    omega
  have hwhole : slice l i j ++ l.drop j.toNat = l.drop i.toNat := by rw [hslice, hdrop, List.take_append_drop]
  have htail : l.drop i.toNat = (l.drop low.toNat).drop (i.toNat - low.toNat) := by
    rw [List.drop_drop]
    congr 1
    omega
  have hleft : (slice l i j ++ back).Sublist (l.drop i.toNat) := by
    rw [← hwhole]
    exact (List.append_sublist_append_left _).mpr hback
  apply hleft.trans
  rw [htail]
  exact List.drop_sublist _ _

/-- The slices at ascending ranges are parts of the list, in order. -/
theorem slices_sublist {α : Type} (l : List α) {ranges : List (Int × Int)} (hascending : ranges.Pairwise fun r r' => r.2 < r'.1)
    (horder : ∀ r ∈ ranges, r.1 < r.2) {low : Int} (hlow : 0 ≤ low) (hfirst : ∀ r ∈ ranges, low ≤ r.1) :
    (ranges.map fun r => slice l r.1 r.2).flatten.Sublist (l.drop low.toNat) := by
  induction ranges generalizing low with
  | nil => exact List.nil_sublist _
  | cons r ranges ih =>
      obtain ⟨hr, hascending⟩ := List.pairwise_cons.mp hascending
      have hr₁ := hfirst r List.mem_cons_self
      have hr₂ := horder r List.mem_cons_self
      rw [List.map_cons, List.flatten_cons]
      apply slice_sublist_drop l _ hlow hr₁ (le_of_lt hr₂)
      exact ih hascending (fun r' hr' => horder r' (List.mem_cons_of_mem r hr')) (by omega) fun r' hr' => le_of_lt (hr r' hr')

theorem nodup_of_numbered {start : Int} {ops : List TraceOp} (h : TraceText.Numbered start ops) : ops.Nodup := by
  rw [List.Nodup, List.pairwise_iff_getElem]
  intro i j hi hj hij heq
  have hid := h i ops[i] (List.getElem?_eq_getElem hi)
  have hid' := h j ops[j] (List.getElem?_eq_getElem hj)
  rw [heq] at hid
  omega

theorem txOps_nodup {t : Trace} (h : Indexed t) : (txOps t).flatten.Nodup := by
  have hsub : (txOps t).flatten.Sublist (t.atomicWriteOps.drop (0 : Int).toNat) := by
    apply slices_sublist
    · exact h.atomicRanges.ascending.sublist List.filter_sublist
    · intro r hr
      exact (h.atomicRanges.range r (List.mem_filter.mp hr).1).order
    · exact le_refl 0
    · intro r hr
      exact (h.atomicRanges.range r (List.mem_filter.mp hr).1).low
  exact (nodup_of_numbered h.atomicIds).sublist hsub

/-- A transaction that is looked at starts with its `TXStart`. -/
theorem head_slice {ops : List TraceOp} {r : Int × Int} (h : TxRange ops r) :
    ∃ op rest, slice ops r.1 r.2 = op :: rest ∧ op.body = .txStart := by
  obtain ⟨op, hop, hbody⟩ := h.starts
  have hlow := h.low
  have horder := h.order
  have hlt : r.1.toNat < ops.length := (List.getElem?_eq_some_iff.mp hop).choose
  have hget : (ops.take r.2.toNat)[r.1.toNat]? = some op := by
    rw [List.getElem?_take, if_pos (by omega)]
    exact hop
  obtain ⟨hlt', hget'⟩ := List.getElem?_eq_some_iff.mp hget
  refine ⟨op, (ops.take r.2.toNat).drop (r.1.toNat + 1), ?_, hbody⟩
  rw [slice_of_nonneg ops hlow (by omega), List.drop_eq_getElem_cons hlt', hget']

/-! ### Positions -/

section Positions

variable {ops : List TraceOp} {i j : Int}

theorem getElem?_slice (hi : 0 ≤ i) (hj : 0 ≤ j) (n : Nat) :
    (slice ops i j)[n]? = if i.toNat + n < j.toNat then ops[i.toNat + n]? else none := by
  rw [slice_of_nonneg ops hi hj, List.getElem?_drop, List.getElem?_take]

theorem mem_slice (hi : 0 ≤ i) (hj : 0 ≤ j) {op : TraceOp} :
    op ∈ slice ops i j ↔ ∃ n : Nat, i ≤ n ∧ (n : Int) < j ∧ ops[n]? = some op := by
  rw [List.mem_iff_getElem?]
  constructor
  · rintro ⟨n, hn⟩
    rw [getElem?_slice hi hj] at hn
    split_ifs at hn with hlt
    exact ⟨i.toNat + n, by omega, by omega, hn⟩
  · rintro ⟨n, hin, hnj, hget⟩
    refine ⟨n - i.toNat, ?_⟩
    have hindex : i.toNat + (n - i.toNat) = n := by omega
    rw [getElem?_slice hi hj, hindex, if_pos (by omega)]
    exact hget

theorem slice_split (hi : 0 ≤ i) {k : Nat} (hik : i ≤ k) (hkj : (k : Int) < j) {op : TraceOp} (hk : ops[k]? = some op) :
    slice ops i j = slice ops i k ++ op :: slice ops (k + 1) j := by
  have hone : slice ops k (k + 1) = [op] := by
    obtain ⟨hlt, hget⟩ := List.getElem?_eq_some_iff.mp hk
    have hnext : ((k : Int) + 1).toNat = k + 1 := by omega
    rw [slice_of_nonneg ops (by omega) (by omega), hnext, Int.toNat_natCast, List.take_succ_eq_append_getElem hlt,
      List.drop_append_of_le_length (by rw [List.length_take]; omega), hget, List.drop_eq_nil_of_le, List.nil_append]
    rw [List.length_take]
    omega
  rw [← slice_append ops hi hik (le_of_lt hkj), ← slice_append ops (by omega) (show (k : Int) ≤ k + 1 by omega) (by omega),
    hone]
  rfl

/-- In positions of the trace. -/
theorem persisted_slice_iff (hi : 0 ≤ i) (hij : i ≤ j) {r : RangedOp} :
    Persisted r (slice ops i j) ↔ ∃ f g : Nat, i ≤ f ∧ f < g ∧ (g : Int) < j ∧
      (∃ op, ops[f]? = some op ∧ FlushOf r op) ∧ ∃ op, ops[g]? = some op ∧ op.body = .fence := by
  constructor
  · rintro ⟨front, f, back, hsplit, hf, g, hg, hfence⟩
    obtain ⟨n, hn⟩ := List.mem_iff_getElem?.mp hg
    have hfget : (slice ops i j)[front.length]? = some f := by
      rw [hsplit, List.getElem?_append_right (le_refl _), Nat.sub_self]
      rfl
    have hgget : (slice ops i j)[front.length + 1 + n]? = some g := by
      have hindex : front.length + 1 + n - front.length = n + 1 := by omega
      rw [hsplit, List.getElem?_append_right (by omega), hindex, List.getElem?_cons_succ]
      exact hn
    rw [getElem?_slice hi (by omega)] at hfget hgget
    split_ifs at hfget with hf'
    split_ifs at hgget with hg'
    exact ⟨_, _, by omega, by omega, by omega, ⟨f, hfget, hf⟩, g, hgget, hfence⟩
  · rintro ⟨f, g, hif, hfg, hgj, ⟨op, hop, hf⟩, op', hop', hfence⟩
    refine ⟨_, op, _, slice_split hi hif (by omega) hop, hf, op', ?_, hfence⟩
    rw [mem_slice (by omega) (by omega)]
    exact ⟨g, by omega, hgj, hop'⟩

end Positions

/-! ### Flushes of a line -/

/-- The range of the store lies in one line and reaches into it. -/
structure InLine (st : StoreBody) : Prop where
  reaches : st.address / 64 * 64 < st.address + st.size
  fits : st.address + st.size ≤ st.address / 64 * 64 + 64

theorem isInFlush_iff {op x : TraceOp} {st : StoreBody} {address : Int} (h : InLine st) (haligned : 64 ∣ address) :
    isInFlush ⟨op, address, TraceText.cachelineBytes⟩ ⟨x, st.address, st.size⟩ = true ↔ address = st.address / 64 * 64 := by
  have hreaches := h.reaches
  have hfits := h.fits
  obtain ⟨q, rfl⟩ := haligned
  rw [isInFlush, decide_eq_true_eq, RangedOp.rangeCmp, rangeCmp_eq_zero_iff]
  simp only [RangedOp.getMaxAddress, RangedOp.getBaseAddress, TraceText.cachelineBytes]
  constructor
  · rintro ⟨hbefore, hafter⟩
    omega
  · intro heq
    constructor <;> omega

theorem witcherTrace_aligned {table : CharTable} {text : List Char} {t : Trace} (h : witcherTrace table text = .ok t) :
    ∀ op ∈ t.atomicWriteOps, Aligned op := by
  obtain ⟨s, hscan, h⟩ := Loops.bind_ok h
  cases h
  refine Loops.foldlM_invariant (P := fun s => ∀ op ∈ s.trace.atomicWriteOps, Aligned op) ?_ (by simp [ScanState.init]) hscan
  intro s entry _ s' hs hentry
  rcases scanEntry_cases hentry with ⟨op, piece, -, -, -, -, -, hpiece, rfl⟩ | ⟨tid, srcInfo, -, -, -, rfl⟩ |
    ⟨tid, srcInfo, -, -, -, rfl⟩
  · exact List.forall_mem_append.mpr ⟨hs, fun p hp => (hpiece p hp).2⟩
  · exact List.forall_mem_append.mpr ⟨hs, List.forall_mem_singleton.mpr (by rintro _ _ ⟨⟩)⟩
  · exact List.forall_mem_append.mpr ⟨hs, List.forall_mem_singleton.mpr (by rintro _ _ ⟨⟩)⟩

/-! ### The report -/

/-- What comes after a transaction starts with the `TXStart` of the next one that is looked at. -/
theorem head_txOps {ops : List TraceOp} {ranges : List (Int × Int)} (h : ∀ r ∈ ranges, TxRange ops r) :
    ∀ op ∈ (ranges.map fun r => slice ops r.1 r.2).flatten.head?, op.body.isBoundary = true := by
  cases ranges with
  | nil => simp
  | cons r ranges =>
      obtain ⟨op, rest, hslice, hbody⟩ := head_slice (h r List.mem_cons_self)
      rw [List.map_cons, List.flatten_cons, hslice]
      intro op' hop'
      rw [List.cons_append, List.head?_cons, Option.mem_def, Option.some_inj] at hop'
      rw [← hop', hbody]
      rfl

/-- A flush of the store is a flush of its line. -/
theorem exists_flushOf_iff {ops : List TraceOp} {x : TraceOp} {st : StoreBody} (haligned : ∀ op ∈ ops, Aligned op)
    (hline : InLine st) (f : Nat) :
    (∃ op, ops[f]? = some op ∧ FlushOf ⟨x, st.address, st.size⟩ op) ↔
      ∃ op unaligned, ops[f]? = some op ∧ op.body = .flush unaligned (st.address / 64 * 64) := by
  constructor
  · rintro ⟨op, hop, unaligned, address, hbody, hin⟩
    rw [isInFlush_iff hline (haligned op (List.mem_of_getElem? hop) unaligned address hbody)] at hin
    exact ⟨op, unaligned, hop, hin ▸ hbody⟩
  · rintro ⟨op, unaligned, hop, hbody⟩
    refine ⟨op, hop, unaligned, _, hbody, ?_⟩
    rw [isInFlush_iff hline (Dvd.intro_left _ rfl)]

/-- The store at position `k` of a transaction that is not skipped is reported exactly if the transaction
holds no flush of its line after it with a fence after that. -/
theorem unflushedStores_iff (table : CharTable) (text : List Char) (t : Trace) (s : TCState)
    (htrace : witcherTrace table text = .ok t) (hpass : firstPass t = .ok s) (r : Int × Int)
    (hr : r ∈ t.atomicWriteOpsTxRanges) (hlength : r.2 - r.1 ≤ maxTxLength) (k : Nat) (hlow : r.1 < k) (hhigh : k < r.2)
    (x : TraceOp) (st : StoreBody) (hx : t.atomicWriteOps[k]? = some x) (hst : x.body = .store st) (hline : InLine st) :
    x ∈ s.res.unflushedStores ↔ ¬∃ f g : Nat, k < f ∧ f < g ∧ g < r.2 ∧
      (∃ op unaligned, t.atomicWriteOps[f]? = some op ∧ op.body = .flush unaligned (st.address / 64 * 64)) ∧
      ∃ op, t.atomicWriteOps[g]? = some op ∧ op.body = .fence := by
  have hindexed := witcherTrace_indexed table text t htrace
  have haligned := witcherTrace_aligned htrace
  have hrange := hindexed.atomicRanges.range
  obtain ⟨hzero, -, -, -, hquiet⟩ := hrange r hr
  have hkept : r ∈ t.atomicWriteOpsTxRanges.filter fun r => !decide (r.2 - r.1 > maxTxLength) := by
    rw [List.mem_filter]
    exact ⟨hr, by simpa using hlength⟩
  obtain ⟨before, after, hsplit⟩ := List.append_of_mem hkept
  have hnodup := txOps_nodup hindexed
  obtain ⟨s₀, hrun, hpass⟩ := Loops.bind_ok hpass
  cases hpass
  rw [Loops.foldlM_flatten] at hrun
  have hflat : (txOps t).flatten =
    ((before.map fun r => slice t.atomicWriteOps r.1 r.2).flatten ++ slice t.atomicWriteOps r.1 k) ++
      x :: (slice t.atomicWriteOps (k + 1) r.2 ++ (after.map fun r => slice t.atomicWriteOps r.1 r.2).flatten) := by
    rw [txOps, hsplit, List.map_append, List.map_cons, List.flatten_append, List.flatten_cons,
      slice_split hzero (le_of_lt hlow) hhigh hx]
    simp only [List.append_assoc, List.cons_append]
  rw [hflat] at hrun hnodup
  have hback : ∀ op ∈ slice t.atomicWriteOps (k + 1) r.2, op.body.isBoundary = false := by
    intro op hop
    obtain ⟨n, hkn, hnr, hn⟩ := (mem_slice (by omega) (by omega)).mp hop
    exact hquiet n op (by omega) hnr hn
  have hafter := head_txOps fun r' (hr' : r' ∈ after) =>
    hrange r' (List.mem_filter.mp (hsplit ▸ List.mem_append_right _ (List.mem_cons_of_mem r hr'))).1
  rw [reported_iff hst hrun hnodup hback hafter, persisted_slice_iff (by omega) (by omega)]
  simp only [exists_flushOf_iff haligned hline]
  apply not_congr
  constructor
  · rintro ⟨f, g, hkf, hrest⟩
    exact ⟨f, g, by omega, hrest⟩
  · rintro ⟨f, g, hkf, hrest⟩
    exact ⟨f, g, by omega, hrest⟩

/-- A store that is flushed and fenced, and one that is only flushed. -/
def flushedTrace : List Char :=
  ["TXStart,7,a.c:1", "Store,7,1000,2,00 01,a.c:2", "Flush,7,1008,a.c:3", "Fence,7,a.c:4", "Store,7,1002,2,02 03,a.c:5",
    "Flush,7,1000,a.c:6", "TXEnd,7,a.c:7"].flatMap fun line => line.toList ++ ['\n']

/-- The second store of the trace. -/
def lateStore : TraceOp :=
  ⟨4, 7, "a.c:5".toList, .store ⟨0x1002, 2, ["02".toList, "03".toList], [2, 3]⟩⟩

def flushedOps : Trace :=
  let ops : List TraceOp :=
    [⟨0, 7, "a.c:1".toList, .txStart⟩,
      ⟨1, 7, "a.c:2".toList, .store ⟨0x1000, 2, ["00".toList, "01".toList], [0, 1]⟩⟩,
      ⟨2, 7, "a.c:3".toList, .flush 0x1008 0x1000⟩,
      ⟨3, 7, "a.c:4".toList, .fence⟩,
      lateStore,
      ⟨5, 7, "a.c:6".toList, .flush 0x1000 0x1000⟩,
      ⟨6, 7, "a.c:7".toList, .txEnd⟩]
  ⟨ops, [(0, 6)], ops, [(0, 6)]⟩

theorem unflushedStores_iff_late :
    ∃ s, witcherTrace ⟨id, fun _ _ => rfl⟩ flushedTrace = .ok flushedOps ∧ firstPass flushedOps = .ok s ∧
      s.res.unflushedStores = [lateStore] ∧
      (lateStore ∈ s.res.unflushedStores ↔ ¬∃ f g : Nat, 4 < f ∧ f < g ∧ (g : Int) < 6 ∧
        (∃ op unaligned, flushedOps.atomicWriteOps[f]? = some op ∧ op.body = .flush unaligned (0x1002 / 64 * 64)) ∧
        ∃ op, flushedOps.atomicWriteOps[g]? = some op ∧ op.body = .fence) := by
  have hread : witcherTrace ⟨id, fun _ _ => rfl⟩ flushedTrace = .ok flushedOps := by decide +kernel
  obtain ⟨s, hs⟩ : ∃ s, firstPass flushedOps = .ok s := ⟨_, rfl⟩
  refine ⟨s, hread, hs, ?_, ?_⟩
  · cases hs
    decide +kernel
  · exact unflushedStores_iff ⟨id, fun _ _ => rfl⟩ flushedTrace flushedOps s hread hs (0, 6) (by decide +kernel) (by decide)
      4 (by decide) (by decide) lateStore _ rfl rfl ⟨by decide, by decide⟩

end Witcher.WitcherTCEngine

import Mathlib.Data.List.Nodup
import Witcher.Loops

/-! Insertion-ordered dictionaries: assigning to a new key appends it, assigning to a present key
keeps its place, and iteration follows the order of insertion. The entries carry the proof that no
key occurs twice. -/

namespace Witcher

structure Dict (κ ν : Type) where
  entries : List (κ × ν)
  nodup : (entries.map Prod.fst).Nodup

namespace Dict

variable {κ ν σ ε : Type}

def empty : Dict κ ν := ⟨[], List.nodup_nil⟩

def keys (d : Dict κ ν) : List κ := d.entries.map Prod.fst

def values (d : Dict κ ν) : List ν := d.entries.map Prod.snd

theorem nodup_keys (d : Dict κ ν) : d.keys.Nodup := d.nodup

section Lookup

variable [DecidableEq κ]

def lookup (k : κ) : List (κ × ν) → Option ν
  | [] => none
  | (a, v) :: es => if a = k then some v else lookup k es

def get? (d : Dict κ ν) (k : κ) : Option ν := lookup k d.entries

theorem lookup_eq_none_iff (k : κ) (es : List (κ × ν)) : lookup k es = none ↔ k ∉ es.map Prod.fst := by
  induction es with
  | nil => simp [lookup]
  | cons e es ih =>
      obtain ⟨a, v⟩ := e
      by_cases h : a = k
      · simp [lookup, h]
      · simp [lookup, h, ih, Ne.symm h]

theorem mem_of_lookup {k : κ} {v : ν} {es : List (κ × ν)} (h : lookup k es = some v) : (k, v) ∈ es := by
  induction es with
  | nil => cases h
  | cons e es ih =>
      obtain ⟨a, w⟩ := e
      by_cases ha : a = k
      · simp only [lookup, ha, if_true, Option.some.injEq] at h
        simp [ha, h]
      · simp only [lookup, ha, if_false] at h
        exact List.mem_cons_of_mem _ (ih h)

theorem lookup_of_mem {k : κ} {v : ν} {es : List (κ × ν)} (hnodup : (es.map Prod.fst).Nodup)
    (h : (k, v) ∈ es) : lookup k es = some v := by
  induction es with
  | nil => simp at h
  | cons e es ih =>
      obtain ⟨a, w⟩ := e
      simp only [List.map_cons, List.nodup_cons] at hnodup
      rcases List.mem_cons.mp h with heq | hmem
      · cases heq
        simp [lookup]
      · have hne : a ≠ k := by
          rintro rfl
          exact hnodup.1 (List.mem_map_of_mem hmem)
        simp only [lookup, hne, if_false]
        exact ih hnodup.2 hmem

theorem mem_entries_iff (d : Dict κ ν) (k : κ) (v : ν) : (k, v) ∈ d.entries ↔ d.get? k = some v :=
  ⟨lookup_of_mem d.nodup, mem_of_lookup⟩

theorem get?_eq_none_iff (d : Dict κ ν) (k : κ) : d.get? k = none ↔ k ∉ d.keys :=
  lookup_eq_none_iff k d.entries

theorem mem_keys_iff (d : Dict κ ν) (k : κ) : k ∈ d.keys ↔ ∃ v, d.get? k = some v := by
  rw [← not_iff_not, ← get?_eq_none_iff, Option.eq_none_iff_forall_ne_some, not_exists]

@[simp] theorem get?_empty (k : κ) : (empty : Dict κ ν).get? k = none := rfl

/-- `d[k] = v`. -/
def set (d : Dict κ ν) (k : κ) (v : ν) : Dict κ ν :=
  if h : k ∈ d.keys then
    ⟨d.entries.map fun e => if e.1 = k then (k, v) else e, by
      have hkeys : (d.entries.map fun e => if e.1 = k then (k, v) else e).map Prod.fst = d.keys := by
        rw [List.map_map, keys]
        apply List.map_congr_left
        intro e _
        by_cases he : e.1 = k <;> simp [he]
      rw [hkeys]
      exact d.nodup⟩
  else
    ⟨d.entries ++ [(k, v)], by
      rw [List.map_append, List.nodup_append]
      refine ⟨d.nodup, List.nodup_singleton k, ?_⟩
      intro a ha b hb hab
      have hbk : b = k := by simpa using hb
      exact h (by rw [← hbk, ← hab]; exact ha)⟩

theorem lookup_map_set (k a : κ) (v : ν) (es : List (κ × ν)) :
    lookup a (es.map fun e => if e.1 = k then (k, v) else e) =
      if a = k ∧ k ∈ es.map Prod.fst then some v else lookup a es := by
  induction es with
  | nil => simp [lookup]
  | cons e es ih =>
      obtain ⟨b, w⟩ := e
      by_cases hb : b = k
      · subst hb
        by_cases ha : a = b
        · simp [lookup, ha]
        · simp [lookup, ha, Ne.symm ha, ih]
      · by_cases hba : b = a
        · subst hba
          simp [lookup, hb]
        · simp only [List.map_cons, hb, if_false, lookup, hba, ih, List.mem_cons, Ne.symm hb, false_or]

theorem lookup_append_singleton (k a : κ) (v : ν) (es : List (κ × ν)) (hk : k ∉ es.map Prod.fst) :
    lookup a (es ++ [(k, v)]) = if a = k then some v else lookup a es := by
  induction es with
  | nil => simp [lookup, eq_comm]
  | cons e es ih =>
      obtain ⟨b, w⟩ := e
      simp only [List.map_cons, List.mem_cons, not_or] at hk
      have hrest := ih hk.2
      by_cases hba : b = a
      · subst hba
        simp [lookup, Ne.symm hk.1]
      · simp [lookup, hba, hrest]

theorem get?_set (d : Dict κ ν) (k a : κ) (v : ν) :
    (d.set k v).get? a = if a = k then some v else d.get? a := by
  by_cases h : k ∈ d.keys
  · rw [set, dif_pos h, get?, lookup_map_set]
    simp only [keys] at h
    simp [h, get?]
  · rw [set, dif_neg h, get?, lookup_append_singleton k a v d.entries h]
    rfl

/-- `del d[k]`, on a present key. -/
def erase (d : Dict κ ν) (k : κ) : Dict κ ν :=
  ⟨d.entries.filter fun e => !decide (e.1 = k), d.nodup.sublist (List.filter_sublist.map Prod.fst)⟩

theorem lookup_filter_ne (k a : κ) (es : List (κ × ν)) :
    lookup a (es.filter fun e => !decide (e.1 = k)) = if a = k then none else lookup a es := by
  induction es with
  | nil => simp [lookup]
  | cons e es ih =>
      obtain ⟨b, w⟩ := e
      by_cases hb : b = k
      · subst hb
        by_cases ha : a = b
        · subst ha
          simpa using ih
        · simp [ih, ha, lookup, Ne.symm ha]
      · by_cases hba : b = a
        · subst hba
          simp [lookup, hb]
        · simp [hb, lookup, hba, ih]

theorem get?_erase (d : Dict κ ν) (k a : κ) :
    (d.erase k).get? a = if a = k then none else d.get? a :=
  lookup_filter_ne k a d.entries

end Lookup

/-! ### Iteration -/

/-- A loop over the values that threads a state and may replace each value. -/
def traverseEntries (f : σ → ν → Except ε (σ × ν)) : σ → List (κ × ν) → Except ε (σ × List (κ × ν))
  | s, [] => .ok (s, [])
  | s, (k, v) :: es => do
      let (s, v) ← f s v
      let (s, es) ← traverseEntries f s es
      .ok (s, (k, v) :: es)

theorem traverseEntries_keys {f : σ → ν → Except ε (σ × ν)} {s t : σ} {es es' : List (κ × ν)}
    (h : traverseEntries f s es = .ok (t, es')) : es'.map Prod.fst = es.map Prod.fst := by
  induction es generalizing s t es' with
  | nil => cases h; rfl
  | cons e es ih =>
      obtain ⟨k, v⟩ := e
      obtain ⟨⟨s1, v1⟩, _, h⟩ := Loops.bind_ok h
      obtain ⟨⟨s2, es2⟩, hrest, h⟩ := Loops.bind_ok h
      cases h
      rw [List.map_cons, List.map_cons, ih hrest]

def traverse (f : σ → ν → Except ε (σ × ν)) (s : σ) (d : Dict κ ν) : Except ε (σ × Dict κ ν) :=
  match h : traverseEntries f s d.entries with
  | .ok (t, es) => .ok (t, ⟨es, by rw [traverseEntries_keys h]; exact d.nodup⟩)
  | .error e => .error e

theorem traverse_ok {f : σ → ν → Except ε (σ × ν)} {s t : σ} {d : Dict κ ν} {es : List (κ × ν)}
    (h : traverseEntries f s d.entries = .ok (t, es)) :
    ∃ d' : Dict κ ν, traverse f s d = .ok (t, d') ∧ d'.entries = es := by
  refine ⟨⟨es, by rw [traverseEntries_keys h]; exact d.nodup⟩, ?_, rfl⟩
  unfold traverse
  split
  · rename_i heq
    rw [h] at heq
    cases heq
    rfl
  · rename_i heq
    rw [h] at heq
    cases heq

end Dict

end Witcher

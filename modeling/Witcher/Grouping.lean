import Mathlib.Algebra.GroupWithZero.Nat
import Mathlib.Data.List.Perm.Basic
import Witcher.Dict

/-! Records grouped and counted in dictionaries. `modify` assigns a default to an absent key and then
changes the value of the key; a group of a group is a `modify` in a `modify`. What a dictionary
holds, list after list, is known up to the order of the keys, and a counter is known by the weight of
the records it counts. -/

namespace Witcher

namespace Dict

variable {κ ν γ : Type} [DecidableEq κ]

/-- `if k not in d: d[k] = default`, then `d[k]` is changed. -/
def modify (d : Dict κ ν) (k : κ) (default : ν) (f : ν → ν) : Dict κ ν := d.set k (f ((d.get? k).getD default))

theorem get?_modify (d : Dict κ ν) (k a : κ) (default : ν) (f : ν → ν) :
    (d.modify k default f).get? a = if a = k then some (f ((d.get? k).getD default)) else d.get? a :=
  get?_set d k a _

omit [DecidableEq κ] in
theorem ne_of_entries_eq {d : Dict κ ν} {front back : List (κ × ν)} {k : κ} {v : ν} (h : d.entries = front ++ (k, v) :: back) :
    ∀ e ∈ front ++ back, e.1 ≠ k := by
  have hnodup := d.nodup
  rw [h, List.map_append, List.map_cons, List.nodup_middle, List.nodup_cons, ← List.map_append] at hnodup
  have hnew : k ∉ (front ++ back).map Prod.fst := hnodup.1
  rintro e he rfl
  exact hnew (List.mem_map_of_mem he)

omit [DecidableEq κ] in
theorem eq_of_mem_entries {d : Dict κ ν} {e e' : κ × ν} (h : e ∈ d.entries) (h' : e' ∈ d.entries) (hkey : e.1 = e'.1) :
    e = e' :=
  List.inj_on_of_nodup_map d.nodup h h' hkey

/-- The entry that is changed, in its place or at the end, and the entries around it. -/
theorem entries_modify (d : Dict κ ν) (k : κ) (default : ν) (f : ν → ν) :
    ∃ (front back : List (κ × ν)) (v : ν), (d.modify k default f).entries = front ++ (k, f v) :: back ∧
      (d.entries = front ++ (k, v) :: back ∨ d.entries = front ∧ back = [] ∧ v = default) := by
  by_cases hk : k ∈ d.keys
  · obtain ⟨v, hv⟩ := (mem_keys_iff d k).mp hk
    obtain ⟨front, back, hsplit⟩ := List.append_of_mem ((mem_entries_iff d k v).mpr hv)
    refine ⟨front, back, v, ?_, .inl hsplit⟩
    have hother := ne_of_entries_eq hsplit
    have hkeep : ∀ es : List (κ × ν), (∀ e ∈ es, e ∈ front ++ back) →
        (es.map fun e => if e.1 = k then (k, f v) else e) = es := by
      intro es hes
      conv_rhs => rw [← List.map_id es]
      exact List.map_congr_left fun e he => if_neg (hother e (hes e he))
    rw [modify, set, dif_pos hk, hv, Option.getD_some]
    dsimp only
    rw [hsplit, List.map_append, List.map_cons, if_pos rfl, hkeep front (by simp_all), hkeep back (by simp_all)]
  · refine ⟨d.entries, [], default, ?_, .inr ⟨rfl, rfl, rfl⟩⟩
    rw [modify, set, dif_neg hk, (get?_eq_none_iff d k).mpr hk, Option.getD_none]

theorem entries_modify_ne_nil (d : Dict κ ν) (k : κ) (default : ν) (f : ν → ν) : (d.modify k default f).entries ≠ [] := by
  obtain ⟨front, back, v, hentries, -⟩ := entries_modify d k default f
  rw [hentries]
  simp

theorem forall_modify {P : κ → ν → Prop} {d : Dict κ ν} {k : κ} {default : ν} {f : ν → ν}
    (h : ∀ e ∈ d.entries, P e.1 e.2) (hstep : ∀ v, (v = default ∨ P k v) → P k (f v)) :
    ∀ e ∈ (d.modify k default f).entries, P e.1 e.2 := by
  obtain ⟨front, back, v, hentries, hold⟩ := entries_modify d k default f
  have hnew : P k (f v) := by
    refine hstep v ?_
    rcases hold with hd | ⟨-, -, hv⟩
    · exact .inr (h (k, v) (by simp [hd]))
    · exact .inl hv
  have hrest : ∀ e ∈ front ++ back, e ∈ d.entries := by
    intro e he
    rcases hold with hd | ⟨hd, hback, -⟩
    · rw [hd]
      simp only [List.mem_append, List.mem_cons] at he ⊢
      tauto
    · simpa [hd, hback] using he
  intro e he
  rw [hentries] at he
  rcases List.mem_append.mp he with hfront | hcons
  · exact h e (hrest e (List.mem_append_left _ hfront))
  · rcases List.mem_cons.mp hcons with rfl | hback
    · exact hnew
    · exact h e (hrest e (List.mem_append_right _ hback))

/-- What the entries hold, one after the other. -/
def contents (d : Dict κ ν) (g : κ → ν → List γ) : List γ := d.entries.flatMap fun e => g e.1 e.2

omit [DecidableEq κ] in
theorem mem_contents {d : Dict κ ν} {g : κ → ν → List γ} {x : γ} : x ∈ d.contents g ↔ ∃ e ∈ d.entries, x ∈ g e.1 e.2 :=
  List.mem_flatMap

/-- A change that adds `new` to what the value holds adds it to what the dictionary holds. -/
theorem contents_modify {g : κ → ν → List γ} {d : Dict κ ν} {k : κ} {default : ν} {f : ν → ν} {new : List γ}
    (hdefault : g k default = []) (hstep : ∀ v, (g k (f v)).Perm (g k v ++ new)) :
    ((d.modify k default f).contents g).Perm (d.contents g ++ new) := by
  obtain ⟨front, back, v, hentries, hold⟩ := entries_modify d k default f
  have hbefore : d.contents g = (front.flatMap fun e => g e.1 e.2) ++ (g k v ++ back.flatMap fun e => g e.1 e.2) := by
    rcases hold with hd | ⟨hd, hback, hv⟩
    · rw [contents, hd, List.flatMap_append, List.flatMap_cons]
    · rw [contents, hd, hback, hv, hdefault, List.flatMap_nil, List.append_nil, List.append_nil]
  rw [hbefore, contents, hentries, List.flatMap_append, List.flatMap_cons, List.append_assoc, List.append_assoc]
  refine List.Perm.append_left _ (((hstep v).append_right _).trans ?_)
  rw [List.append_assoc]
  exact List.Perm.append_left _ List.perm_append_comm

/-- What one key holds, if everything that it holds is tagged with the key. -/
theorem filter_contents {g : κ → ν → List γ} {tag : γ → κ} (htag : ∀ k v, ∀ x ∈ g k v, tag x = k) {d : Dict κ ν}
    {k : κ} {v : ν} (h : (k, v) ∈ d.entries) : (d.contents g).filter (fun x => decide (tag x = k)) = g k v := by
  obtain ⟨front, back, hsplit⟩ := List.append_of_mem h
  have hother : ∀ es : List (κ × ν), (∀ e ∈ es, e ∈ front ++ back) →
      (es.flatMap fun e => g e.1 e.2).filter (fun x => decide (tag x = k)) = [] := by
    intro es hes
    rw [List.filter_eq_nil_iff]
    intro x hx
    obtain ⟨e, he, hxe⟩ := List.mem_flatMap.mp hx
    rw [htag e.1 e.2 x hxe, decide_eq_true_eq]
    exact ne_of_entries_eq hsplit e (hes e he)
  have hkeep : (g k v).filter (fun x => decide (tag x = k)) = g k v :=
    List.filter_eq_self.mpr fun x hx => decide_eq_true (htag k v x hx)
  rw [contents, hsplit, List.flatMap_append, List.flatMap_cons, List.filter_append, List.filter_append, hkeep,
    hother front (by simp_all), hother back (by simp_all), List.nil_append, List.append_nil]

end Dict

/-! ### Weights -/

namespace Grouping

variable {κ γ : Type}

/-- The weight of the records that satisfy `p`. -/
def weight (w : γ → Nat) (p : γ → Prop) [DecidablePred p] (records : List γ) : Nat :=
  ((records.filter fun x => decide (p x)).map w).sum

variable {w : γ → Nat} {p : γ → Prop} [DecidablePred p] {records : List γ}

theorem weight_split (q : γ → Prop) [DecidablePred q] :
    weight w p records = weight w (fun x => p x ∧ q x) records + weight w (fun x => p x ∧ ¬q x) records := by
  induction records with
  | nil => rfl
  | cons x records ih =>
      simp only [weight, List.filter_cons, decide_eq_true_eq] at ih ⊢
      by_cases hp : p x
      · by_cases hq : q x
        · simp [hp, hq, ih]
          omega
        · simp [hp, hq, ih]
          omega
      · simp [hp, ih]

theorem weight_eq_zero_iff (hw : ∀ x ∈ records, 0 < w x) : weight w p records = 0 ↔ ∀ x ∈ records, ¬p x := by
  rw [weight, List.sum_eq_zero_iff_forall_eq_nat]
  constructor
  · intro h x hx hp
    have hzero := h (w x) (List.mem_map_of_mem (List.mem_filter.mpr ⟨hx, decide_eq_true hp⟩))
    exact absurd hzero (Nat.pos_iff_ne_zero.mp (hw x hx))
  · intro h n hn
    obtain ⟨x, hx, -⟩ := List.mem_map.mp hn
    rw [List.mem_filter, decide_eq_true_eq] at hx
    exact absurd hx.2 (h x hx.1)

theorem sum_flatMap {α : Type} (w : γ → Nat) (l : List α) (g : α → List γ) :
    ((l.flatMap g).map w).sum = (l.map fun a => ((g a).map w).sum).sum := by
  induction l with
  | nil => rfl
  | cons a l ih => rw [List.flatMap_cons, List.map_append, List.sum_append, ih, List.map_cons, List.sum_cons]

variable [DecidableEq κ]

/-- The counter of a key after `records` were counted, `none` for a key that no record has. -/
def tally (key : γ → κ) (w : γ → Nat) (records : List γ) (k : κ) : Option Nat :=
  if k ∈ records.map key then some (weight w (fun x => key x = k) records) else none

theorem getD_tally (key : γ → κ) (w : γ → Nat) (records : List γ) (k : κ) :
    (tally key w records k).getD 0 = weight w (fun x => key x = k) records := by
  rw [tally]
  split_ifs with h
  · rfl
  · have hnone : (records.filter fun x => decide (key x = k)) = [] := by
      rw [List.filter_eq_nil_iff]
      intro x hx
      rw [decide_eq_true_eq]
      rintro rfl
      exact h (List.mem_map_of_mem hx)
    rw [weight, hnone]
    rfl

/-- One more record. -/
theorem tally_concat (key : γ → κ) (w : γ → Nat) (records : List γ) (x : γ) (k : κ) :
    tally key w (records ++ [x]) k =
      if k = key x then some ((tally key w records (key x)).getD 0 + w x) else tally key w records k := by
  rw [getD_tally]
  by_cases hk : k = key x
  · subst hk
    rw [tally, if_pos (by simp), if_pos rfl, weight, List.filter_append, List.map_append, List.sum_append, ← weight]
    simp
  · have hweight : weight w (fun y => key y = k) (records ++ [x]) = weight w (fun y => key y = k) records := by
      simp [weight, List.filter_append, Ne.symm hk]
    rw [if_neg hk, tally, tally, hweight]
    simp [hk]

/-- A dictionary of counters counts one more record. -/
theorem get?_count {d : Dict κ Nat} {key : γ → κ} (h : ∀ k, d.get? k = tally key w records k) (x : γ) (k : κ) :
    (d.modify (key x) 0 (· + w x)).get? k = tally key w (records ++ [x]) k := by
  rw [Dict.get?_modify, tally_concat, h, h]

end Grouping

end Witcher

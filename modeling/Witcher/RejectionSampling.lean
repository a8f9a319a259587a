import Mathlib.Data.Finset.Card
import Mathlib.Data.List.Nodup

/-! Rejection sampling of distinct values. Values are drawn one after the other and a value that was
already chosen is drawn again. Nothing is assumed about the draws but their support: the loop can
always be finished from where it stands if and as long as the support has enough values. -/

namespace Witcher.RejectionSampling

variable {α : Type}

theorem nodup_append_unused {chosen : List α} {a : α} (hnodup : chosen.Nodup) (ha : a ∉ chosen) : (chosen ++ [a]).Nodup := by
  rw [List.nodup_append]
  refine ⟨hnodup, List.nodup_singleton a, ?_⟩
  intro b hb c hc hbc
  rw [List.mem_singleton.mp hc] at hbc
  exact ha (hbc ▸ hb)

variable [DecidableEq α]

/-- Chooses `n` values besides `chosen`, reading the draws; `none` while they do not suffice. -/
def sample : Nat → List α → List α → Option (List α)
  | 0, chosen, _ => some chosen
  | _ + 1, _, [] => none
  | n + 1, chosen, a :: draws => if a ∈ chosen then sample (n + 1) chosen draws else sample n (chosen ++ [a]) draws

theorem sample_sound {n : Nat} {chosen draws out : List α} (hnodup : chosen.Nodup) (h : sample n chosen draws = some out) :
    out.Nodup ∧ out.length = chosen.length + n ∧ ∀ a ∈ out, a ∈ chosen ∨ a ∈ draws := by
  induction draws generalizing n chosen with
  | nil =>
      cases n with
      | zero =>
          cases h
          exact ⟨hnodup, rfl, fun a ha => .inl ha⟩
      | succ n => cases h
  | cons a draws ih =>
      cases n with
      | zero =>
          cases h
          exact ⟨hnodup, rfl, fun a ha => .inl ha⟩
      | succ n =>
          rw [sample] at h
          split_ifs at h with ha
          · obtain ⟨hout, hlength, hmem⟩ := ih hnodup h
            exact ⟨hout, hlength, fun b hb => (hmem b hb).imp_right (List.mem_cons_of_mem a)⟩
          · obtain ⟨hout, hlength, hmem⟩ := ih (nodup_append_unused hnodup ha) h
            refine ⟨hout, ?_, ?_⟩
            · rw [hlength, List.length_append, List.length_singleton]
              omega
            · intro b hb
              rcases hmem b hb with hb | hb
              · rcases List.mem_append.mp hb with hb | hb
                · exact .inl hb
                · exact .inr (by rw [List.mem_singleton.mp hb]; exact List.mem_cons_self)
              · exact .inr (List.mem_cons_of_mem a hb)

section Support

variable {support : Finset α} {chosen : List α}

/-- While fewer values are chosen than the support has, one of them is unused. -/
theorem exists_unused (hnodup : chosen.Nodup) (hroom : chosen.length < support.card) : ∃ a ∈ support, a ∉ chosen := by
  have hcard : chosen.toFinset.card < support.card := by rwa [List.toFinset_card_of_nodup hnodup]
  obtain ⟨a, ha, hnot⟩ := Finset.exists_mem_notMem_of_card_lt_card hcard
  exact ⟨a, ha, fun h => hnot (List.mem_toFinset.mpr h)⟩

theorem sample_finishes_here {n : Nat} (hnodup : chosen.Nodup) (hroom : chosen.length + n ≤ support.card) :
    ∃ more : List α, (∀ a ∈ more, a ∈ support) ∧ (sample n chosen more).isSome := by
  induction n generalizing chosen with
  | zero => exact ⟨[], by simp, by simp [sample]⟩
  | succ n ih =>
      obtain ⟨a, ha, hnot⟩ := exists_unused hnodup (show chosen.length < support.card by omega)
      have hlength : (chosen ++ [a]).length + n ≤ support.card := by
        rw [List.length_append, List.length_singleton]
        omega
      obtain ⟨more, hmore, hsome⟩ := ih (nodup_append_unused hnodup hnot) hlength
      refine ⟨a :: more, ?_, ?_⟩
      · intro b hb
        rcases List.mem_cons.mp hb with rfl | hb
        · exact ha
        · exact hmore b hb
      · rw [sample, if_neg hnot]
        exact hsome

/-- Whatever was drawn so far, some further draws from the support finish the loop. -/
theorem sample_finishes {n : Nat} (draws : List α) (hnodup : chosen.Nodup) (hroom : chosen.length + n ≤ support.card) :
    ∃ more : List α, (∀ a ∈ more, a ∈ support) ∧ (sample n chosen (draws ++ more)).isSome := by
  induction draws generalizing n chosen with
  | nil => exact sample_finishes_here hnodup hroom
  | cons a draws ih =>
      cases n with
      | zero => exact ⟨[], by simp, by simp [sample]⟩
      | succ n =>
          by_cases ha : a ∈ chosen
          · obtain ⟨more, hmore, hsome⟩ := ih hnodup hroom
            refine ⟨more, hmore, ?_⟩
            rw [List.cons_append, sample, if_pos ha]
            exact hsome
          · have hlength : (chosen ++ [a]).length + n ≤ support.card := by
              rw [List.length_append, List.length_singleton]
              omega
            obtain ⟨more, hmore, hsome⟩ := ih (nodup_append_unused hnodup ha) hlength
            refine ⟨more, hmore, ?_⟩
            rw [List.cons_append, sample, if_neg ha]
            exact hsome

end Support

end Witcher.RejectionSampling

import Mathlib.Data.List.Basic
import Mathlib.Data.PNat.Notation
import Mathlib.Tactic.Common

namespace MarketTrader.Library

variable {α : Type}

/-- `l[start::step]`. -/
def stride (l : List α) (start : ℕ) (step : ℕ+) : List α :=
  ((l.drop start).zipIdx.filter (fun p ↦ p.2 % (step : ℕ) = 0)).map Prod.fst

theorem stride_sublist (l : List α) (start : ℕ) (step : ℕ+) : (stride l start step).Sublist l := by
  have hs : (stride l start step).Sublist ((l.drop start).zipIdx.map Prod.fst) :=
    List.filter_sublist.map _
  rw [List.zipIdx_map_fst] at hs
  exact hs.trans (List.drop_sublist start l)

theorem mem_stride {l : List α} {start : ℕ} {step : ℕ+} {a : α} : a ∈ stride l start step ↔
    ∃ i, l[i]? = some a ∧ start ≤ i ∧ (step : ℕ) ∣ i - start := by
  simp only [stride, List.mem_map, List.mem_filter, decide_eq_true_eq, Prod.exists,
    exists_and_right, exists_eq_right, List.mk_mem_zipIdx_iff_getElem?, List.getElem?_drop]
  constructor
  · rintro ⟨j, hj, hdvd⟩
    refine ⟨start + j, hj, by omega, ?_⟩
    rw [Nat.add_sub_cancel_left]
    exact Nat.dvd_of_mod_eq_zero hdvd
  · rintro ⟨i, hi, hle, hdvd⟩
    refine ⟨i - start, ?_, Nat.mod_eq_zero_of_dvd hdvd⟩
    rwa [Nat.add_sub_cancel' hle]

end MarketTrader.Library

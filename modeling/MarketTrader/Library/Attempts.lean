import Mathlib.Data.List.Basic
import Mathlib.Tactic.Common

namespace MarketTrader.Library

variable {σ ε ι α : Type}

/-- What is tried in a world, may raise, and leaves the world changed either way. -/
abbrev Attempt (σ ε α : Type) := σ → Except ε α × σ

/-- The outcomes of the units that have a fetch, each tried in the world that the one before it
has left. -/
def outcomes (fetch : ι → Option (Attempt σ ε (List α))) : List ι → σ → List (Except ε (List α))
  | [], _ => []
  | u :: us, s =>
    match fetch u with
    | none => outcomes fetch us s
    | some f => (f s).1 :: outcomes fetch us (f s).2

/-- The results of those that succeeded, in order. -/
def succeeded : List (Except ε (List α)) → List α
  | [] => []
  | .ok l :: rest => l ++ succeeded rest
  | .error _ :: rest => succeeded rest

/-- The sweep over the units from the `i`-th on, which ends where it has to stop, and passes over a
unit that has no fetch, or whose exception it catches. -/
def bestEffort (stop : ℕ → Bool) (caught : ε → Bool) (fetch : ι → Option (Attempt σ ε (List α))) :
    ℕ → List ι → List α → σ → Except ε (List α) × σ
  | _, [], out, s => (.ok out, s)
  | i, u :: us, out, s =>
    if stop i then (.ok out, s)
    else
      match fetch u with
      | none => bestEffort stop caught fetch (i + 1) us out s
      | some f =>
        match f s with
        | (.ok l, s) => bestEffort stop caught fetch (i + 1) us (out ++ l) s
        | (.error e, s) =>
          if caught e then bestEffort stop caught fetch (i + 1) us out s else (.error e, s)

variable {stop : ℕ → Bool} {caught : ε → Bool} {fetch : ι → Option (Attempt σ ε (List α))}
  {i : ℕ} {us : List ι}

theorem outcomes_none {u : ι} (hf : fetch u = none) (s : σ) :
    outcomes fetch (u :: us) s = outcomes fetch us s := by rw [outcomes, hf]

theorem outcomes_some {u : ι} {f : Attempt σ ε (List α)} (hf : fetch u = some f) (s : σ) :
    outcomes fetch (u :: us) s = (f s).1 :: outcomes fetch us (f s).2 := by rw [outcomes, hf]

/-- A sweep that never has to stop returns what succeeded just if it catches all that failed. -/
theorem bestEffort_iff (h : ∀ j, i ≤ j → j < i + us.length → stop j = false) (out : List α)
    (s : σ) :
    (bestEffort stop caught fetch i us out s).1 = .ok (out ++ succeeded (outcomes fetch us s)) ↔
      ∀ e, .error e ∈ outcomes fetch us s → caught e = true := by
  induction us generalizing i out s with
  | nil => simp [bestEffort, outcomes, succeeded]
  | cons u us ih =>
    have hi : stop i = false := h i (Nat.le_refl i) (by simp)
    have ih := ih (i := i + 1) fun j hj hl ↦ h j (by omega) (by rw [List.length_cons]; omega)
    rw [bestEffort, hi, if_neg Bool.false_ne_true]
    cases hf : fetch u with
    | none =>
      rw [outcomes_none hf]
      exact ih out s
    | some f =>
      rw [outcomes_some hf]
      dsimp only
      rcases f s with ⟨r, s₁⟩
      cases r with
      | ok l =>
        dsimp only
        rw [succeeded, ← List.append_assoc, ih (out ++ l) s₁]
        simp
      | error e =>
        by_cases hc : caught e = true
        · dsimp only
          rw [if_pos hc, succeeded, ih out s₁]
          simp [hc]
        · dsimp only
          rw [if_neg hc]
          simp [hc]

/-- One that catches everything returns what succeeded. -/
theorem bestEffort_catching (hc : ∀ e, caught e = true)
    (h : ∀ j < us.length, stop j = false) (s : σ) :
    (bestEffort stop caught fetch 0 us [] s).1 = .ok (succeeded (outcomes fetch us s)) :=
  (bestEffort_iff (fun j _ hj ↦ h j (by omega)) [] s).mpr fun e _ ↦ hc e

end MarketTrader.Library

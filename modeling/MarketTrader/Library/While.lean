import Mathlib.Tactic.Common
import Mathlib.Order.Basic

namespace MarketTrader.Library

variable {σ ε : Type}

/-- A computation that may raise, or be given up. -/
abbrev Fueled (ε α : Type) := ExceptT ε Option α

/-- A loop that is given up when its condition has been read `fuel` times. -/
def whileLoop (cond : σ → Bool) (body : σ → Except ε σ) : ℕ → σ → Fueled ε σ
  | 0, _ => none
  | fuel + 1, s =>
    if cond s then
      match body s with
      | .error e => some (.error e)
      | .ok s => whileLoop cond body fuel s
    else some (.ok s)

/-- A computation ends in a result, however much more fuel it is given. -/
def Halts {α : Type} (f : ℕ → Fueled ε α) (a : α) : Prop :=
  ∃ fuel, ∀ n, fuel ≤ n → f n = some (.ok a)

variable {s : σ}

theorem halts_pure {α : Type} (a : α) : Halts (fun _ ↦ (pure a : Fueled ε α)) a := ⟨0, fun _ _ ↦ rfl⟩

theorem Halts.bind {α β : Type} {f : ℕ → Fueled ε α} {g : ℕ → α → Fueled ε β} {a : α} {b : β}
    (hf : Halts f a) (hg : Halts (g · a) b) : Halts (fun n ↦ f n >>= g n) b := by
  obtain ⟨m, hm⟩ := hf
  obtain ⟨k, hk⟩ := hg
  refine ⟨max m k, fun n hn ↦ ?_⟩
  have hfn := hm n (Nat.le_trans (Nat.le_max_left m k) hn)
  have hgn := hk n (Nat.le_trans (Nat.le_max_right m k) hn)
  change (f n).bind _ = _
  rw [show f n = some (.ok a) from hfn]
  exact hgn

/-- If each pass keeps the invariant and decreases the variant, then the loop ends, with the
invariant and without its condition. -/
theorem halts_of_variant (cond : σ → Bool) (body : σ → Except ε σ) {I : σ → Prop} (v : σ → ℕ)
    (hb : ∀ s, I s → cond s = true → ∃ s', body s = .ok s' ∧ I s' ∧ v s' < v s) (h : I s) :
    ∃ s', Halts (whileLoop cond body · s) s' ∧ I s' ∧ cond s' = false := by
  induction hn : v s using Nat.strongRecOn generalizing s with
  | _ n ih =>
    cases hc : cond s with
    | false =>
      refine ⟨s, ⟨1, fun m hm ↦ ?_⟩, h, hc⟩
      obtain ⟨m, rfl⟩ := Nat.exists_eq_add_of_le' hm
      simp only [whileLoop, hc, Bool.false_eq_true, if_false]
    | true =>
      obtain ⟨s₁, hs₁, hi, hv⟩ := hb s h hc
      obtain ⟨s', ⟨fuel, hf⟩, hi', hc'⟩ := ih (v s₁) (hn ▸ hv) hi rfl
      refine ⟨s', ⟨fuel + 1, fun m hm ↦ ?_⟩, hi', hc'⟩
      obtain ⟨m, rfl⟩ := Nat.exists_eq_add_of_le' (Nat.le_of_add_left_le hm)
      simp only [whileLoop, hc, if_true, hs₁]
      exact hf m (by omega)

end MarketTrader.Library

import Mathlib.Tactic.Common

namespace MarketTrader.Library

/-! ### Owners and what they own -/

variable {κ ν : Type} {owns owns' : κ → ν → Prop} {k : κ} {new names : List ν}

def Separate (owns : κ → ν → Prop) : Prop := ∀ k k' n, owns k n → owns k' n → k = k'

/-- None of these is another's. -/
def FreeFor (owns : κ → ν → Prop) (k : κ) (names : List ν) : Prop :=
  ∀ n ∈ names, ∀ k', owns k' n → k' = k

/-- Only `k` has taken anything, and nothing but the new. Anyone may have let go. -/
def TakesOnly (owns owns' : κ → ν → Prop) (k : κ) (new : List ν) : Prop :=
  ∀ k' n, owns' k' n → owns k' n ∨ k' = k ∧ n ∈ new

/-- What an owner has already is free for it as well. -/
theorem FreeFor.of_owned (hf : FreeFor owns k new) (h : Separate owns)
    (hn : ∀ n ∈ names, owns k n ∨ n ∈ new) : FreeFor owns k names := by
  intro n hm k' hk
  rcases hn n hm with ho | hnew
  · exact h k' k n hk ho
  · exact hf n hnew k' hk

theorem TakesOnly.separate (ht : TakesOnly owns owns' k new) (hf : FreeFor owns k new)
    (h : Separate owns) : Separate owns' := by
  intro k₁ k₂ n h₁ h₂
  rcases ht k₁ n h₁ with h₁ | ⟨rfl, hn⟩
  · rcases ht k₂ n h₂ with h₂ | ⟨rfl, hn⟩
    · exact h k₁ k₂ n h₁ h₂
    · exact hf n hn k₁ h₁
  · rcases ht k₂ n h₂ with h₂ | ⟨rfl, -⟩
    · exact (hf n hn k₂ h₂).symm
    · rfl

theorem TakesOnly.freeFor (ht : TakesOnly owns owns' k new) (hf : FreeFor owns k names) :
    FreeFor owns' k names := by
  intro n hn k' hk
  rcases ht k' n hk with hk | ⟨rfl, -⟩
  · exact hf n hn k' hk
  · rfl

end MarketTrader.Library

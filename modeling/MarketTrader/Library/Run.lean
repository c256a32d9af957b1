import Mathlib.Data.List.Basic
import Mathlib.Tactic.Common

namespace MarketTrader.Library

variable {σ ι α : Type}

def run (step : σ → ι → σ) (s : σ) (is : List ι) : σ := is.foldl step s

/-- Every step of the run meets a condition on its input and the state before it. -/
def Along (step : σ → ι → σ) (P : σ → ι → Prop) : σ → List ι → Prop
  | _, [] => True
  | s, i :: is => P s i ∧ Along step P (step s i) is

variable {step : σ → ι → σ} {P Q : σ → ι → Prop}

@[simp] theorem run_nil (s : σ) : run step s [] = s := rfl

@[simp] theorem run_cons (s : σ) (i : ι) (is : List ι) :
    run step s (i :: is) = run step (step s i) is := rfl

theorem run_append (s : σ) (is js : List ι) :
    run step s (is ++ js) = run step (run step s is) js := List.foldl_append

/-- What one step that meets the condition preserves, a whole run preserves. -/
theorem run_invariant {I : σ → Prop} (hs : ∀ s i, I s → P s i → I (step s i)) {s : σ}
    {is : List ι} (h : I s) (hp : Along step P s is) : I (run step s is) := by
  induction is generalizing s with
  | nil => exact h
  | cons i is ih => exact ih (hs s i h hp.1) hp.2

theorem Along.mono {I : σ → Prop} (hi : ∀ s i, I s → I (step s i))
    (hpq : ∀ s i, I s → P s i → Q s i) {s : σ} {is : List ι} (h : I s)
    (hp : Along step P s is) : Along step Q s is := by
  induction is generalizing s with
  | nil => trivial
  | cons i is ih => exact ⟨hpq s i h hp.1, ih (hi s i h) hp.2⟩

theorem along_append {s : σ} {is js : List ι} :
    Along step P s (is ++ js) ↔ Along step P s is ∧ Along step P (run step s is) js := by
  induction is generalizing s with
  | nil => simp [Along]
  | cons i is ih => simp [Along, ih, and_assoc]

theorem Along.invariant {I : σ → Prop} (hi : ∀ s i, I s → P s i → I (step s i)) {s : σ}
    {is : List ι} (h : I s) (hp : Along step P s is) :
    Along step (fun s i ↦ I s ∧ P s i) s is := by
  induction is generalizing s with
  | nil => trivial
  | cons i is ih => exact ⟨⟨h, hp.1⟩, ih (hi s i h hp.1) hp.2⟩

theorem Along.and {s : σ} {is : List ι} (hp : Along step P s is) (hq : Along step Q s is) :
    Along step (fun s i ↦ P s i ∧ Q s i) s is := by
  induction is generalizing s with
  | nil => trivial
  | cons i is ih => exact ⟨⟨hp.1, hq.1⟩, ih hp.2 hq.2⟩

theorem Along.congr_of {R : σ → ι → Prop} (h : ∀ s i, R s i → (P s i ↔ Q s i)) {s : σ}
    {is : List ι} (hr : Along step R s is) : Along step P s is ↔ Along step Q s is := by
  induction is generalizing s with
  | nil => exact Iff.rfl
  | cons i is ih => exact and_congr (h s i hr.1) (ih hr.2)

theorem Along.congr (h : ∀ s i, P s i ↔ Q s i) {s : σ} {is : List ι} :
    Along step P s is ↔ Along step Q s is :=
  ⟨Along.mono (I := fun _ ↦ True) (fun _ _ _ ↦ trivial) (fun s i _ ↦ (h s i).mp) trivial,
    Along.mono (I := fun _ ↦ True) (fun _ _ _ ↦ trivial) (fun s i _ ↦ (h s i).mpr) trivial⟩

theorem Along.of_forall {is : List ι} (h : ∀ s, ∀ i ∈ is, P s i) (s : σ) :
    Along step P s is := by
  induction is generalizing s with
  | nil => trivial
  | cons i is ih =>
    exact ⟨h s i List.mem_cons_self, ih (fun s j hj ↦ h s j (List.mem_cons_of_mem i hj)) (step s i)⟩

theorem Along.mem {s : σ} {is : List ι} (hp : Along step P s is) :
    Along step (fun s i ↦ P s i ∧ i ∈ is) s is := by
  induction is generalizing s with
  | nil => trivial
  | cons i is ih =>
    refine ⟨⟨hp.1, List.mem_cons_self⟩, ?_⟩
    apply Along.mono (I := fun _ ↦ True) (fun _ _ _ ↦ trivial) _ trivial (ih hp.2)
    intro s j _ h
    exact ⟨h.1, List.mem_cons_of_mem i h.2⟩

/-- A log that only grows stays as it was exactly when every step writes nothing. -/
theorem log_run_eq_iff {log : σ → List α} (hlog : ∀ s i, log s <+: log (step s i)) (s : σ)
    (is : List ι) :
    log (run step s is) = log s ↔ Along step (fun s i ↦ log (step s i) = log s) s is := by
  have hext : ∀ is s, log s <+: log (run step s is) := by
    intro is
    induction is with
    | nil => exact fun s ↦ List.prefix_rfl
    | cons i is ih => exact fun s ↦ (hlog s i).trans (ih (step s i))
  induction is generalizing s with
  | nil => simp [Along]
  | cons i is ih =>
    refine Iff.trans ⟨fun h ↦ ?_, fun ⟨h₁, h₂⟩ ↦ h₂.trans h₁⟩ (and_congr_right' (ih (step s i)))
    -- what the first step writes would still be there at the end
    have hs : log (step s i) = log s :=
      ((hlog s i).eq_of_length_le (h ▸ hext is (step s i)).length_le).symm
    exact ⟨hs, h.trans hs.symm⟩

end MarketTrader.Library

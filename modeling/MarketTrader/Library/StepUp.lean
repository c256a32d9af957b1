import Mathlib.Data.List.Basic
import Mathlib.Order.Bounds.Basic
import Mathlib.Order.Monotone.Basic

namespace MarketTrader.Library

variable {K : Type} [LinearOrder K]

/-- The last rank whose entry is on or below its line, or `k`. -/
def lastMeeting (line : ℕ → K) (i k : ℕ) : List K → ℕ
  | [] => k
  | p :: ps => lastMeeting line (i + 1) (if p ≤ line i then i else k) ps

def stepUp (line : ℕ → K) (ps : List K) : ℕ := lastMeeting line 1 0 ps

/-- The ranks, counted from one, whose entry is on or below its line. -/
def meeting (line : ℕ → K) (ps : List K) : Set ℕ :=
  {i | ∃ j p, i = 1 + j ∧ ps[j]? = some p ∧ p ≤ line i}

variable {line : ℕ → K} {ps : List K} {i k : ℕ} {p : K}

theorem isGreatest_lastMeeting (hk : k < i) :
    IsGreatest (insert k {n | ∃ j p, n = i + j ∧ ps[j]? = some p ∧ p ≤ line n})
      (lastMeeting line i k ps) := by
  induction ps generalizing i k with
  | nil =>
    constructor
    · exact .inl rfl
    · rintro n (rfl | ⟨j, p, -, hp, -⟩)
      · exact le_rfl
      · cases hp
  | cons p ps ih =>
    have hlt : (if p ≤ line i then i else k) < i + 1 := by
      split <;> omega
    obtain ⟨hmem, hub⟩ := ih hlt
    rw [lastMeeting]
    constructor
    · rcases hmem with he | ⟨j, q, hn, hq, hle⟩
      · rw [he]
        split
        · next hp => exact .inr ⟨0, p, rfl, rfl, hp⟩
        · exact .inl rfl
      · exact .inr ⟨j + 1, q, by omega, hq, hle⟩
    · have hstart : (if p ≤ line i then i else k) ≤ _ := hub (Set.mem_insert _ _)
      rintro n (rfl | ⟨j, q, rfl, hq, hle⟩)
      · apply le_trans _ hstart
        split <;> omega
      · cases j with
        | zero =>
          cases hq
          rw [Nat.add_zero] at hle ⊢
          rwa [if_pos hle] at hstart ⊢
        | succ j => exact hub (.inr ⟨j, q, by omega, hq, hle⟩)

/-- Earlier failures do not count: the pass ends with the greatest rank that meets its line. -/
theorem isGreatest_stepUp (line : ℕ → K) (ps : List K) :
    IsGreatest (insert 0 (meeting line ps)) (stepUp line ps) :=
  isGreatest_lastMeeting Nat.zero_lt_one

theorem lt_length_filter_iff {l : List K} (h : l.Pairwise (· ≤ ·)) (hi : l[i]? = some p) (t : K) :
    i < (l.filter (· ≤ t)).length ↔ p ≤ t := by
  induction l generalizing i with
  | nil => cases hi
  | cons a l ih =>
    rw [List.pairwise_cons] at h
    by_cases ha : a ≤ t
    · rw [List.filter_cons_of_pos (by simpa using ha), List.length_cons]
      cases i with
      | zero =>
        cases hi
        simp [ha]
      | succ i => rw [Nat.succ_lt_succ_iff, ih h.2 hi]
    · have hgt : ∀ b ∈ a :: l, t < b := by
        rintro b (_ | ⟨_, hb⟩)
        · exact not_le.mp ha
        · exact (not_le.mp ha).trans_le (h.1 b hb)
      have hnil : (a :: l).filter (· ≤ t) = [] := by
        rw [List.filter_eq_nil_iff]
        intro b hb
        simpa using hgt b hb
      rw [hnil]
      simpa using hgt p (List.mem_of_getElem? hi)

/-- The ranks up to the last one that meets its line hold the entries on or below that line. -/
theorem lt_stepUp_iff (hs : ps.Pairwise (· ≤ ·)) (hl : Monotone line) (hi : ps[i]? = some p) :
    i < stepUp line ps ↔ 0 < stepUp line ps ∧ p ≤ line (stepUp line ps) := by
  obtain ⟨hmem, hub⟩ := isGreatest_stepUp line ps
  constructor
  · intro hlt
    refine ⟨by omega, ?_⟩
    rcases hmem with hzero | ⟨j, q, hj, hq, hle⟩
    · omega
    · have hjlt := (lt_length_filter_iff hs hq _).mpr hle
      exact (lt_length_filter_iff hs hi _).mp (by omega)
  · rintro ⟨-, hp⟩
    by_contra hge
    have hmeet : i + 1 ∈ meeting line ps := ⟨i, p, Nat.add_comm i 1, hi, hp.trans (hl (by omega))⟩
    have hle := hub (.inr hmeet)
    omega

/-- The same by counting: an entry is taken if it is on or below some line with as many entries on
or below it as the rank of the line. -/
theorem lt_stepUp_iff_count (hs : ps.Pairwise (· ≤ ·)) (hl : Monotone line)
    (hi : ps[i]? = some p) : i < stepUp line ps ↔
      ∃ j, 0 < j ∧ j ≤ (ps.filter (· ≤ line j)).length ∧ p ≤ line j := by
  obtain ⟨hmem, hub⟩ := isGreatest_stepUp line ps
  rw [lt_stepUp_iff hs hl hi]
  constructor
  · rintro ⟨hpos, hp⟩
    refine ⟨stepUp line ps, hpos, ?_, hp⟩
    rcases hmem with hzero | ⟨j, q, hj, hq, hle⟩
    · omega
    · have hjlt := (lt_length_filter_iff hs hq _).mpr hle
      omega
  · rintro ⟨j, hj, hcount, hp⟩
    have hlt : j - 1 < ps.length := by
      have hle := List.length_filter_le (· ≤ line j) ps
      omega
    have hq : ps[j - 1]? = some ps[j - 1] := List.getElem?_eq_getElem hlt
    have hmeet : j ∈ meeting line ps :=
      ⟨j - 1, _, by omega, hq, (lt_length_filter_iff hs hq _).mp (by omega)⟩
    have hle := hub (.inr hmeet)
    exact ⟨by omega, hp.trans (hl hle)⟩

end MarketTrader.Library

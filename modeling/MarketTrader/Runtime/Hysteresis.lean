import MarketTrader.Runtime.Cycle

namespace MarketTrader.Runtime

open Library

variable {ranked held : List String} {enterK exitK : ℤ} {cap : Option ℤ} {s : String}

/-- What a selection keeps of the held names, and what it lets in. -/
structure Banded (ranked held : List String) (enterK exitK : ℤ) (cap : Option ℤ)
    (selected : List String) : Prop where
  nodup : selected.Nodup
  length_le : ∀ c ∈ cap, selected.length ≤ c
  inBand : ∀ s ∈ selected, s ∈ ranked.take exitK.toNat
  kept : ∀ s ∈ held, s ∈ ranked.take exitK.toNat → s ∈ selected ∨
    cap = some (selected.length : ℤ) ∧
      ∀ x ∈ selected, x ∈ held ∧ ranked.idxOf x < ranked.idxOf s
  fresh : (selected.filter (fun s ↦ s ∉ held)).Sublist (ranked.take enterK.toNat)

theorem iloc_zero {α : Type} (l : List α) {n : ℤ} (hn : 0 ≤ n) : iloc l 0 n = l.take n.toNat := by
  have h := iloc_add l (Nat.zero_le l.length) hn
  rwa [List.drop_zero, Nat.cast_zero, zero_add] at h

/-- The positions of a list without repetition grow along it. -/
theorem pairwise_idxOf {l : List String} (h : l.Nodup) :
    l.Pairwise (fun a b ↦ l.idxOf a < l.idxOf b) := by
  rw [List.pairwise_iff_getElem]
  intro i j hi hj hij
  rwa [h.idxOf_getElem, h.idxOf_getElem]

/-! ### The two parts of a selection -/

def heldKept (ranked held : List String) (exitK : ℤ) : List String :=
  ranked.filter (fun s ↦ s ∈ held ∧ s ∈ ranked.take exitK.toNat)

def entrants (ranked held : List String) (enterK : ℤ) : List String :=
  (ranked.take enterK.toNat).filter (fun s ↦ s ∉ held)

theorem mem_heldKept : s ∈ heldKept ranked held exitK ↔
    s ∈ held ∧ s ∈ ranked.take exitK.toNat := by
  simp only [heldKept, List.mem_filter, decide_eq_true_eq]
  constructor
  · exact And.right
  · exact fun h ↦ ⟨List.mem_of_mem_take h.2, h⟩

theorem mem_entrants : s ∈ entrants ranked held enterK ↔
    s ∈ ranked.take enterK.toNat ∧ s ∉ held := by
  simp [entrants]

/-- A selection is as much of the held and the fresh names as the cap leaves room for. -/
theorem exists_take (ranked held : List String) (he : 1 ≤ enterK) (hx : enterK ≤ exitK)
    (hc : ∀ c ∈ cap, 1 ≤ c) :
    ∃ n, selectWithHysteresis ranked held enterK exitK cap =
        (heldKept ranked held exitK ++ entrants ranked held enterK).take n ∧
      (cap = none ∧ n = (heldKept ranked held exitK ++ entrants ranked held enterK).length ∨
        cap = some (n : ℤ)) := by
  unfold selectWithHysteresis heldKept entrants
  rw [iloc_zero _ (by omega), iloc_zero _ (by omega)]
  cases cap with
  | none => exact ⟨_, List.take_length.symm, .inl ⟨rfl, rfl⟩⟩
  | some c =>
    have hc := hc c rfl
    refine ⟨c.toNat, iloc_zero _ (by omega), .inr ?_⟩
    rw [Int.toNat_of_nonneg (by omega)]

theorem nodup_parts (hn : ranked.Nodup) :
    (heldKept ranked held exitK ++ entrants ranked held enterK).Nodup := by
  apply List.Nodup.append
  · exact hn.filter _
  · exact ((List.take_sublist _ _).nodup hn).filter _
  · intro s hs hs'
    exact (mem_entrants.mp hs').2 (mem_heldKept.mp hs).1

theorem mem_take_of_le (hx : enterK ≤ exitK) (h : s ∈ ranked.take enterK.toNat) :
    s ∈ ranked.take exitK.toNat :=
  (List.take_prefix_take_left (by omega)).subset h

theorem mem_band_of_mem_parts (hx : enterK ≤ exitK)
    (h : s ∈ heldKept ranked held exitK ++ entrants ranked held enterK) :
    s ∈ ranked.take exitK.toNat := by
  rcases List.mem_append.mp h with h | h
  · exact (mem_heldKept.mp h).2
  · exact mem_take_of_le hx (mem_entrants.mp h).1

/-- A held name that the cap cuts off ranks behind all that is selected. -/
theorem held_cut (hn : ranked.Nodup) {n : ℕ} (hs : s ∈ heldKept ranked held exitK)
    (hcut : s ∉ (heldKept ranked held exitK ++ entrants ranked held enterK).take n) :
    n ≤ (heldKept ranked held exitK).length ∧
      ∀ x ∈ (heldKept ranked held exitK).take n,
        x ∈ held ∧ ranked.idxOf x < ranked.idxOf s := by
  have hnot : s ∉ (heldKept ranked held exitK).take n := by
    intro h
    apply hcut
    rw [List.take_append]
    exact List.mem_append_left _ h
  have hdrop : s ∈ (heldKept ranked held exitK).drop n := by
    rw [← List.take_append_drop n (heldKept ranked held exitK)] at hs
    exact (List.mem_append.mp hs).resolve_left hnot
  have hsorted : (heldKept ranked held exitK).Pairwise
      (fun a b ↦ ranked.idxOf a < ranked.idxOf b) :=
    (pairwise_idxOf hn).sublist List.filter_sublist
  rw [← List.take_append_drop n (heldKept ranked held exitK), List.pairwise_append] at hsorted
  constructor
  · have hlen := List.length_pos_of_mem hdrop
    rw [List.length_drop] at hlen
    omega
  · intro x hxt
    exact ⟨(mem_heldKept.mp (List.mem_of_mem_take hxt)).1, hsorted.2.2 x hxt s hdrop⟩

theorem banded_select (hn : ranked.Nodup) (he : 1 ≤ enterK) (hx : enterK ≤ exitK)
    (hc : ∀ c ∈ cap, 1 ≤ c) :
    Banded ranked held enterK exitK cap
      (selectWithHysteresis ranked held enterK exitK cap) := by
  obtain ⟨n, hsel, hcap⟩ := exists_take ranked held he hx hc
  rw [hsel]
  refine ⟨(List.take_sublist _ _).nodup (nodup_parts hn), ?_,
    fun s hs ↦ mem_band_of_mem_parts hx (List.mem_of_mem_take hs), ?_, ?_⟩
  · rintro c hc'
    rcases hcap with ⟨rfl, -⟩ | rfl
    · cases hc'
    · cases hc'
      rw [Nat.cast_le]
      exact List.length_take_le _ _
  · intro s hs hband
    have hmem : s ∈ heldKept ranked held exitK := mem_heldKept.mpr ⟨hs, hband⟩
    by_cases hcut : s ∈ (heldKept ranked held exitK ++ entrants ranked held enterK).take n
    · exact .inl hcut
    obtain ⟨hle, hbefore⟩ := held_cut hn hmem hcut
    have htake : (heldKept ranked held exitK ++ entrants ranked held enterK).take n =
        (heldKept ranked held exitK).take n := List.take_append_of_le_length hle
    rcases hcap with ⟨rfl, rfl⟩ | rfl
    · rw [List.take_length] at hcut
      exact absurd (List.mem_append_left _ hmem) hcut
    · right
      rw [htake, List.length_take, Nat.min_eq_left hle]
      exact ⟨rfl, hbefore⟩
  · have hkept : (heldKept ranked held exitK).filter (fun s ↦ s ∉ held) = [] := by
      rw [List.filter_eq_nil_iff]
      intro x hx
      simpa using (mem_heldKept.mp hx).1
    have hfresh : (entrants ranked held enterK).filter (fun s ↦ s ∉ held) =
        entrants ranked held enterK := by
      rw [entrants, List.filter_filter]
      simp
    have hsub := (List.take_sublist n (heldKept ranked held exitK ++
      entrants ranked held enterK)).filter (fun s ↦ s ∉ held)
    rw [List.filter_append, hkept, hfresh, List.nil_append] at hsub
    exact hsub.trans List.filter_sublist

/-! ### Selecting again -/

theorem select_again (hn : ranked.Nodup) (he : 1 ≤ enterK) (hx : enterK ≤ exitK)
    (hc : ∀ c ∈ cap, 1 ≤ c) :
    s ∈ selectWithHysteresis ranked (selectWithHysteresis ranked held enterK exitK cap) enterK
      exitK cap ↔ s ∈ selectWithHysteresis ranked held enterK exitK cap := by
  have hband : Banded ranked held enterK exitK cap _ := banded_select hn he hx hc
  obtain ⟨n, hsel, hcap⟩ := exists_take ranked held he hx hc
  set selected := selectWithHysteresis ranked held enterK exitK cap with hdef
  obtain ⟨n', hsel', hcap'⟩ := exists_take ranked selected he hx hc
  have hmem : ∀ s, s ∈ heldKept ranked selected exitK ↔ s ∈ selected := by
    intro s
    rw [mem_heldKept]
    exact ⟨And.left, fun h ↦ ⟨h, hband.inBand s h⟩⟩
  have hlen : (heldKept ranked selected exitK).length = selected.length := by
    have hperm : (heldKept ranked selected exitK).Perm selected := by
      have hnodup : (heldKept ranked selected exitK).Nodup := hn.filter _
      exact (List.perm_ext_iff_of_nodup hnodup hband.nodup).mpr hmem
    exact hperm.length_eq
  have hkeep : (heldKept ranked selected exitK ++ entrants ranked selected enterK).take n' =
      heldKept ranked selected exitK := by
    by_cases hfull : (heldKept ranked held exitK ++ entrants ranked held enterK).length ≤ n
    · -- nothing was cut, so no name of the entry band is left out
      rw [List.take_of_length_le hfull] at hsel
      have hnone : entrants ranked selected enterK = [] := by
        rw [List.eq_nil_iff_forall_not_mem]
        intro x hx'
        obtain ⟨hin, hout⟩ := mem_entrants.mp hx'
        rw [hsel, List.mem_append, not_or] at hout
        by_cases hh : x ∈ held
        · exact hout.1 (mem_heldKept.mpr ⟨hh, mem_take_of_le hx hin⟩)
        · exact hout.2 (mem_entrants.mpr ⟨hin, hh⟩)
      rw [hnone, List.append_nil] at hcap' ⊢
      apply List.take_of_length_le
      rw [hlen]
      rcases hcap' with ⟨-, h⟩ | h
      · exact (h ▸ hlen).ge
      · exact_mod_cast hband.length_le _ h
    · have hn' : selected.length = n' := by
        rw [hsel, List.length_take, Nat.min_eq_left (not_le.mp hfull).le]
        rcases hcap with ⟨-, h⟩ | h
        · exact absurd h.ge hfull
        · rcases hcap' with ⟨h', -⟩ | h'
          · rw [h] at h'
            cases h'
          · rw [h] at h'
            exact_mod_cast Option.some.inj h'
      rw [← hn', ← hlen]
      exact List.take_left
  rw [hsel', hkeep]
  exact hmem s

/-- Held names inside the exit band are kept first, fresh ones enter in the order of their rank,
and an unchanged ranking selects the same names again. -/
theorem hysteresis_settles (hn : ranked.Nodup) (he : 1 ≤ enterK) (hx : enterK ≤ exitK)
    (hc : ∀ c ∈ cap, 1 ≤ c) (held : List String) :
    Banded ranked held enterK exitK cap (selectWithHysteresis ranked held enterK exitK cap) ∧
      ∀ s, s ∈ selectWithHysteresis ranked
          (selectWithHysteresis ranked held enterK exitK cap) enterK exitK cap ↔
        s ∈ selectWithHysteresis ranked held enterK exitK cap :=
  ⟨banded_select hn he hx hc, fun _ ↦ select_again hn he hx hc⟩

theorem hysteresis_settles_capped :
    Banded ["A", "B", "C", "D"] ["C"] 1 3 (some 2)
        (selectWithHysteresis ["A", "B", "C", "D"] ["C"] 1 3 (some 2)) ∧
      ∀ s, s ∈ selectWithHysteresis ["A", "B", "C", "D"]
          (selectWithHysteresis ["A", "B", "C", "D"] ["C"] 1 3 (some 2)) 1 3 (some 2) ↔
        s ∈ selectWithHysteresis ["A", "B", "C", "D"] ["C"] 1 3 (some 2) :=
  hysteresis_settles (by decide) (by decide) (by decide) (by decide) ["C"]

end MarketTrader.Runtime

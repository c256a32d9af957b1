import MarketTrader.Library.Nearest
import MarketTrader.Library.Quantile
import MarketTrader.Library.Slice
import MarketTrader.Library.WeightedMean
import Mathlib.Data.Rat.Floor
import Mathlib.Data.Rat.Sqrt

namespace MarketTrader.Memory

open Library

structure Episode where
  key : String
  vector : List ℚ
  outcome : ℚ
  regime : Option String := none
  eventType : Option String := none
deriving DecidableEq

structure EpisodicMemory where
  episodes : List Episode := []

def Episode.isOf (e : Episode) (regime eventType : Option String) : Bool :=
  regime.all (e.regime = some ·) && eventType.all (e.eventType = some ·)

/-- The Euclidean distance of two vectors of one length. -/
def distance (sqrt : ℚ → ℚ) (v q : List ℚ) : ℚ :=
  sqrt (List.zipWith (fun x y ↦ (x - y) ^ 2) v q).sum

structure OutcomeDistribution where
  n : ℕ := 0
  mean : ℚ := 0
  median : ℚ := 0
  q10 : ℚ := 0
  q90 : ℚ := 0
  sharePositive : ℚ := 0
  neighbours : Option (List String) := none
deriving DecidableEq

namespace EpisodicMemory

def add (mem : EpisodicMemory) (e : Episode) : EpisodicMemory := ⟨mem.episodes ++ [e]⟩

def addMany (mem : EpisodicMemory) (episodes : List Episode) : EpisodicMemory :=
  episodes.foldl add mem

variable (sqrt : ℚ → ℚ) (mem : EpisodicMemory) (query : List ℚ) (k : ℤ)
  (regime eventType : Option String)

def scored : List (Episode × ℚ) :=
  (mem.episodes.filter (·.isOf regime eventType)).map (fun e ↦ (e, distance sqrt e.vector query))

/-- The closest episodes, the older one first where two are equally close. -/
def retrieve : List (Episode × ℚ) :=
  iloc (sortBy Prod.snd (mem.scored sqrt query regime eventType)) 0 k

/-- How the closest episodes came out. -/
def outcomeDistribution : OutcomeDistribution :=
  let neighbours := mem.retrieve sqrt query k regime eventType
  let outcomes := neighbours.map (·.1.outcome)
  if outcomes = [] then {}
  else
    { n := outcomes.length
      mean := outcomes.sum / outcomes.length
      median := (median outcomes).getD 0
      q10 := (quantile (1 / 10) outcomes).getD 0
      q90 := (quantile (9 / 10) outcomes).getD 0
      sharePositive := (outcomes.countP (0 < ·) : ℚ) / outcomes.length
      neighbours := some (neighbours.map (·.1.key)) }

variable {sqrt mem query k regime eventType}

theorem addMany_episodes (mem : EpisodicMemory) (episodes : List Episode) :
    (mem.addMany episodes).episodes = mem.episodes ++ episodes := by
  induction episodes generalizing mem with
  | nil => simp [addMany]
  | cons e episodes ih =>
    rw [addMany, List.foldl_cons, ← addMany, ih, add, List.append_assoc]
    rfl

theorem retrieve_eq (hk : 0 ≤ k) : mem.retrieve sqrt query k regime eventType =
    nearest Prod.snd k.toNat (mem.scored sqrt query regime eventType) := by
  rw [retrieve, nearest]
  have h := iloc_add (sortBy Prod.snd (mem.scored sqrt query regime eventType))
    (Nat.zero_le _) hk
  simpa using h

/-! ### Memory that grows -/

/-- What one more episode does to the closest ones. -/
def remember (sqrt : ℚ → ℚ) (query : List ℚ) (k : ℕ) (regime eventType : Option String)
    (near : List (Episode × ℚ)) (e : Episode) : List (Episode × ℚ) :=
  if e.isOf regime eventType then keep Prod.snd k near (e, distance sqrt e.vector query) else near

/-- The closest episodes can be kept up to date as episodes are added: what was not among them will
never be again. -/
theorem retrieve_addMany (sqrt : ℚ → ℚ) (mem : EpisodicMemory) (episodes : List Episode)
    (query : List ℚ) (k : ℤ) (hk : 0 ≤ k) (regime eventType : Option String) :
    (mem.addMany episodes).retrieve sqrt query k regime eventType =
      episodes.foldl (remember sqrt query k.toNat regime eventType)
        (mem.retrieve sqrt query k regime eventType) := by
  rw [retrieve_eq hk, retrieve_eq hk, scored, addMany_episodes, List.filter_append, List.map_append,
    nearest_append, ← scored]
  generalize nearest Prod.snd k.toNat (mem.scored sqrt query regime eventType) = near
  induction episodes generalizing near with
  | nil => rfl
  | cons e episodes ih =>
    rw [List.foldl_cons, remember, List.filter_cons]
    split
    · rw [List.map_cons, List.foldl_cons, ih]
    · rw [ih]

end EpisodicMemory

def threeSetups : List Episode :=
  [⟨"A", [0], 1 / 10, none, none⟩, ⟨"B", [3], -1 / 20, none, none⟩, ⟨"C", [1], 1 / 50, none, none⟩]

theorem retrieve_addMany_three :
    ((EpisodicMemory.addMany {} threeSetups).retrieve Rat.sqrt [0] 2 none none).map (·.1.key) =
      ["A", "C"] := by
  rw [EpisodicMemory.retrieve_addMany Rat.sqrt {} threeSetups [0] 2 (by decide) none none]
  decide +kernel

/-! ### What the closest came to -/

/-- The report says how these outcomes are spread. -/
structure OutcomeDistribution.Describes (d : OutcomeDistribution) (outcomes : List ℚ) : Prop where
  low : ∃ y ∈ outcomes, y ≤ d.q10
  lowToMid : d.q10 ≤ d.median
  midToHigh : d.median ≤ d.q90
  high : ∃ y ∈ outcomes, d.q90 ≤ y
  below : outcomes.countP (· < d.q10) ≤ ⌈1 / 10 * ((outcomes.length : ℚ) - 1)⌉₊
  above : outcomes.countP (d.q90 < ·) + ⌊9 / 10 * ((outcomes.length : ℚ) - 1)⌋₊ < outcomes.length
  notAboveMean : ∃ y ∈ outcomes, y ≤ d.mean
  notBelowMean : ∃ y ∈ outcomes, d.mean ≤ y
  share : d.sharePositive * outcomes.length = outcomes.countP (0 < ·)

theorem mean_eq_weightedMean (outcomes : List ℚ) :
    outcomes.sum / outcomes.length = weightedMean id (fun _ ↦ 1) outcomes := by
  simp [weightedMean]

namespace EpisodicMemory

variable {sqrt : ℚ → ℚ} {mem mem' : EpisodicMemory} {query : List ℚ} {k : ℤ}
  {regime eventType : Option String}

theorem outcomeDistribution_describes
    (h : (mem.retrieve sqrt query k regime eventType).map (·.1.outcome) ≠ []) :
    (mem.outcomeDistribution sqrt query k regime eventType).Describes
      ((mem.retrieve sqrt query k regime eventType).map (·.1.outcome)) := by
  rw [outcomeDistribution]
  generalize (mem.retrieve sqrt query k regime eventType).map (·.1.outcome) = outcomes at h
  have hlen : (0 : ℚ) < outcomes.length := by exact_mod_cast List.length_pos_of_ne_nil h
  obtain ⟨lo, hlo⟩ := Option.isSome_iff_exists.mp
    (quantile_isSome (q := (1 / 10 : ℚ)) (by norm_num) (by norm_num) h)
  obtain ⟨mid, hmid⟩ := Option.isSome_iff_exists.mp
    (quantile_isSome (q := (1 / 2 : ℚ)) (by norm_num) (by norm_num) h)
  obtain ⟨hi, hhi⟩ := Option.isSome_iff_exists.mp
    (quantile_isSome (q := (9 / 10 : ℚ)) (by norm_num) (by norm_num) h)
  simp only [h, if_false, median_eq, hlo, hmid, hhi, Option.getD_some]
  constructor
  case low => exact (quantile_between (by norm_num) h hlo).1
  case lowToMid => exact quantile_mono (by norm_num) (by norm_num) h hlo hmid
  case midToHigh => exact quantile_mono (by norm_num) (by norm_num) h hmid hhi
  case high => exact (quantile_between (by norm_num) h hhi).2
  case below => exact countP_lt_quantile (by norm_num) h hlo
  case above => exact countP_gt_quantile (by norm_num) h hhi
  case notAboveMean =>
    rw [mean_eq_weightedMean]
    exact exists_le_weightedMean h fun _ _ ↦ one_pos
  case notBelowMean =>
    rw [mean_eq_weightedMean]
    exact exists_weightedMean_le h fun _ _ ↦ one_pos
  case share => exact div_mul_cancel₀ _ hlen.ne'

/-- The report is on the nearest episodes of the regime and the type asked for, and on as many as
there are of them. -/
theorem outcome_distribution_of_nearest (sqrt : ℚ → ℚ) (mem : EpisodicMemory) (query : List ℚ)
    (k : ℤ) (hk : 0 ≤ k) (regime eventType : Option String) :
    let near := mem.retrieve sqrt query k regime eventType
    let d := mem.outcomeDistribution sqrt query k regime eventType
    near.Pairwise (fun a b ↦ a.2 ≤ b.2) ∧
      (∃ rest, (near ++ rest).Perm (mem.scored sqrt query regime eventType) ∧
        ∀ a ∈ near, ∀ b ∈ rest, a.2 ≤ b.2) ∧
      d.n = min k.toNat (mem.episodes.countP (·.isOf regime eventType)) ∧
      (0 < d.n → d.Describes (near.map (·.1.outcome))) := by
  intro near d
  obtain ⟨hsorted, hlen, hrest⟩ :=
    nearest_spec Prod.snd k.toNat (mem.scored sqrt query regime eventType)
  rw [← retrieve_eq hk] at hsorted hlen hrest
  have hn : d.n = near.length := by
    unfold d outcomeDistribution
    change (if near.map (·.1.outcome) = [] then ({} : OutcomeDistribution) else _).n = _
    split
    · next hnil =>
      rw [List.map_eq_nil_iff.mp hnil]
      rfl
    · exact List.length_map _
  refine ⟨hsorted, hrest, ?_, fun hpos ↦ outcomeDistribution_describes ?_⟩
  · rw [hn, hlen, scored, List.length_map, List.countP_eq_length_filter]
  · rw [hn] at hpos
    exact List.ne_nil_of_length_pos (by rwa [List.length_map])

theorem outcome_distribution_of_nearest_three :
    let d := (addMany {} threeSetups).outcomeDistribution Rat.sqrt [0] 2 none none
    d.n = 2 ∧ d.q10 ≤ d.median ∧ d.median ≤ d.q90 := by
  intro d
  obtain ⟨-, -, hn, hd⟩ := outcome_distribution_of_nearest Rat.sqrt (addMany {} threeSetups) [0] 2
    (by decide) none none
  have htwo : d.n = 2 := hn.trans (by decide)
  have hd := hd (htwo ▸ Nat.two_pos)
  exact ⟨htwo, hd.lowToMid, hd.midToHigh⟩

/-- Where as many are asked for as there are, the report depends on nothing but what the episodes
are: neither on the situation nor on the order in which they came. -/
theorem outcome_distribution_whole (sqrt : ℚ → ℚ) (mem mem' : EpisodicMemory)
    (h : mem.episodes.Perm mem'.episodes) (query query' : List ℚ) (k : ℤ)
    (regime eventType : Option String)
    (hk : (mem.episodes.countP (·.isOf regime eventType) : ℤ) ≤ k) :
    { mem.outcomeDistribution sqrt query k regime eventType with neighbours := none } =
      { mem'.outcomeDistribution sqrt query' k regime eventType with neighbours := none } := by
  have hall : ∀ (mem : EpisodicMemory) (query : List ℚ),
      (mem.episodes.countP (·.isOf regime eventType) : ℤ) ≤ k →
      ((mem.retrieve sqrt query k regime eventType).map (·.1.outcome)).Perm
        ((mem.episodes.filter (·.isOf regime eventType)).map Episode.outcome) := by
    intro mem query hk
    have hlen : (sortBy Prod.snd (mem.scored sqrt query regime eventType)).length ≤ k.toNat := by
      rw [(sortBy_perm _ _).length_eq, scored, List.length_map, ← List.countP_eq_length_filter]
      omega
    rw [retrieve_eq (by omega), nearest, List.take_of_length_le hlen]
    refine ((sortBy_perm _ _).map _).trans (List.Perm.of_eq ?_)
    rw [scored, List.map_map]
    rfl
  have hp := ((hall mem query hk).trans ((h.filter _).map _)).trans
    (hall mem' query' (by rwa [← h.countP_eq])).symm
  rw [outcomeDistribution, outcomeDistribution]
  generalize (mem.retrieve sqrt query k regime eventType) = near at hp ⊢
  generalize (mem'.retrieve sqrt query' k regime eventType) = near' at hp ⊢
  by_cases hnil : near.map (·.1.outcome) = []
  · have hnil' : near'.map (·.1.outcome) = [] := (hnil ▸ hp).nil_eq.symm
    simp only [hnil, hnil', if_true]
  · have hnil' : near'.map (·.1.outcome) ≠ [] := fun h' ↦ hnil (h' ▸ hp).eq_nil
    simp only [hnil, hnil', if_false, hp.sum_eq, hp.length_eq, hp.countP_eq, median_eq,
      quantile_perm hp]

/-- The report says nothing of the vectors but how far they are apart. -/
theorem outcomeDistribution_map (f : Episode → Episode) (query' : List ℚ)
    (hkey : ∀ e, (f e).key = e.key) (houtcome : ∀ e, (f e).outcome = e.outcome)
    (hof : ∀ e, (f e).isOf regime eventType = e.isOf regime eventType)
    (hdist : ∀ e ∈ mem.episodes, distance sqrt (f e).vector query' = distance sqrt e.vector query) :
    outcomeDistribution sqrt ⟨mem.episodes.map f⟩ query' k regime eventType =
      mem.outcomeDistribution sqrt query k regime eventType := by
  have hscored : scored sqrt ⟨mem.episodes.map f⟩ query' regime eventType =
      (mem.scored sqrt query regime eventType).map (fun p ↦ (f p.1, p.2)) := by
    rw [scored, scored, List.filter_map, List.map_map, List.map_map]
    simp only [Function.comp_def, hof]
    apply List.map_congr_left
    intro e he
    rw [hdist e (List.mem_filter.mp he).1]
  have hretrieve : retrieve sqrt ⟨mem.episodes.map f⟩ query' k regime eventType =
      (mem.retrieve sqrt query k regime eventType).map (fun p ↦ (f p.1, p.2)) := by
    have hsort : sortBy Prod.snd ((mem.scored sqrt query regime eventType).map
        (fun p ↦ (f p.1, p.2))) = (sortBy Prod.snd (mem.scored sqrt query regime eventType)).map
          (fun p ↦ (f p.1, p.2)) := sortBy_map (f := fun p ↦ (f p.1, p.2)) (fun _ ↦ rfl) _
    rw [retrieve, hscored, hsort, iloc_map]
    rfl
  simp only [outcomeDistribution, hretrieve, List.map_map, Function.comp_def, hkey, houtcome]

end EpisodicMemory

end MarketTrader.Memory

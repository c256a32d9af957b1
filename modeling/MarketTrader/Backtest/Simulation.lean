import MarketTrader.Backtest.Drawdown
import MarketTrader.Library.Quantile
import Mathlib.Data.List.Rotate

namespace MarketTrader.Backtest

open Library

/-- A generator of random integers. Each call draws `size` of them below a bound that is not
zero. -/
structure Generator (σ : Type) where
  seeded : ℕ → σ
  integers : σ → ℕ → ℕ → List ℕ × σ
  length_integers (s : σ) (high size : ℕ) : (integers s high size).1.length = size
  lt_high (s : σ) {high size i : ℕ} (hh : high ≠ 0) (hi : i ∈ (integers s high size).1) : i < high

section Simulation

variable {σ K : Type}

/-- As many entries as asked for from a position on, past the end from the start again. -/
def takeWrap (r : List K) (start size : ℕ) : List K :=
  (List.range size).filterMap (fun j ↦ r[(start + j) % r.length]?)

def resample (r : List K) (block : ℕ) (starts : List ℕ) : List K :=
  (starts.flatMap (takeWrap r · block)).take r.length

/-- The paths of the simulations, one after the other. -/
def simulate (G : Generator σ) (r : List K) (block : ℕ) : ℕ → σ → List (List K)
  | 0, _ => []
  | n + 1, s =>
    let nBlocks := (r.length + block - 1) / block
    let (starts, s) := G.integers s r.length nBlocks
    resample r block starts :: simulate G r block n s

def blockBootstrapPaths (G : Generator σ) (returns : Column K) (nSims : ℕ := 2000)
    (block : ℤ := 10) (seed : ℕ := 0) : List (List K) :=
  let r := clean returns
  if r = [] then [] else simulate G r (max 1 (min block r.length)).toNat nSims (G.seeded seed)

structure SimulationReport (K : Type) where
  nSims : ℕ
  totalReturnQ05 : Option K
  totalReturnQ50 : Option K
  totalReturnQ95 : Option K
  maxDrawdownQ05 : Option K
  maxDrawdownQ50 : Option K
  sharpeQ50 : Option K
  probPositive : Option K

variable [Field K] [LinearOrder K] [IsStrictOrderedRing K] [FloorSemiring K]

/-- So many percent, as a level of a quantile. -/
def percent (n : ℕ) : K := n / (100 : ℕ)

/-- A quantile of numbers, of which none may be missing. -/
def quantileOf (q : K) (l : List (Option K)) : Option K := do quantile q (← l.mapM id)

def totalReturn (path : List K) : K := (path.map (1 + ·)).prod - 1

def monteCarloReport (P : Powers K) (G : Generator σ) (returns : Column K) (nSims : ℕ := 2000)
    (block : ℤ := 10) (seed : ℕ := 0) (periodsPerYear : ℕ := tradingDays) : SimulationReport K :=
  let paths := blockBootstrapPaths G returns nSims block seed
  if paths = [] then ⟨0, some 0, some 0, some 0, some 0, some 0, some 0, some 0⟩
  else
    let totals := paths.map totalReturn
    let mdds := paths.map (fun p ↦ maxDrawdown (p.map some))
    let sharpes := paths.map (fun p ↦ sharpeRatio P periodsPerYear 0 (p.map some))
    { nSims := paths.length
      totalReturnQ05 := quantile (percent 5) totals
      totalReturnQ50 := quantile (percent 50) totals
      totalReturnQ95 := quantile (percent 95) totals
      maxDrawdownQ05 := quantileOf (percent 5) mdds
      maxDrawdownQ50 := quantileOf (percent 50) mdds
      sharpeQ50 := quantileOf (percent 50) sharpes
      probPositive := mean (totals.map (fun t ↦ if 0 < t then 1 else 0)) }

end Simulation

/-! ### The paths -/

section Paths

variable {σ K : Type} {G : Generator σ} {r : List K} {block : ℕ} {starts : List ℕ}

theorem takeWrap_eq (hr : r ≠ []) (start size : ℕ) :
    takeWrap r start size = (List.range size).map (fun j ↦
      r.get ⟨(start + j) % r.length, Nat.mod_lt _ (List.length_pos_of_ne_nil hr)⟩) := by
  rw [takeWrap, ← List.filterMap_eq_map]
  apply List.filterMap_congr
  intro j _
  exact List.getElem?_eq_getElem _

theorem length_takeWrap (hr : r ≠ []) (start size : ℕ) : (takeWrap r start size).length = size := by
  rw [takeWrap_eq hr, List.length_map, List.length_range]

/-- Blocks of one length are laid end to end. -/
theorem getElem?_flatMap {α β : Type} {l : List α} {f : α → List β} {n : ℕ} (hn : 0 < n)
    (h : ∀ a ∈ l, (f a).length = n) (i : ℕ) :
    (l.flatMap f)[i]? = l[i / n]?.bind (fun a ↦ (f a)[i % n]?) := by
  induction l generalizing i with
  | nil => simp
  | cons a l ih =>
    rw [List.forall_mem_cons] at h
    rw [List.flatMap_cons]
    by_cases hi : i < n
    · rw [List.getElem?_append_left (by rw [h.1]; exact hi), Nat.div_eq_of_lt hi,
        Nat.mod_eq_of_lt hi]
      rfl
    · obtain ⟨i, rfl⟩ := Nat.exists_eq_add_of_le (not_lt.mp hi)
      rw [List.getElem?_append_right (by rw [h.1]; omega), h.1, Nat.add_sub_cancel_left, ih h.2,
        Nat.add_div_left _ hn, Nat.add_mod_left, List.getElem?_cons_succ]

theorem length_flatMap {α β : Type} {l : List α} {f : α → List β} {n : ℕ}
    (h : ∀ a ∈ l, (f a).length = n) : (l.flatMap f).length = l.length * n := by
  rw [List.length_flatMap, List.map_congr_left h, List.map_const', List.sum_replicate,
    smul_eq_mul]

/-- Every step of a path is a return of the series, at a position that its block fixes. -/
theorem getElem?_resample (hr : r ≠ []) (hb : 0 < block) {i : ℕ} (hi : i < r.length) :
    (resample r block starts)[i]? =
      starts[i / block]?.bind (fun s ↦ r[(s + i % block) % r.length]?) := by
  rw [resample, List.getElem?_take_of_lt hi,
    getElem?_flatMap hb (fun s _ ↦ length_takeWrap hr s block)]
  congr 1
  funext s
  have hmod : i % block < block := Nat.mod_lt _ hb
  rw [takeWrap_eq hr, List.getElem?_map, List.getElem?_range hmod, Option.map_some]
  exact (List.getElem?_eq_getElem _).symm

theorem length_resample (hr : r ≠ []) (hb : 0 < block)
    (hs : starts.length = (r.length + block - 1) / block) :
    (resample r block starts).length = r.length := by
  rw [resample, List.length_take, length_flatMap fun s _ ↦ length_takeWrap hr s block, hs,
    Nat.min_eq_left]
  have hdiv := Nat.div_add_mod (r.length + block - 1) block
  have hmod := Nat.mod_lt (r.length + block - 1) hb
  rw [Nat.mul_comm]
  omega

theorem mem_simulate (G : Generator σ) {n : ℕ} {s : σ} {path : List K}
    (h : path ∈ simulate G r block n s) : ∃ s', path = resample r block
      (G.integers s' r.length ((r.length + block - 1) / block)).1 := by
  induction n generalizing s with
  | zero => cases h
  | succ n ih =>
    rcases List.mem_cons.mp h with rfl | h
    · exact ⟨s, rfl⟩
    · exact ih h

theorem length_simulate (G : Generator σ) (r : List K) (block n : ℕ) (s : σ) :
    (simulate G r block n s).length = n := by
  induction n generalizing s with
  | zero => rfl
  | succ n ih => rw [simulate, List.length_cons, ih]

/-- The length of a block as it is used. -/
def blockLength (r : List K) (block : ℤ) : ℕ := (max 1 (min block r.length)).toNat

theorem mem_blockBootstrapPaths {returns : Column K} {nSims seed : ℕ} {block : ℤ} {path : List K}
    (h : path ∈ blockBootstrapPaths G returns nSims block seed) :
    clean returns ≠ [] ∧ ∃ s', path = resample (clean returns) (blockLength (clean returns) block)
      (G.integers s' (clean returns).length (((clean returns).length +
        blockLength (clean returns) block - 1) / blockLength (clean returns) block)).1 := by
  unfold blockBootstrapPaths at h
  dsimp only at h
  split at h
  · cases h
  · next hr => exact ⟨hr, mem_simulate G h⟩

/-- There are as many paths as asked for. Each is as long as the series and made of its returns, and
within a block one return follows another as it did in the series, of which the last is followed by
the first. -/
theorem bootstrap_paths (G : Generator σ) (returns : Column K) (hr : clean returns ≠ [])
    (nSims : ℕ) (block : ℤ) (seed : ℕ) :
    (blockBootstrapPaths G returns nSims block seed).length = nSims ∧
      ∀ path ∈ blockBootstrapPaths G returns nSims block seed,
        path.length = (clean returns).length ∧ ∃ pos : ℕ → ℕ,
          (∀ i < path.length, pos i < path.length ∧ path[i]? = (clean returns)[pos i]?) ∧
          ∀ i, ¬blockLength (clean returns) block ∣ i + 1 →
            pos (i + 1) = (pos i + 1) % path.length := by
  constructor
  · unfold blockBootstrapPaths
    rw [if_neg hr]
    exact length_simulate G _ _ _ _
  · intro path hp
    obtain ⟨-, s', rfl⟩ := mem_blockBootstrapPaths hp
    have hb : 0 < blockLength (clean returns) block := by
      unfold blockLength
      omega
    generalize clean returns = r at hr hb ⊢
    generalize blockLength r block = b at hb ⊢
    have hn : 0 < r.length := List.length_pos_of_ne_nil hr
    let starts := (G.integers s' r.length ((r.length + b - 1) / b)).1
    have hstarts : starts.length = (r.length + b - 1) / b := G.length_integers _ _ _
    have hlen := length_resample hr hb hstarts
    refine ⟨hlen, fun i ↦ (starts[i / b]?.getD 0 + i % b) % r.length, ?_, ?_⟩
    · intro i hi
      rw [hlen] at hi ⊢
      refine ⟨Nat.mod_lt _ hn, ?_⟩
      have hlast : i / b < starts.length := by
        rw [hstarts]
        refine lt_of_le_of_lt (Nat.div_le_div_right (Nat.le_sub_one_of_lt hi)) ?_
        rw [show r.length + b - 1 = r.length - 1 + b by omega, Nat.add_div_right _ hb]
        exact Nat.lt_succ_self _
      dsimp only
      rw [getElem?_resample hr hb hi, List.getElem?_eq_getElem hlast]
      rfl
    · intro i hi
      rw [hlen, Nat.mod_add_mod]
      have hdiv : (i + 1) / b = i / b := Nat.succ_div_of_not_dvd hi
      have hmod : (i + 1) % b = i % b + 1 := by
        have h₁ := Nat.div_add_mod (i + 1) b
        have h₂ := Nat.div_add_mod i b
        rw [hdiv] at h₁
        omega
      dsimp only
      rw [hdiv, hmod, Nat.add_assoc]

theorem returns_of_mem_paths {returns : Column K} {nSims seed : ℕ} {block : ℤ} {path : List K}
    (hr : clean returns ≠ []) (hm : path ∈ blockBootstrapPaths G returns nSims block seed) :
    path ≠ [] ∧ ∀ x ∈ path, x ∈ clean returns := by
  obtain ⟨hlen, pos, hpos, -⟩ := (bootstrap_paths G returns hr nSims block seed).2 path hm
  refine ⟨fun hnil ↦ hr ?_, fun x hx ↦ ?_⟩
  · rw [hnil] at hlen
    exact List.length_eq_zero_iff.mp hlen.symm
  · obtain ⟨i, hi⟩ := List.mem_iff_getElem?.mp hx
    have hlt : i < path.length := (List.getElem?_eq_some_iff.mp hi).1
    rw [(hpos i hlt).2] at hi
    exact List.mem_of_getElem? hi

/-- A generator that counts on. -/
def counting : Generator ℕ where
  seeded := id
  integers s high size := ((List.range size).map (fun i ↦ (s + i) % high), s + size)
  length_integers s high size := by simp
  lt_high s high size i hh hi := by
    obtain ⟨j, -, rfl⟩ := List.mem_map.mp hi
    exact Nat.mod_lt _ (Nat.pos_of_ne_zero hh)

/-- Three returns and a missing one. -/
def gappedReturns : Column ℚ := [some (1 / 10), none, some (-1 / 20), some (1 / 50)]

theorem bootstrap_paths_gapped : (blockBootstrapPaths counting gappedReturns 2 2 1).length = 2 ∧
    ∀ path ∈ blockBootstrapPaths counting gappedReturns 2 2 1, path.length = 3 := by
  obtain ⟨hlen, hpath⟩ := bootstrap_paths counting gappedReturns (by decide) 2 2 1
  exact ⟨hlen, fun path hm ↦ (hpath path hm).1⟩

/-- A block that takes in the whole series only turns it. -/
theorem exists_rotate {returns : Column K} {nSims seed : ℕ} {block : ℤ} {path : List K}
    (h : path ∈ blockBootstrapPaths G returns nSims block seed)
    (hblock : ((clean returns).length : ℤ) ≤ block) :
    ∃ s, path = (clean returns).rotate s := by
  obtain ⟨hr, s', rfl⟩ := mem_blockBootstrapPaths h
  have hn : 0 < (clean returns).length := List.length_pos_of_ne_nil hr
  have hb : blockLength (clean returns) block = (clean returns).length := by
    unfold blockLength
    omega
  rw [hb]
  generalize clean returns = r at hr hn ⊢
  have hone : (r.length + r.length - 1) / r.length = 1 := by
    rw [Nat.div_eq_iff hn]
    omega
  rw [hone]
  obtain ⟨s, hs⟩ := List.length_eq_one_iff.mp (G.length_integers s' r.length 1)
  refine ⟨s, ?_⟩
  have hlen : (resample r r.length [s]).length = r.length :=
    length_resample hr hn (by simpa using hone.symm)
  rw [hs]
  apply List.ext_getElem?
  intro i
  by_cases hi : i < r.length
  · rw [getElem?_resample hr hn hi, Nat.div_eq_of_lt hi, Nat.mod_eq_of_lt hi,
      List.getElem?_rotate hi, Nat.add_comm i]
    rfl
  · rw [List.getElem?_eq_none (by omega), List.getElem?_eq_none (by rw [List.length_rotate]; omega)]

end Paths

/-! ### The report -/

section Report

theorem mapM_id {K : Type} {l : List (Option K)} {Q : K → Prop}
    (h : ∀ o ∈ l, ∃ x, o = some x ∧ Q x) :
    ∃ xs, l.mapM id = some xs ∧ xs.length = l.length ∧ ∀ x ∈ xs, Q x := by
  induction l with
  | nil => exact ⟨[], rfl, rfl, fun x hx ↦ by cases hx⟩
  | cons o l ih =>
    rw [List.forall_mem_cons] at h
    obtain ⟨⟨x, rfl, hx⟩, h⟩ := h
    obtain ⟨xs, hxs, hlen, hQ⟩ := ih h
    refine ⟨x :: xs, by simp [List.mapM_cons, hxs], by rw [List.length_cons, hlen,
      List.length_cons], ?_⟩
    rw [List.forall_mem_cons]
    exact ⟨hx, hQ⟩

variable {σ K : Type} {G : Generator σ} [Field K] [LinearOrder K]

theorem sum_indicator (l : List K) :
    (l.map (fun t ↦ if 0 < t then (1 : K) else 0)).sum = l.length - l.countP (· ≤ 0) := by
  induction l with
  | nil => simp
  | cons t l ih =>
    rw [List.map_cons, List.sum_cons, ih, List.countP_cons, List.length_cons]
    by_cases ht : 0 < t
    · rw [if_pos ht, if_neg (by simpa using ht)]
      push_cast
      ring
    · rw [if_neg ht, if_pos (by simpa using ht)]
      push_cast
      ring

/-- A figure that every path has, has its quantiles. -/
theorem exists_quantileOf [FloorSemiring K] {paths : List (List K)} (hne : paths ≠ []) {f : List K → Option K}
    {Q : K → Prop} (hf : ∀ path ∈ paths, ∃ x, f path = some x ∧ Q x) :
    ∃ xs, xs ≠ [] ∧ (∀ x ∈ xs, Q x) ∧ ∀ q, quantileOf q (paths.map f) = quantile q xs := by
  obtain ⟨xs, hxs, hlen, hQ⟩ := mapM_id (l := paths.map f) (Q := Q) (by
    intro o ho
    obtain ⟨path, hm, rfl⟩ := List.mem_map.mp ho
    exact hf path hm)
  refine ⟨xs, fun hnil ↦ hne ?_, hQ, fun q ↦ ?_⟩
  · rw [hnil] at hlen
    simpa using hlen.symm
  · rw [quantileOf, hxs]
    rfl

variable [IsStrictOrderedRing K] {P : Powers K} {returns : Column K} {path : List K}
  {nSims seed periodsPerYear : ℕ} {block : ℤ}

theorem totalReturn_gt (h : ∀ x ∈ path, -1 < x) : -1 < totalReturn path := by
  have hpos : 0 < (path.map (1 + ·)).prod := by
    apply List.prod_pos
    intro x hx
    obtain ⟨r, hr, rfl⟩ := List.mem_map.mp hx
    linarith [h r hr]
  unfold totalReturn
  linarith

theorem maxDrawdown_bounds (hp : path ≠ []) (h : ∀ x ∈ path, -1 < x) :
    ∃ m, maxDrawdown (path.map some) = some m ∧ -1 < m ∧ m ≤ 0 := by
  have hpos := equityFrom_pos h one_pos
  have hclean := clean_map_some path
  obtain ⟨m, hdd, hleast⟩ := exists_maxDrawdown (hclean.symm ▸ h) (hclean.symm ▸ hp)
  rw [hclean] at hleast
  refine ⟨m, hdd, ?_, hleast.2 (zero_mem_falls hpos (equityFrom_ne_nil 1 hp))⟩
  obtain ⟨i, j, x, y, -, hx, hy, rfl⟩ := hleast.1
  have hx := hpos x (List.mem_of_getElem? hx)
  have hy := hpos y (List.mem_of_getElem? hy)
  linarith [div_pos hy hx]

variable [FloorSemiring K]

theorem exists_quantile {q : K} {l : List K} (h0 : 0 ≤ q) (h1 : q ≤ 1) (hl : l ≠ []) :
    ∃ x, quantile q l = some x := Option.isSome_iff_exists.mp (quantile_isSome h0 h1 hl)

omit [IsStrictOrderedRing K] in
theorem percent_five : (percent 5 : K) = 1 / 20 := by norm_num [percent]

omit [IsStrictOrderedRing K] in
theorem percent_fifty : (percent 50 : K) = 1 / 2 := by norm_num [percent]

omit [IsStrictOrderedRing K] in
theorem percent_ninetyFive : (percent 95 : K) = 19 / 20 := by norm_num [percent]

/-- For returns that lose less than everything, every figure of the report is a number, the
quantiles are in order, and how many of the paths lose agrees with the sign of each quantile of the
total return. -/
theorem monte_carlo_report_sound (P : Powers K) (G : Generator σ) (returns : Column K)
    (nSims : ℕ) (block : ℤ) (seed periodsPerYear : ℕ) (h : ∀ r ∈ clean returns, -1 < r)
    (hr : clean returns ≠ []) (hn : 0 < nSims) (hp : 1 ≤ periodsPerYear) :
    ∃ q05 q50 q95 d05 d50 sharpe : K, ∃ losing : ℕ,
      monteCarloReport P G returns nSims block seed periodsPerYear =
        ⟨nSims, some q05, some q50, some q95, some d05, some d50, some sharpe,
          some ((nSims - losing) / nSims)⟩ ∧
      -1 < q05 ∧ q05 ≤ q50 ∧ q50 ≤ q95 ∧ -1 < d05 ∧ d05 ≤ d50 ∧ d50 ≤ 0 ∧ losing ≤ nSims ∧
      ∀ q x, (q, x) ∈ [(1 / 20, q05), (1 / 2, q50), (19 / 20, q95)] →
        (0 < x → losing ≤ ⌈q * ((nSims : K) - 1)⌉₊) ∧
          (x ≤ 0 → ⌊q * ((nSims : K) - 1)⌋₊ < losing) := by
  let paths := blockBootstrapPaths G returns nSims block seed
  have hlength : paths.length = nSims := (bootstrap_paths G returns hr nSims block seed).1
  have hne : paths ≠ [] := by
    intro hnil
    rw [hnil, List.length_nil] at hlength
    exact hn.ne hlength
  have hpath : ∀ path ∈ paths, path ≠ [] ∧ ∀ x ∈ path, -1 < x := by
    intro path hm
    obtain ⟨hpne, hmem⟩ := returns_of_mem_paths hr hm
    exact ⟨hpne, fun x hx ↦ h x (hmem x hx)⟩
  let totals := paths.map totalReturn
  have htotals : totals ≠ [] := by simpa [totals] using hne
  have htlen : totals.length = nSims := by rw [List.length_map, hlength]
  have htotal : ∀ t ∈ totals, -1 < t := by
    intro t ht
    obtain ⟨path, hm, rfl⟩ := List.mem_map.mp ht
    exact totalReturn_gt (hpath path hm).2
  obtain ⟨mdds, hmne, hmdd, hmq⟩ := exists_quantileOf hne
    fun path hm ↦ maxDrawdown_bounds (hpath path hm).1 (hpath path hm).2
  obtain ⟨sharpes, hsne, -, hsq⟩ := exists_quantileOf (Q := fun _ ↦ True) hne
    (f := fun path ↦ sharpeRatio P periodsPerYear 0 (path.map some)) fun path _ ↦ by
      have hsome : (sharpeRatio P periodsPerYear 0 (path.map some)).isSome := sharpeRatio_isSome hp
      obtain ⟨x, hx⟩ := Option.isSome_iff_exists.mp hsome
      exact ⟨x, hx, trivial⟩
  have h05 : (0 : K) ≤ 1 / 20 ∧ (1 / 20 : K) ≤ 1 := by constructor <;> norm_num
  have h50 : (0 : K) ≤ 1 / 2 ∧ (1 / 2 : K) ≤ 1 := by constructor <;> norm_num
  have h95 : (0 : K) ≤ 19 / 20 ∧ (19 / 20 : K) ≤ 1 := by constructor <;> norm_num
  have hlow : (1 / 20 : K) ≤ 1 / 2 := by norm_num
  have hhigh : (1 / 2 : K) ≤ 19 / 20 := by norm_num
  obtain ⟨q05, hq05⟩ := exists_quantile h05.1 h05.2 htotals
  obtain ⟨q50, hq50⟩ := exists_quantile h50.1 h50.2 htotals
  obtain ⟨q95, hq95⟩ := exists_quantile h95.1 h95.2 htotals
  obtain ⟨d05, hd05⟩ := exists_quantile h05.1 h05.2 hmne
  obtain ⟨d50, hd50⟩ := exists_quantile h50.1 h50.2 hmne
  obtain ⟨sharpe, hsharpe⟩ := exists_quantile h50.1 h50.2 hsne
  have hsign : ∀ {q x : K}, 0 ≤ q → quantile q totals = some x →
      (0 < x → totals.countP (· ≤ 0) ≤ ⌈q * ((nSims : K) - 1)⌉₊) ∧
        (x ≤ 0 → ⌊q * ((nSims : K) - 1)⌋₊ < totals.countP (· ≤ 0)) := by
    intro q x hq hx
    rw [← htlen]
    exact ⟨countP_le_of_lt_quantile hq htotals hx, lt_countP_of_quantile_le hq htotals hx⟩
  refine ⟨q05, q50, q95, d05, d50, sharpe, totals.countP (· ≤ 0), ?_, ?_,
    quantile_mono h05.1 hlow htotals hq05 hq50, quantile_mono h50.1 hhigh htotals hq50 hq95, ?_,
    quantile_mono h05.1 hlow hmne hd05 hd50, ?_, ?_, fun q x hm ↦ ?_⟩
  · have hprob : mean (totals.map fun t ↦ if 0 < t then (1 : K) else 0) =
        some (((nSims : K) - (totals.countP (· ≤ 0) : ℕ)) / nSims) := by
      have hcast : ((totals.map fun t ↦ if 0 < t then (1 : K) else 0).length : K) = nSims := by
        rw [List.length_map, htlen]
      rw [mean, hcast, sum_indicator, htlen]
      exact divide_of_ne (by exact_mod_cast hn.ne')
    have hreport : monteCarloReport P G returns nSims block seed periodsPerYear =
        ⟨paths.length, quantile (percent 5) totals, quantile (percent 50) totals,
          quantile (percent 95) totals, _, _, _,
          mean (totals.map fun t ↦ if 0 < t then (1 : K) else 0)⟩ := if_neg hne
    rw [hreport, hlength, percent_five, percent_fifty, percent_ninetyFive, hq05, hq50, hq95, hmq, hmq, hsq, hd05, hd50, hsharpe, hprob]
  · obtain ⟨a, ha, hle⟩ := (quantile_between h05.1 htotals hq05).1
    exact (htotal a ha).trans_le hle
  · obtain ⟨a, ha, hle⟩ := (quantile_between h05.1 hmne hd05).1
    exact (hmdd a ha).1.trans_le hle
  · obtain ⟨b, hb, hle⟩ := (quantile_between h50.1 hmne hd50).2
    exact hle.trans (hmdd b hb).2
  · exact List.countP_le_length.trans htlen.le
  · simp only [List.mem_cons, Prod.mk.injEq, List.not_mem_nil, or_false] at hm
    rcases hm with ⟨rfl, rfl⟩ | ⟨rfl, rfl⟩ | ⟨rfl, rfl⟩
    · exact hsign h05.1 hq05
    · exact hsign h50.1 hq50
    · exact hsign h95.1 hq95

theorem monte_carlo_report_sound_gapped : ∃ q05 q50 : ℚ,
    (monteCarloReport ⟨id, fun x _ ↦ x⟩ counting gappedReturns 3 2).totalReturnQ05 = some q05 ∧
      (monteCarloReport ⟨id, fun x _ ↦ x⟩ counting gappedReturns 3 2).totalReturnQ50 = some q50 ∧
        -1 < q05 ∧ q05 ≤ q50 := by
  obtain ⟨q05, q50, _, _, _, _, _, hreport, hlow, hle, -⟩ := monte_carlo_report_sound
    ⟨id, fun x _ ↦ x⟩ counting gappedReturns 3 2 0 tradingDays (by decide +kernel) (by decide)
    (by decide) (by decide)
  rw [hreport]
  exact ⟨q05, q50, rfl, rfl, hlow, hle⟩

end Report

end MarketTrader.Backtest

import MarketTrader.Collectors.Feeds
import MarketTrader.Reasoning.Extraction

namespace MarketTrader.Reasoning

open Library MarketTrader.Core Storage InMemoryBitemporalStore Collectors

variable {σ : Type}

/-! ### A provider on a budget -/

/-- A provider that fails closed once `budget` calls are spent. -/
def BudgetedProvider (inner : Provider σ) (budget : ℤ) : Provider (σ × ℕ) := fun (s, calls) r ↦
  if (max 0 budget).toNat ≤ calls then (.error .budgetExceeded, (s, calls))
  else ((inner s r).1, ((inner s r).2, calls + 1))

/-- A provider that is a function of the request, and remembers what it was asked. -/
def recorded (f : Request → Except ProviderError String) : Provider (List Request) :=
  fun log r ↦ (f r, log ++ [r])

/-! ### The sweep -/

/-- The recent titles of each wanted name. -/
def headlinesBySymbol (store : InMemoryBitemporalStore) (asOf : Datetime) (symbols : List String)
    (windowDays : ℤ) : Dict String (List String) :=
  let cutoff := asOf - Timedelta.ofDays windowDays
  let wanted := symbols.map upper
  (store.asOf asOf { dataset := some newsDataset }).foldl
    (fun out o ↦
      if o.knowledgeTime ≤ cutoff ∨ o.entityId ∉ wanted then out
      else
        match (o.get? "title").filter Value.truthy with
        | none => out
        | some title =>
          Dict.set out o.entityId (Dict.getD out o.entityId [] ++ [title.text])) .empty

def sweep (I : Interpreter) (P : Provider σ) (heads : Dict String (List String)) (asOf : Datetime) :
    List String → List (ExtractedSignal × Datetime) → σ →
      Except CallError (List (ExtractedSignal × Datetime)) × σ
  | [], out, s => (.ok out, s)
  | sym :: symbols, out, s =>
    if Dict.getD heads (upper sym) [] = [] then sweep I P heads asOf symbols out s
    else
      match extractNewsSignal I P (upper sym) (Dict.getD heads (upper sym) []) s with
      | (.error .budgetExceeded, s) => (.ok out, s)
      | (.error (.raised e), s) => (.error (.raised e), s)
      | (.ok none, s) => sweep I P heads asOf symbols out s
      | (.ok (some signal), s) => sweep I P heads asOf symbols (out ++ [(signal, asOf)]) s

def extractSignalsForUniverse (I : Interpreter) (store : InMemoryBitemporalStore) (P : Provider σ)
    (symbols : List String) (asOf : Datetime) (windowDays : ℤ) (s : σ) :
    Except CallError (List (ExtractedSignal × Datetime)) × σ :=
  sweep I P (headlinesBySymbol store asOf symbols windowDays) asOf symbols [] s

/-! ### What a budget changes -/

section Budget

variable {I : Interpreter} {P : Provider σ} {heads : Dict String (List String)} {asOf : Datetime}
  {symbols : List String} {out full : List (ExtractedSignal × Datetime)} {s : σ} {b : ℤ} {n : ℕ}

/-- A spent budget stops an extraction that calls, and any other one is the inner provider's. -/
theorem extract_budgeted (symbol : String) (headlines : List String) :
    extractNewsSignal I (BudgetedProvider P b) symbol headlines (s, n) =
      if (I.cleaned headlines).take 20 = [] then (.ok none, (s, n))
      else if (max 0 b).toNat ≤ n then (.error .budgetExceeded, (s, n))
      else ((extractNewsSignal I P symbol headlines s).1,
        ((extractNewsSignal I P symbol headlines s).2, n + 1)) := by
  unfold extractNewsSignal
  dsimp only
  split
  · rfl
  · rw [BudgetedProvider]
    split
    · rfl
    · rfl

/-- What the sweep has stays the beginning of what it returns. -/
theorem sweep_prefix (h : (sweep I P heads asOf symbols out s).1 = .ok full) : out <+: full := by
  induction symbols generalizing out s with
  | nil =>
    cases h
    exact List.prefix_refl _
  | cons sym symbols ih =>
    rw [sweep] at h
    split at h
    · exact ih h
    · split at h
      · cases h
        exact List.prefix_refl _
      · cases h
      · exact ih h
      · exact (List.prefix_append out _).trans (ih h)

/-- The names that have headlines. -/
def withHeadlines (heads : Dict String (List String)) (symbols : List String) : List String :=
  symbols.filter fun sym ↦ Dict.getD heads (upper sym) [] ≠ []

/-- A budgeted sweep from the middle of a run, with `n` calls spent. -/
theorem sweep_budgeted (calls : σ → ℕ) (hcalls : ∀ s r, calls (P s r).2 = calls s + 1)
    (h : (sweep I P heads asOf symbols out s).1 = .ok full) (hn : n ≤ (max 0 b).toNat) :
    ∃ out' s' m, sweep I (BudgetedProvider P b) heads asOf symbols out (s, n) =
        (.ok out', (s', m)) ∧ out' <+: full ∧ m ≤ (max 0 b).toNat ∧ calls s' + n = calls s + m ∧
      ((withHeadlines heads symbols).length + n ≤ (max 0 b).toNat → out' = full) := by
  induction symbols generalizing out s n with
  | nil =>
    cases h
    exact ⟨_, s, n, rfl, List.prefix_refl _, hn, rfl, fun _ ↦ rfl⟩
  | cons sym symbols ih =>
    have hprefix := sweep_prefix h
    rw [sweep] at h ⊢
    by_cases hs : Dict.getD heads (upper sym) [] = []
    · have hskip : withHeadlines heads (sym :: symbols) = withHeadlines heads symbols :=
        List.filter_cons_of_neg (by simp [hs])
      rw [if_pos hs] at h ⊢
      rw [hskip]
      exact ih h hn
    · have hone : (withHeadlines heads (sym :: symbols)).length =
          (withHeadlines heads symbols).length + 1 := by
        rw [withHeadlines, List.filter_cons_of_pos (by simp [hs]), List.length_cons, withHeadlines]
      rw [if_neg hs] at h ⊢
      rw [extract_budgeted, hone]
      by_cases hclean : (I.cleaned (Dict.getD heads (upper sym) [])).take 20 = []
      · have hnone : extractNewsSignal I P (upper sym) (Dict.getD heads (upper sym) []) s =
            (.ok none, s) := if_pos hclean
        rw [hnone] at h
        rw [if_pos hclean]
        obtain ⟨out', s', m, hrun, hpre, hm, hc, heq⟩ := ih h hn
        exact ⟨out', s', m, hrun, hpre, hm, hc, fun hb ↦ heq (by omega)⟩
      · rw [if_neg hclean]
        by_cases hspent : (max 0 b).toNat ≤ n
        · rw [if_pos hspent]
          exact ⟨out, s, n, rfl, hprefix, hn, rfl, fun hb ↦ absurd hb (by omega)⟩
        · have hstep : calls (extractNewsSignal I P (upper sym)
              (Dict.getD heads (upper sym) []) s).2 = calls s + 1 := by
            rw [extractNewsSignal, if_neg hclean]
            exact hcalls s _
          rw [if_neg hspent]
          generalize extractNewsSignal I P (upper sym) (Dict.getD heads (upper sym) []) s = p
            at h hstep ⊢
          obtain ⟨r, s₁⟩ := p
          dsimp only at hstep
          cases r with
          | error e =>
            cases e with
            | budgetExceeded =>
              cases h
              exact ⟨_, s₁, n + 1, rfl, List.prefix_refl _, by omega, by omega, fun _ ↦ rfl⟩
            | raised e => cases h
          | ok signal =>
            cases signal with
            | none =>
              obtain ⟨out', s', m, hrun, hpre, hm, hc, heq⟩ := ih (n := n + 1) h (by omega)
              exact ⟨out', s', m, hrun, hpre, hm, by omega, fun hb ↦ heq (by omega)⟩
            | some signal =>
              obtain ⟨out', s', m, hrun, hpre, hm, hc, heq⟩ := ih (n := n + 1) h (by omega)
              exact ⟨out', s', m, hrun, hpre, hm, by omega, fun hb ↦ heq (by omega)⟩

end Budget

/-- The budget truncates the sweep and changes nothing else. -/
theorem budget_only_truncates (I : Interpreter) (store : InMemoryBitemporalStore)
    (f : Request → Except ProviderError String) (symbols : List String) (asOf : Datetime)
    (windowDays b : ℤ) (full : List (ExtractedSignal × Datetime))
    (hfull : (extractSignalsForUniverse I store (recorded f) symbols asOf windowDays []).1 =
      .ok full) :
    ∃ out log calls, extractSignalsForUniverse I store (BudgetedProvider (recorded f) b) symbols
        asOf windowDays ([], 0) = (.ok out, (log, calls)) ∧
      (log.length : ℤ) ≤ max 0 b ∧ out <+: full ∧
      ((withHeadlines (headlinesBySymbol store asOf symbols windowDays) symbols).length ≤ b →
        out = full) := by
  obtain ⟨out, log, calls, hrun, hpre, hcalls, hlog, heq⟩ :=
    sweep_budgeted List.length (fun log r ↦ by simp [recorded]) hfull
      (Nat.zero_le (max 0 b).toNat)
  refine ⟨out, log, calls, hrun, ?_, hpre, fun hb ↦ heq ?_⟩
  · simp only [List.length_nil] at hlog
    omega
  · omega

/-- A title of the day. -/
def titleRow (symbol title : String) (id : ℕ) : Observation :=
  { source := "gdelt", dataset := newsDataset, entityType := "equity", entityId := symbol,
    eventTime := 0, knowledgeTime := 0, value := Dict.set .empty "title" (.str title),
    observationId := id }

/-- Two names with news, and a budget for one of them. -/
theorem budget_only_truncates_two :
    let store : InMemoryBitemporalStore :=
      Keyed.ofList [titleRow "A" "beats" 0, titleRow "B" "misses" 1]
    let f : Request → Except ProviderError String := fun _ ↦ .ok "\x7b\"score\": 0.5\x7d"
    ∃ out log calls, extractSignalsForUniverse cpython store (BudgetedProvider (recorded f) 1)
        ["A", "B"] 0 7 ([], 0) = (.ok out, (log, calls)) ∧ (log.length : ℤ) ≤ 1 ∧
      out <+: [(⟨"A", 1 / 2, 1 / 2, ""⟩, 0), (⟨"B", 1 / 2, 1 / 2, ""⟩, 0)] := by
  intro store f
  obtain ⟨out, log, calls, hrun, hlog, hpre, -⟩ :=
    budget_only_truncates cpython store f ["A", "B"] 0 7 1
      [(⟨"A", 1 / 2, 1 / 2, ""⟩, 0), (⟨"B", 1 / 2, 1 / 2, ""⟩, 0)] (by decide +kernel)
  exact ⟨out, log, calls, hrun, hlog, hpre⟩

end MarketTrader.Reasoning

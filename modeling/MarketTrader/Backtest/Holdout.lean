import MarketTrader.Core.Identity
import MarketTrader.Library.Rounding
import MarketTrader.Library.Run
import MarketTrader.Storage.Journal

namespace MarketTrader.Backtest

open Library MarketTrader.Core Storage InMemoryBitemporalStore

def holdoutLedgerDataset : String := "validation.holdout_ledger"

/-- One sealed confirmation of a signal on the holdout slice. -/
structure HoldoutLook where
  signal : String
  decidedAt : Datetime
  nDates : ℤ
  meanIc : ℚ
  tStat : ℚ
  passed : Bool
deriving DecidableEq

inductive HoldoutError
  | valueError (field : String)
deriving DecidableEq

def readNumber (o : Observation) (field : String) : Except HoldoutError ℚ :=
  match ((o.get? field).getD (.num 0)).float? with
  | some q => .ok q
  | none => .error (.valueError field)

def HoldoutLook.ofRow (signal : String) (o : Observation) : Except HoldoutError HoldoutLook := do
  let nDates ← readNumber o "n_dates"
  let meanIc ← readNumber o "mean_ic"
  let tStat ← readNumber o "t_stat"
  return { signal := signal, decidedAt := o.eventTime, nDates := truncate nDates, meanIc := meanIc
           tStat := tStat, passed := ((o.get? "passed").getD (.bool false)).truthy }

/-- The first look at the signal, of those knowable at `asOf`, or now. -/
def priorLook (store : InMemoryBitemporalStore) (signal : String) (asOf : Option Datetime)
    (now : Datetime) : Except HoldoutError (Option HoldoutLook) :=
  let rows := (store.asOf (asOf.getD now) { dataset := some holdoutLedgerDataset }).filter
    (·.entityId = signal)
  match firstMax (fun r ↦ OrderDual.toDual r.eventTime) rows with
  | none => .ok none
  | some o => (HoldoutLook.ofRow signal o).map some

def HoldoutLook.row (D : Digests) (look : HoldoutLook) : Observation :=
  withDeterministicId D
    { source := "validation"
      dataset := holdoutLedgerDataset
      entityType := "signal"
      entityId := look.signal
      ref := some ("holdout:" ++ look.decidedAt.date.isoformat)
      eventTime := look.decidedAt
      knowledgeTime := look.decidedAt
      value := .ofList [("n_dates", .num look.nDates), ("mean_ic", .num look.meanIc),
        ("t_stat", .num look.tStat), ("passed", .bool look.passed)] }

def record (D : Digests) (store : InMemoryBitemporalStore) (look : HoldoutLook) :
    InMemoryBitemporalStore :=
  upsertMany store [look.row D]

/-- Returns the look that counts, and whether it is a repeat. -/
def confirmOnHoldout (D : Digests) (store : InMemoryBitemporalStore) (candidate : HoldoutLook)
    (now : Datetime) : Except HoldoutError (HoldoutLook × Bool) × InMemoryBitemporalStore :=
  match priorLook store candidate.signal (some candidate.decidedAt) now with
  | .error e => (.error e, store)
  | .ok (some existing) => (.ok (existing, true), store)
  | .ok none => (.ok (candidate, false), record D store candidate)

variable {D : Digests} {store : InMemoryBitemporalStore} {look candidate : HoldoutLook}
  {signal : String} {asOf : Option Datetime} {now k : Datetime}

/-- No look at the signal was ever recorded. -/
def Unseen (store : InMemoryBitemporalStore) (signal : String) : Prop :=
  ∀ o ∈ store.toList, ¬(o.dataset = holdoutLedgerDataset ∧ o.entityId = signal)

theorem HoldoutLook.ofRow_row (look : HoldoutLook) :
    ofRow look.signal (look.row D) = .ok look := by
  have htrunc : truncate (look.nDates : ℚ) = look.nDates := by
    unfold truncate
    split <;> simp
  have hn : (look.row D).get? "n_dates" = some (.num look.nDates) := rfl
  have hm : (look.row D).get? "mean_ic" = some (.num look.meanIc) := rfl
  have ht : (look.row D).get? "t_stat" = some (.num look.tStat) := rfl
  have hp : (look.row D).get? "passed" = some (.bool look.passed) := rfl
  have hd : (look.row D).eventTime = look.decidedAt := rfl
  simp [ofRow, readNumber, hn, hm, ht, hp, hd, htrunc, bind, Except.bind, pure, Except.pure]

theorem priorLook_eq (store : InMemoryBitemporalStore) (signal : String) (asOf : Option Datetime)
    (now : Datetime) : priorLook store signal asOf now =
      match firstMax (fun r ↦ OrderDual.toDual r.eventTime) (sortObservations
        (collapseLatestRevisions
          (journal store holdoutLedgerDataset signal (asOf.getD now)))) with
      | none => .ok none
      | some o => (HoldoutLook.ofRow signal o).map some := by
  rw [priorLook, filter_asOf]

theorem journal_of_unseen (h : Unseen store signal) (k : Datetime) :
    journal store holdoutLedgerDataset signal k = [] := by
  apply List.eq_nil_iff_forall_not_mem.mpr
  intro o ho
  obtain ⟨hm, -, hd⟩ := mem_journal.mp ho
  exact h o hm hd

theorem priorLook_of_unseen (h : Unseen store signal) : priorLook store signal asOf now = .ok none := by
  rw [priorLook_eq, journal_of_unseen h]
  rfl

/-- After the first look, a reader knows of that look and of nothing else. -/
theorem journal_record (h : Unseen store look.signal) (k : Datetime) :
    journal (record D store look) holdoutLedgerDataset look.signal k =
      if look.decidedAt ≤ k then [look.row D] else [] := by
  let p : Observation → Bool := fun o ↦
    o.knowledgeTime ≤ k ∧ o.dataset = holdoutLedgerDataset ∧ o.entityId = look.signal
  have hfilter : ∀ s : InMemoryBitemporalStore,
      journal s holdoutLedgerDataset look.signal k = s.toList.filter p := by
    intro s
    simp [p, journal, visible, List.filter_filter, Bool.and_comm]
  have hother : ∀ o ∈ store.toList, o.observationId = (look.row D).observationId →
      p o = false := by
    intro o ho _
    exact decide_eq_false fun hp ↦ h o ho hp.2
  obtain ⟨l₁, l₂, h₁, h₂⟩ := filter_upsert p hother
  rw [← hfilter, journal_of_unseen h, eq_comm, List.append_eq_nil_iff] at h₁
  obtain ⟨rfl, rfl⟩ := h₁
  have hrow : p (look.row D) = decide (look.decidedAt ≤ k) :=
    decide_eq_decide.mpr (and_iff_left ⟨rfl, rfl⟩)
  have hs : (record D store look).toList =
      upsert Observation.observationId (look.row D) store.toList := rfl
  rw [hfilter, hs, h₂, hrow, List.nil_append, List.append_nil]
  simp only [decide_eq_true_eq]

theorem priorLook_record (h : Unseen store look.signal) :
    priorLook (record D store look) look.signal asOf now =
      .ok (if look.decidedAt ≤ asOf.getD now then some look else none) := by
  rw [priorLook_eq, journal_record h]
  by_cases hk : look.decidedAt ≤ asOf.getD now
  · have hone : firstMax (fun r : Observation ↦ OrderDual.toDual r.eventTime)
        (sortObservations (collapseLatestRevisions [look.row D])) = some (look.row D) := rfl
    rw [if_pos hk, if_pos hk, hone]
    dsimp only
    rw [HoldoutLook.ofRow_row]
    rfl
  · rw [if_neg hk, if_neg hk]
    rfl

theorem confirmOnHoldout_of_unseen (h : Unseen store candidate.signal) :
    confirmOnHoldout D store candidate now = (.ok (candidate, false), record D store candidate) := by
  rw [confirmOnHoldout, priorLook_of_unseen h]

/-- A candidate is held against the seal as of its own decision. -/
theorem confirmOnHoldout_record (h : Unseen store look.signal)
    (hs : candidate.signal = look.signal) :
    confirmOnHoldout D (record D store look) candidate now =
      if look.decidedAt ≤ candidate.decidedAt then (.ok (look, true), record D store look)
      else (.ok (candidate, false), record D (record D store look) candidate) := by
  rw [confirmOnHoldout, hs, priorLook_record h, Option.getD_some]
  by_cases hk : look.decidedAt ≤ candidate.decidedAt
  · rw [if_pos hk, if_pos hk]
  · rw [if_neg hk, if_neg hk]

/-- The seal holds over all later calls exactly when none of them is back-dated before the first
look. -/
theorem holdout_seal_iff (D : Digests) (store : InMemoryBitemporalStore) (signal : String)
    (h : Unseen store signal) (first : HoldoutLook) (hf : first.signal = signal)
    (rest : List HoldoutLook) (hr : ∀ c ∈ rest, c.signal = signal) (now : Datetime)
    (hnow : ∀ c ∈ first :: rest, c.decidedAt ≤ now) :
    let step := fun s c ↦ (confirmOnHoldout D s c now).2
    let ledger := step store first
    ((confirmOnHoldout D store first now).1 = .ok (first, false) ∧
      priorLook ledger signal none now = .ok (some first) ∧
      Along step (fun s c ↦ (confirmOnHoldout D s c now).1 = .ok (first, true) ∧
        step s c = ledger ∧ priorLook (step s c) signal none now = .ok (some first)) ledger rest) ↔
    ∀ c ∈ rest, first.decidedAt ≤ c.decidedAt := by
  intro step ledger
  subst hf
  have hfirst : confirmOnHoldout D store first now = (.ok (first, false), record D store first) :=
    confirmOnHoldout_of_unseen h
  have hledger : ledger = record D store first := congrArg Prod.snd hfirst
  have hle : first.decidedAt ≤ now := hnow first List.mem_cons_self
  have hprior : priorLook ledger first.signal none now = .ok (some first) := by
    rw [hledger, priorLook_record h, Option.getD_none, if_pos hle]
  have hcall : ∀ c ∈ rest, confirmOnHoldout D ledger c now =
      if first.decidedAt ≤ c.decidedAt then (.ok (first, true), ledger)
      else (.ok (c, false), record D ledger c) := by
    intro c hc
    rw [hledger]
    exact confirmOnHoldout_record h (hr c hc)
  rw [hfirst, and_iff_right rfl, and_iff_right hprior]
  clear hnow hr
  induction rest with
  | nil => simp [Along]
  | cons c rest ih =>
    have hc := hcall c List.mem_cons_self
    have ih := ih fun c' hc' ↦ hcall c' (List.mem_cons_of_mem c hc')
    rw [List.forall_mem_cons]
    by_cases hk : first.decidedAt ≤ c.decidedAt
    · rw [if_pos hk] at hc
      have hret : (confirmOnHoldout D ledger c now).1 = .ok (first, true) := by rw [hc]
      have hs : step ledger c = ledger := by
        change (confirmOnHoldout D ledger c now).2 = ledger
        rw [hc]
      rw [Along, hs, and_iff_right ⟨hret, rfl, hprior⟩, and_iff_right hk]
      exact ih
    · rw [if_neg hk] at hc
      refine iff_of_false (fun ha ↦ ?_) fun ha ↦ hk ha.1
      have hret := ha.1.1
      rw [hc] at hret
      cases hret

/-- Two looks of which the second comes later, and is answered with the first. -/
theorem holdout_seal_kept :
    let look (t : Datetime) (tStat : ℚ) : HoldoutLook :=
      { signal := "mom_20", decidedAt := t, nDates := 12, meanIc := 1 / 20, tStat := tStat
        passed := true }
    let ledger := (confirmOnHoldout .plain .empty (look 0 3) 9).2
    (confirmOnHoldout .plain ledger (look 5 6) 9).1 = .ok (look 0 3, true) := by
  intro look ledger
  have h := holdout_seal_iff .plain .empty "mom_20" (fun o ho ↦ by cases ho) (look 0 3) rfl
    [look 5 6] (by simp [look]) 9 (by decide)
  exact (h.mpr (by decide)).2.2.1.1

/-- A look that is back-dated by a day is recorded as if it were the first, and from then on it is
the one that counts. -/
theorem holdout_seal_back_dated : ¬∀ (D : Digests) (store : InMemoryBitemporalStore)
    (signal : String), Unseen store signal →
    ∀ (first : HoldoutLook) (rest : List HoldoutLook) (now : Datetime),
      (∀ c ∈ first :: rest, c.signal = signal ∧ c.decidedAt ≤ now) →
        let step := fun s c ↦ (confirmOnHoldout D s c now).2
        let ledger := step store first
        (confirmOnHoldout D store first now).1 = .ok (first, false) ∧
          priorLook ledger signal none now = .ok (some first) ∧
          Along step (fun s c ↦ (confirmOnHoldout D s c now).1 = .ok (first, true) ∧
            step s c = ledger ∧ priorLook (step s c) signal none now = .ok (some first))
              ledger rest := by
  intro h
  let look (t : Datetime) (tStat : ℚ) : HoldoutLook :=
    { signal := "mom_20", decidedAt := t, nDates := 12, meanIc := 1 / 20, tStat := tStat
      passed := true }
  have hseal := h .plain .empty "mom_20" (fun o ho ↦ by cases ho)
    (look (Timedelta.ofDays 1) 3) [look 0 6] (Timedelta.ofDays 2) (by decide)
  obtain ⟨-, -, ⟨hret, -⟩, -⟩ := hseal
  revert hret
  decide +kernel

end MarketTrader.Backtest

import MarketTrader.Execution.Records
import MarketTrader.Runtime.InsiderSleeve
import MarketTrader.Runtime.SleevePass

namespace MarketTrader.Runtime.InsiderSleeve

open Library MarketTrader.Core Storage InMemoryBitemporalStore Config Portfolio Execution Feedback

variable {D : Digests} {settings : Settings} {prices : Dict String ℚ} {asOf : Datetime}

theorem bar_not_mem_sleeveDataset : '|' ∉ sleeveDataset.toList := by decide

def IsRow (D : Digests) (o : Observation) : Prop :=
  (∃ symbol t price exitBy n, o = openRow D symbol t price exitBy n) ∨
    ∃ symbol t reason, (reason = "stop" ∨ reason = "horizon") ∧ o = closeRow D symbol t reason

theorem bar_not_mem_openRef (t : Datetime) : '|' ∉ ("open:" ++ t.date.isoformat).toList := by
  simp [Datetime.bar_not_mem_isoformat]

theorem bar_not_mem_closeRef {reason : String} (h : reason = "stop" ∨ reason = "horizon")
    (t : Datetime) : '|' ∉ ("close:" ++ reason ++ ":" ++ t.date.isoformat).toList := by
  rcases h with rfl | rfl <;> simp [Datetime.bar_not_mem_isoformat]

theorem closeRef_ne_openRef (reason : String) (t t' : Datetime) :
    "close:" ++ reason ++ ":" ++ t.date.isoformat ≠ "open:" ++ t'.date.isoformat := by
  intro h
  have hh := congrArg (fun ref : String ↦ ref.toList.head?) h
  simp at hh

theorem isSleeveRow_of_isRow {o : Observation} (h : IsRow D o) : IsSleeveRow D sleeveDataset o := by
  rcases h with ⟨symbol, t, price, exitBy, n, rfl⟩ | ⟨symbol, t, reason, hr, rfl⟩
  · exact ⟨symbol, _, t, _, bar_not_mem_openRef t, rfl⟩
  · exact ⟨symbol, _, t, _, bar_not_mem_closeRef hr t, rfl⟩

theorem closeReason_or (settings : Settings) (prices : Dict String ℚ)
    (a : String × InsiderSleevePosition) :
    closeReason settings prices a = "stop" ∨ closeReason settings prices a = "horizon" := by
  unfold closeReason
  split <;> simp

theorem readPosition_openRow (symbol : String) (t : Datetime) (price : ℚ) (exitBy : Datetime)
    (n : ℚ) : readPosition (openRow D symbol t price exitBy n) =
      .ok ⟨symbol, price, exitBy, truncate n⟩ := rfl

theorem isOpen_openRow (symbol : String) (t : Datetime) (price : ℚ) (exitBy : Datetime)
    (n : ℚ) : isOpen (openRow D symbol t price exitBy n) := rfl

theorem not_isOpen_closeRow (symbol : String) (t : Datetime) (reason : String) :
    ¬isOpen (closeRow D symbol t reason) := by
  have h : isOpen (closeRow D symbol t reason) = false := rfl
  simp [h]

theorem readPosition_total {o : Observation} (h : IsRow D o) (ho : isOpen o) :
    ∃ pos, readPosition o = .ok pos := by
  rcases h with ⟨symbol, t, price, exitBy, n, rfl⟩ | ⟨symbol, t, reason, hr, rfl⟩
  · exact ⟨_, readPosition_openRow symbol t price exitBy n⟩
  · exact absurd ho (not_isOpen_closeRow symbol t reason)

theorem activeInsiderPositions_total {s : InMemoryBitemporalStore}
    (h : Ledger D sleeveDataset (IsRow D) s) (k : Datetime) :
    ∃ active, activeInsiderPositions s k = .ok active :=
  activePositions_total_of_ledger h (fun _ ↦ readPosition_total) k

theorem mem_keys_active {s : InMemoryBitemporalStore} {k : Datetime}
    {active : Dict String InsiderSleevePosition} (h : activeInsiderPositions s k = .ok active)
    (hl : Ledger D sleeveDataset (IsRow D) s) {symbol : String} :
    symbol ∈ active.keys ↔ ∃ o, standing newer s sleeveDataset symbol k = some o ∧ isOpen o :=
  mem_keys_activePositions hl (fun _ ↦ readPosition_total) h

def Priced (prices : Dict String ℚ) (symbol : String) : Prop :=
  ∃ price, Dict.get? prices symbol = some price ∧ price ≠ 0

instance (prices : Dict String ℚ) (symbol : String) : Decidable (Priced prices symbol) :=
  decidable_of_iff (((Dict.get? prices symbol).filter (· ≠ 0)).isSome) (by
    cases h : Dict.get? prices symbol <;> simp [Priced, h, Option.filter])

/-! ### The decision -/

def closings (D : Digests) (settings : Settings) (prices : Dict String ℚ) (asOf : Datetime)
    (active : Dict String InsiderSleevePosition) : List (String × Observation) :=
  (active.toList.filter (isDue settings prices asOf)).map
    (fun a ↦ (a.1, closeRow D a.1 asOf (closeReason settings prices a)))

def openings (D : Digests) (settings : Settings) (prices : Dict String ℚ) (asOf : Datetime)
    (es : List SleeveEntry) : List (String × Observation × Observation) :=
  (es.filter (fun e ↦ Priced prices e.symbol)).map
    (fun e ↦ (e.symbol,
      openRow D e.symbol asOf ((Dict.get? prices e.symbol).getD 0) e.exitBy e.nBuys,
      (prediction settings asOf e).toObservation D))

theorem foldl_openStep (es : List SleeveEntry) (p : SleevePass) :
    es.foldl (openStep D settings prices asOf) p =
      (openings D settings prices asOf es).foldl (openWith (perName settings)) p := by
  induction es generalizing p with
  | nil => rfl
  | cons e es ih =>
    rw [List.foldl_cons, ih]
    by_cases hp : Priced prices e.symbol
    · obtain ⟨price, hg, hne⟩ := id hp
      have hq : openStep D settings prices asOf p e = openWith (perName settings) p (e.symbol,
          openRow D e.symbol asOf price e.exitBy e.nBuys,
          (prediction settings asOf e).toObservation D) := by
        simp only [openStep, hg, Option.filter, ne_eq, hne, not_false_eq_true, decide_true, if_true]
        rfl
      simp [openings, hp, hg, hq]
    · have hq : openStep D settings prices asOf p e = p := by
        unfold openStep
        split
        · rfl
        · next price hf =>
          rw [Option.filter_eq_some_iff] at hf
          exact absurd ⟨price, hf.1, by simpa using hf.2⟩ hp
      simp [openings, hp, hq]

variable (D settings prices asOf) in
theorem closings_names (active : Dict String InsiderSleevePosition) :
    (closings D settings prices asOf active).map Prod.fst =
      (active.toList.filter (isDue settings prices asOf)).map Prod.fst := by
  simp [closings, Function.comp_def]

def remaining (settings : Settings) (prices : Dict String ℚ) (asOf : Datetime)
    (active : Dict String InsiderSleevePosition) : List String :=
  (active.toList.filter (fun a ↦ !isDue settings prices asOf a)).map Prod.fst

theorem liveNames_eq (active : Dict String InsiderSleevePosition) :
    liveNames active ((active.toList.filter (isDue settings prices asOf)).map Prod.fst) =
      remaining settings prices asOf active :=
  keys_filter_not_due (isDue settings prices asOf) active

theorem entries_insertAll (hD : Function.Injective D.uuid5) {s : InMemoryBitemporalStore}
    (h : Identified D s) {l : List Observation}
    (hl : ∀ r ∈ l, HasIdentity D r ∧ r.dataset = sleeveDataset) (gate : Gate)
    (live : List String) :
    entries settings (s.insertAll l) gate asOf live = entries settings s gate asOf live := by
  have hread : ∀ d, sleeveDataset ≠ d → ∀ k,
      InMemoryBitemporalStore.asOf (s.insertAll l) k { dataset := some d } =
        InMemoryBitemporalStore.asOf s k { dataset := some d } := fun d hd k ↦
    asOf_insertAll_dataset hD h fun r hr ↦ ⟨(hl r hr).1, (hl r hr).2 ▸ hd⟩
  have hdetect : ∀ k n days, Memory.detectEvents (s.insertAll l) k n days =
      Memory.detectEvents s k n days := by
    intro k n days
    simp only [Memory.detectEvents, hread Memory.form4Dataset (by decide),
      hread Memory.congressDataset (by decide)]
  simp only [entries, insiderClusterEntries, hdetect]

/-- The names that the pass selects to open, of which it opens those that have a price. -/
def selected (settings : Settings) (prices : Dict String ℚ) (s : InMemoryBitemporalStore)
    (gate : Gate) (asOf : Datetime) (active : Dict String InsiderSleevePosition) :
    List SleeveEntry :=
  entries settings s gate asOf (remaining settings prices asOf active)

theorem selected_eq_nil {s : InMemoryBitemporalStore} {gate : Gate}
    {active : Dict String InsiderSleevePosition}
    (h : Dict.get? gate .insiderClusterBuy = none) :
    selected settings prices s gate asOf active = [] := by
  unfold selected entries insiderClusterEntries
  rw [h]
  split <;> rfl

theorem not_mem_remaining_of_selected {s : InMemoryBitemporalStore} {gate : Gate}
    {active : Dict String InsiderSleevePosition} {e : SleeveEntry}
    (h : e ∈ selected settings prices s gate asOf active) :
    e.symbol ∉ remaining settings prices asOf active := by
  unfold selected entries at h
  split at h
  · cases h
  · exact not_mem_held_of_mem_entries h

/-- The decision read off the state before the pass. -/
theorem decidePass_spec (hD : Function.Injective D.uuid5) {s : InMemoryBitemporalStore}
    (hl : Ledger D sleeveDataset (IsRow D) s) {universeNames : List String} {gate : Gate}
    {p : SleevePass} (h : decidePass D settings s universeNames gate asOf = .ok (p, prices))
    {active : Dict String InsiderSleevePosition}
    (ha : activeInsiderPositions s asOf = .ok active) :
    PassSpec D sleeveDataset (IsRow D) asOf (perName settings) s
      (closings D settings prices asOf active)
      (openings D settings prices asOf (selected settings prices s gate asOf active)) p := by
  unfold decidePass at h
  rw [ha] at h
  cases hp : latestPrices s asOf (universeNames ++ active.keys) with
  | error err =>
    simp only [hp, bind, Except.bind] at h
    cases h
  | ok prices' =>
    simp only [hp, bind, Except.bind, pure, Except.pure, Except.ok.injEq, Prod.mk.injEq] at h
    obtain ⟨h, rfl⟩ := h
    obtain ⟨hco, hcc, hct, hcs⟩ := foldl_closeWith (isDue settings prices' asOf)
      (fun store a ↦ recordClose D store a.1 asOf (closeReason settings prices' a))
      (fun a ↦ closeRow D a.1 asOf (closeReason settings prices' a)) (fun _ _ ↦ rfl)
      active.toList { store := s }
    have hrows : (active.toList.filter (isDue settings prices' asOf)).map
        (fun a ↦ closeRow D a.1 asOf (closeReason settings prices' a)) =
          (closings D settings prices' asOf active).map Prod.snd := by
      simp [closings, Function.comp_def]
    rw [hrows] at hcs
    have hids : ∀ r ∈ (closings D settings prices' asOf active).map Prod.snd,
        HasIdentity D r ∧ r.dataset = sleeveDataset := by
      intro r hr
      simp only [closings, List.map_map, List.mem_map, Function.comp_apply] at hr
      obtain ⟨a, -, rfl⟩ := hr
      exact ⟨hasIdentity_sleeveRow bar_not_mem_sleeveDataset, rfl⟩
    change List.foldl (openStep D settings prices' asOf) (List.foldl (closeStep D settings prices'
      asOf) { store := s } active.toList) _ = p at h
    unfold closeStep at h
    rw [hcc, List.nil_append, liveNames_eq, hcs, entries_insertAll hD hl.identified hids] at h
    rw [foldl_openStep] at h
    obtain ⟨hoc, hoo, hot, hos⟩ := foldl_openWith (perName settings)
      (openings D settings prices' asOf (selected settings prices' s gate asOf active))
      (List.foldl (closeWith (isDue settings prices' asOf) (fun store a ↦ recordClose D
          store a.1 asOf (closeReason settings prices' a))) { store := s } active.toList)
    unfold selected at hoc hoo hot hos ⊢
    rw [h] at hoc hoo hot hos
    rw [hco, List.nil_append] at hoo
    have hnames := closings_names D settings prices' asOf active
    refine ⟨?_, hoo, ?_, ?_, ?_, ?_, ?_, ?_, ?_⟩
    · rw [hoc, hcc, List.nil_append, hnames]
    · rw [hot, hoo, hct, hoc, hcc, List.nil_append]
      rfl
    · rw [hos, hcs]
    · rw [hnames]
      exact (active.nodup).sublist (List.filter_sublist.map _)
    · simp only [openings, List.map_map, Function.comp_def]
      refine List.Nodup.sublist (List.filter_sublist.map SleeveEntry.symbol) ?_
      unfold entries
      split
      · simp
      · exact nodup_insiderClusterEntries ..
    · intro a ha
      simp only [closings, List.mem_map] at ha
      obtain ⟨b, -, rfl⟩ := ha
      have hr := closeReason_or settings prices' b
      exact ⟨.inr ⟨b.1, asOf, _, hr, rfl⟩, _, _, bar_not_mem_closeRef hr asOf, rfl⟩
    · intro a ha
      simp only [openings, List.mem_map] at ha
      obtain ⟨e, -, rfl⟩ := ha
      exact ⟨.inl ⟨e.symbol, asOf, _, e.exitBy, e.nBuys, rfl⟩, _, _, bar_not_mem_openRef asOf, rfl⟩
    · intro a ha
      simp only [openings, List.mem_map] at ha
      obtain ⟨e, -, rfl⟩ := ha
      have hf : '|' ∉ "forecast".toList := by decide
      have hpd : '|' ∉ predictionDataset.toList := by decide
      exact ⟨⟨rfl, hf, hpd⟩, (by decide : predictionDataset ≠ sleeveDataset)⟩

theorem eq_closeRow {s : InMemoryBitemporalStore} (hl : Ledger D sleeveDataset (IsRow D) s)
    {symbol reason : String} (hr : reason = "stop" ∨ reason = "horizon") {value : Dict String Value}
    (h : ({ closeRow D symbol asOf reason with value := value } : Observation) ∈ s.toList) :
    closeRow D symbol asOf reason ∈ s.toList := by
  have hrow := hl.rows _ h rfl
  rcases hrow with ⟨symbol', t, price, exitBy, n, he⟩ | ⟨symbol', t, reason', hr', he⟩
  · have href := congrArg (fun o ↦ (o.ref.getD "").toList.head?) he
    simp [closeRow, openRow, sleeveRow, withDeterministicId] at href
  · obtain rfl : symbol = symbol' := congrArg Observation.entityId he
    obtain rfl : asOf = t := congrArg Observation.eventTime he
    have href := congrArg (fun o ↦ (o.ref.getD "").toList[6]?) he
    rcases hr with rfl | rfl <;> rcases hr' with rfl | rfl
    · exact he ▸ h
    · simp [closeRow, sleeveRow, withDeterministicId] at href
    · simp [closeRow, sleeveRow, withDeterministicId] at href
    · exact he ▸ h

/-- The name was not opened yet at this time. -/
def OpensNew (D : Digests) (s : InMemoryBitemporalStore) (asOf : Datetime) (symbol : String) :
    Prop :=
  ∀ value, sleeveRow D sleeveDataset symbol ("open:" ++ asOf.date.isoformat) asOf value ∉ s.toList

theorem isOpen_of_coordinates {s : InMemoryBitemporalStore}
    (hl : Ledger D sleeveDataset (IsRow D) s) {o : Observation} (ho : o ∈ s.toList)
    (hd : o.dataset = sleeveDataset) {t : Datetime}
    (href : o.ref = some ("open:" ++ t.date.isoformat)) : isOpen o := by
  rcases hl.rows o ho hd with ⟨symbol, t', price, exitBy, n, rfl⟩ | ⟨symbol, t', reason, -, rfl⟩
  · exact isOpen_openRow symbol t' price exitBy n
  · exact absurd (Option.some_inj.mp href) (closeRef_ne_openRef reason t' t)

section Pass

variable {s : InMemoryBitemporalStore} {gate : Gate} {p : SleevePass}
  {active : Dict String InsiderSleevePosition}

theorem mem_closed_iff {dues opens} (symbol : String)
    (hp : PassSpec D sleeveDataset (IsRow D) asOf (perName settings) s dues opens p)
    (hdues : dues = closings D settings prices asOf active) :
    symbol ∈ p.closed ↔ ∃ a ∈ active.toList, isDue settings prices asOf a ∧ a.1 = symbol := by
  rw [hp.closed, hdues, closings_names]
  simp [List.mem_filter, and_assoc]

theorem mem_opened_iff {dues opens} (symbol : String)
    (hp : PassSpec D sleeveDataset (IsRow D) asOf (perName settings) s dues opens p)
    (hopens : opens = openings D settings prices asOf
      (selected settings prices s gate asOf active)) :
    symbol ∈ p.opened ↔ ∃ e ∈ selected settings prices s gate asOf active,
      Priced prices e.symbol ∧ e.symbol = symbol := by
  rw [hp.opened, hopens]
  simp [openings, List.mem_filter, and_assoc]

variable (hD : Function.Injective D.uuid5) (hl : Ledger D sleeveDataset (IsRow D) s)
  (ha : activeInsiderPositions s asOf = .ok active)
  (hp : PassSpec D sleeveDataset (IsRow D) asOf (perName settings) s
    (closings D settings prices asOf active)
    (openings D settings prices asOf (selected settings prices s gate asOf active)) p)

include hD hl ha hp

/-- After the closing phase a name stands open if it did before and was not closed, or its close
was in the ledger already. -/
theorem open_after_closing_iff (symbol : String) :
    (∃ o, standing newer (s.insertAll ((closings D settings prices asOf active).map Prod.snd))
      sleeveDataset symbol asOf = some o ∧ isOpen o) ↔
    symbol ∈ active.keys ∧ ∀ a ∈ active.toList, a.1 = symbol → isDue settings prices asOf a →
      closeRow D a.1 asOf (closeReason settings prices a) ∈ s.toList := by
  have hrows := fun o ↦ isSleeveRow_of_isRow (D := D) (o := o)
  by_cases hc : symbol ∈ p.closed
  · obtain ⟨a, hm, hd, rfl⟩ := (mem_closed_iff symbol hp rfl).mp hc
    have hdue : (a.1, closeRow D a.1 asOf (closeReason settings prices a)) ∈
        closings D settings prices asOf active :=
      List.mem_map_of_mem (List.mem_filter.mpr ⟨hm, hd⟩)
    obtain ⟨hnew, hold⟩ := hp.standing_of_closed (k := asOf) bar_not_mem_sleeveDataset hD hrows hl
      newer hdue
    have hkey : a.1 ∈ active.keys := Keyed.mem_keys.mpr ⟨a, hm, rfl⟩
    obtain ⟨o, ho, hopen⟩ := (mem_keys_active ha hl).mp hkey
    by_cases hin : closeRow D a.1 asOf (closeReason settings prices a) ∈ s.toList
    · refine iff_of_true ⟨o, (hold hin).trans ho, hopen⟩ ⟨hkey, fun b hb he _ ↦ ?_⟩
      rw [Keyed.eq_of_mem hb hm he]
      exact hin
    · refine iff_of_false ?_ fun h ↦ hin (h.2 a hm rfl hd)
      rintro ⟨o', ho', hopen'⟩
      rw [hnew fun value hv ↦ hin (eq_closeRow hl (closeReason_or _ _ _) hv), ho] at ho'
      -- the row that counted is no later than the pass, so the close takes its place
      obtain ⟨hmo, hko, hdo, -⟩ := mem_journal.mp (mem_of_standing ho)
      have hle : newer o (closeRow D a.1 asOf (closeReason settings prices a)) := by
        obtain ⟨symbol', ref', t', value', -, rfl⟩ := isSleeveRow_of_isRow (hl.rows o hmo hdo)
        exact decide_eq_true hko
      rw [challenge, if_pos hle, Option.some_inj] at ho'
      exact not_isOpen_closeRow _ _ _ (ho' ▸ hopen')
  · rw [hp.standing_of_not_closed (k := asOf) bar_not_mem_sleeveDataset hD hrows hl newer hc,
      ← mem_keys_active ha hl]
    refine (and_iff_left fun a hm he hd ↦ ?_).symm
    exact absurd ((mem_closed_iff symbol hp rfl).mpr ⟨a, hm, hd, he⟩) hc

omit hD hl ha hp in
theorem not_mem_closing {symbol : String} (h : OpensNew D s asOf symbol) (value) :
    sleeveRow D sleeveDataset symbol ("open:" ++ asOf.date.isoformat) asOf value ∉
      (s.insertAll ((closings D settings prices asOf active).map Prod.snd)).toList := by
  intro hm
  rcases Keyed.mem_of_mem_insertAll hm with hm | hm
  · exact h value hm
  · simp only [closings, List.map_map, List.mem_map, Function.comp_apply] at hm
    obtain ⟨a, -, he⟩ := hm
    exact closeRef_ne_openRef _ _ _ (Option.some_inj.mp (congrArg Observation.ref he))

variable (settings prices active) in
omit hl ha hp in
theorem mem_closing {symbol : String} {value : Dict String Value}
    (h : sleeveRow D sleeveDataset symbol ("open:" ++ asOf.date.isoformat) asOf value ∈ s.toList) :
    sleeveRow D sleeveDataset symbol ("open:" ++ asOf.date.isoformat) asOf value ∈
      (s.insertAll ((closings D settings prices asOf active).map Prod.snd)).toList := by
  have hext : Keyed.ExtendedBy (fun r ↦ ∃ symbol' reason, (reason = "stop" ∨ reason = "horizon") ∧
      r = closeRow D symbol' asOf reason) s
        (s.insertAll ((closings D settings prices asOf active).map Prod.snd)) := by
    refine ⟨_, fun r hr ↦ ?_, rfl⟩
    simp only [closings, List.map_map, List.mem_map, Function.comp_apply] at hr
    obtain ⟨a, -, rfl⟩ := hr
    exact ⟨a.1, _, closeReason_or settings prices a, rfl⟩
  refine hext.mem h ?_
  rintro r ⟨symbol', reason, hr, rfl⟩ hid
  exact closeRef_ne_openRef _ _ _ (sleeveRow_coordinates hD bar_not_mem_sleeveDataset
    (bar_not_mem_closeRef hr asOf) (bar_not_mem_openRef asOf) hid).2.2

theorem mem_active_after_iff (symbol : String) {active' : Dict String InsiderSleevePosition}
    (ha' : activeInsiderPositions p.store asOf = .ok active') :
    symbol ∈ active'.keys ↔ (symbol ∈ p.opened ∧ OpensNew D s asOf symbol) ∨
      symbol ∈ active.keys ∧ ∀ a ∈ active.toList, a.1 = symbol → isDue settings prices asOf a →
        closeRow D a.1 asOf (closeReason settings prices a) ∈ s.toList := by
  have hrows := fun o ↦ isSleeveRow_of_isRow (D := D) (o := o)
  have hclosing := hp.ledger_closing bar_not_mem_sleeveDataset hl
  rw [mem_keys_active ha' (hp.ledger_after bar_not_mem_sleeveDataset hl),
    ← open_after_closing_iff hD hl ha hp symbol]
  by_cases ho : symbol ∈ p.opened
  · obtain ⟨e, he, hpr, rfl⟩ := (mem_opened_iff symbol hp rfl).mp ho
    have hopen : (e.symbol, openRow D e.symbol asOf ((Dict.get? prices e.symbol).getD 0) e.exitBy
        e.nBuys, (prediction settings asOf e).toObservation D) ∈
          openings D settings prices asOf (selected settings prices s gate asOf active) :=
      List.mem_map_of_mem (List.mem_filter.mpr ⟨he, decide_eq_true hpr⟩)
    by_cases hnew : OpensNew D s asOf e.symbol
    · refine iff_of_true ?_ (.inl ⟨ho, hnew⟩)
      have hst := hp.standing_of_opened bar_not_mem_sleeveDataset hD hrows hl newer hopen
        (not_mem_closing hnew)
      rw [hst]
      have hopens := isOpen_openRow (D := D) e.symbol asOf ((Dict.get? prices e.symbol).getD 0)
        e.exitBy e.nBuys
      cases hs : standing newer (s.insertAll ((closings D settings prices asOf active).map
          Prod.snd)) sleeveDataset e.symbol asOf with
      | none => exact ⟨_, rfl, hopens⟩
      | some prev =>
        obtain ⟨hm, hk, hds, -⟩ := mem_journal.mp (mem_of_standing hs)
        have hle : newer prev (openRow D e.symbol asOf ((Dict.get? prices e.symbol).getD 0)
            e.exitBy e.nBuys) := by
          obtain ⟨symbol', ref', t', value', -, rfl⟩ := hrows _ (hclosing.rows prev hm hds)
          exact decide_eq_true hk
        rw [challenge, if_pos hle]
        exact ⟨_, rfl, hopens⟩
    · obtain ⟨value, hv⟩ := not_forall_not.mp hnew
      have hv' := mem_closing settings prices active hD hv
      rw [hp.standing_of_opened_again bar_not_mem_sleeveDataset hD hrows hl newer
        (fun _ _ _ _ ↦ rfl) hopen hv']
      simp only [hnew, and_false, false_or]
      cases hs : standing newer (s.insertAll ((closings D settings prices asOf active).map
          Prod.snd)) sleeveDataset e.symbol asOf with
      | none => simp
      | some o =>
        simp only [Option.map_some, Option.some_inj, exists_eq_left']
        -- the row that is rewritten was an open, and still is
        unfold revalue
        split
        · next hid =>
          obtain rfl := Keyed.eq_of_mem (mem_journal.mp (mem_of_standing hs)).1 hv' hid
          exact iff_of_true (isOpen_openRow _ _ _ _ _) (isOpen_of_coordinates hclosing hv' rfl rfl)
        · exact Iff.rfl
  · rw [hp.standing_of_not_opened (k := asOf) bar_not_mem_sleeveDataset hD hrows hl newer ho]
    simp [ho]

end Pass

end MarketTrader.Runtime.InsiderSleeve

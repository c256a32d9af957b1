import MarketTrader.Runtime.InsiderLedger
import MarketTrader.Runtime.NewsLedger

namespace MarketTrader.Runtime

open Library MarketTrader.Core Storage InMemoryBitemporalStore Execution

/-! ### Calls on a ledger -/

variable {π : Type}

/-- What a call writes, and the position that it leaves its symbol in. -/
structure LedgerCall (π : Type) where
  symbol : String
  asOf : Datetime
  ref : String
  value : Dict String Value
  position : Option π

namespace LedgerCall

def row (D : Digests) (dataset : String) (c : LedgerCall π) : Observation :=
  sleeveRow D dataset c.symbol c.ref c.asOf c.value

def coordinates (c : LedgerCall π) : Datetime × String := (c.asOf, c.ref)

end LedgerCall

/-- The positions after the calls: an open sets that of its symbol, a close removes it. -/
def replay (calls : List (LedgerCall π)) : Dict String π :=
  calls.foldl (fun d c ↦
    match c.position with
    | some pos => Dict.set d c.symbol pos
    | none => d.erase c.symbol) .empty

def callsOf (calls : List (LedgerCall π)) (symbol : String) : List (LedgerCall π) :=
  calls.filter (·.symbol = symbol)

/-- The calls at the time of the last one. A later call under the same ref has taken the place of
the earlier one. -/
def lastCalls (mine : List (LedgerCall π)) : Keyed (LedgerCall.coordinates (π := π)) :=
  .ofList (mine.filter (fun c ↦ mine.getLast?.all (·.asOf = c.asOf)))

theorem callsOf_pairwise {calls : List (LedgerCall π)}
    (h : calls.Pairwise (fun a b ↦ a.asOf ≤ b.asOf)) (symbol : String) :
    (callsOf calls symbol).Pairwise (fun a b ↦ a.asOf ≤ b.asOf) := h.filter _

theorem get?_replay (calls : List (LedgerCall π)) (symbol : String) :
    Dict.get? (replay calls) symbol = (callsOf calls symbol).getLast?.bind LedgerCall.position := by
  induction calls using List.reverseRecOn with
  | nil => rfl
  | append_singleton calls c ih =>
    have hstep : replay (calls ++ [c]) = match c.position with
        | some pos => Dict.set (replay calls) c.symbol pos
        | none => (replay calls).erase c.symbol := by
      rw [replay, List.foldl_append]
      rfl
    rw [callsOf, List.filter_append, hstep]
    by_cases hc : c.symbol = symbol
    · rw [List.filter_cons_of_pos (by simpa using hc), List.filter_nil, List.getLast?_concat]
      cases hp : c.position with
      | some pos => simp [hc, hp]
      | none => simp [Dict.get?, Keyed.find?_erase, hc, hp]
    · rw [List.filter_cons_of_neg (by simpa using hc), List.filter_nil, List.append_nil, ← callsOf,
        ← ih]
      cases hp : c.position with
      | some pos => simp [Dict.get?_set, hc]
      | none => simp [Dict.get?, Keyed.find?_erase, hc]

section Deciding

variable {mine : List (LedgerCall π)} {last : LedgerCall π}

/-- The calls before the time of the last one have rows of their own, before those of that time. -/
theorem exists_early (hsorted : mine.Pairwise (fun a b ↦ a.asOf ≤ b.asOf))
    (hlast : mine.getLast? = some last) : ∃ early : List (LedgerCall π),
      (Keyed.ofList mine : Keyed LedgerCall.coordinates).toList =
        early ++ (lastCalls mine).toList ∧ (lastCalls mine).toList ≠ [] ∧
        (∀ c ∈ early, c.asOf < last.asOf) ∧
        ∀ c ∈ (lastCalls mine).toList, c.asOf = last.asOf := by
  have hle : ∀ c ∈ mine, c.asOf ≤ last.asOf := by
    obtain ⟨rest, rfl⟩ := List.getLast?_eq_some_iff.mp hlast
    intro c hc
    rcases List.mem_append.mp hc with hc | hc
    · exact (List.pairwise_append.mp hsorted).2.2 c hc last List.mem_cons_self
    · rw [List.mem_singleton.mp hc]
  have hsplit := eq_append_of_pairwise hsorted hle
  have hcalls : lastCalls mine = .ofList (mine.filter (fun c ↦ last.asOf = c.asOf)) := by
    rw [lastCalls, hlast]
    rfl
  refine ⟨(Keyed.ofList (mine.filter (fun c ↦ c.asOf < last.asOf)) :
    Keyed LedgerCall.coordinates).toList, ?_, ?_, ?_, ?_⟩
  · rw [hcalls, ← Keyed.toList_ofList_append, ← hsplit]
    intro a ha hb
    obtain ⟨b, hb, he⟩ := List.mem_map.mp hb
    have hlt := of_decide_eq_true (List.mem_filter.mp hb).2
    have heq := of_decide_eq_true (List.mem_filter.mp ha).2
    rw [show b.asOf = a.asOf from congrArg Prod.fst he, ← heq] at hlt
    exact lt_irrefl _ hlt
  · have hkey : last.coordinates ∈ (lastCalls mine).keys := by
      rw [hcalls]
      refine Keyed.mem_keys_insertAll.mpr (.inr (List.mem_map_of_mem (List.mem_filter.mpr ⟨?_, ?_⟩)))
      · exact List.mem_of_getLast? hlast
      · exact decide_eq_true rfl
    obtain ⟨c, hc, -⟩ := Keyed.mem_keys.mp hkey
    exact List.ne_nil_of_mem hc
  · intro c hc
    exact of_decide_eq_true (List.mem_filter.mp (Keyed.mem_of_mem_ofList hc)).2
  · intro c hc
    rw [hcalls] at hc
    exact (of_decide_eq_true (List.mem_filter.mp (Keyed.mem_of_mem_ofList hc)).2).symm

theorem champion_first (hsorted : mine.Pairwise (fun a b ↦ a.asOf ≤ b.asOf)) :
    champion (fun prev c : LedgerCall π ↦ prev.asOf < c.asOf)
      (Keyed.ofList mine : Keyed LedgerCall.coordinates).toList =
        (lastCalls mine).toList.head? := by
  cases hlast : mine.getLast? with
  | none =>
    rw [List.getLast?_eq_none_iff.mp hlast]
    rfl
  | some last =>
    obtain ⟨early, he, hne, hearly, htied⟩ := exists_early hsorted hlast
    rw [he]
    cases hl : (lastCalls mine).toList with
    | nil => exact absurd hl hne
    | cons c tied =>
      rw [hl, List.forall_mem_cons] at htied
      refine firstMax_eq_some_iff.mpr ⟨early, tied, rfl, fun b hb ↦ ?_, fun b hb ↦ ?_⟩
      · exact htied.1 ▸ hearly b hb
      · exact ((htied.2 b hb).trans htied.1.symm).le

theorem champion_newest (hsorted : mine.Pairwise (fun a b ↦ a.asOf ≤ b.asOf)) :
    champion (fun prev c : LedgerCall π ↦ prev.asOf ≤ c.asOf)
      (Keyed.ofList mine : Keyed LedgerCall.coordinates).toList =
        (lastCalls mine).toList.getLast? := by
  cases hlast : mine.getLast? with
  | none =>
    rw [List.getLast?_eq_none_iff.mp hlast]
    rfl
  | some last =>
    obtain ⟨early, he, hne, hearly, htied⟩ := exists_early hsorted hlast
    obtain ⟨tied, c, hl⟩ : ∃ tied c, (lastCalls mine).toList = tied ++ [c] :=
      ⟨_, _, (List.dropLast_append_getLast hne).symm⟩
    rw [hl] at htied
    rw [he, hl, ← List.append_assoc, List.getLast?_concat]
    refine champion_last fun b hb ↦ decide_eq_true ?_
    rw [htied c (by simp)]
    rcases List.mem_append.mp hb with hb | hb
    · exact (hearly b hb).le
    · exact (htied b (List.mem_append_left _ hb)).le

end Deciding

section Written

variable {D : Digests} {dataset symbol : String} {k : Datetime} {s : InMemoryBitemporalStore}
  {calls : List (LedgerCall π)}

section Journal

variable (hD : Function.Injective D.uuid5) (hd : '|' ∉ dataset.toList)
  (h : Ledger D dataset (IsSleeveRow D dataset) s)

include hD hd h in
theorem coordinates_of_id_eq {o : Observation} {ref : String} {t : Datetime}
    {value : Dict String Value} (ho : o ∈ s.toList) (hr : '|' ∉ ref.toList)
    (hid : o.observationId = (sleeveRow D dataset symbol ref t value).observationId) :
    ∃ value', o = sleeveRow D dataset symbol ref t value' := by
  have hod := dataset_eq_of_id_eq hD (h.identified o ho) (hasIdentity_sleeveRow hd) hid
  obtain ⟨symbol₁, ref₁, t₁, value₁, hr₁, rfl⟩ := h.rows o ho hod
  obtain ⟨rfl, rfl, rfl⟩ := sleeveRow_coordinates hD hd hr₁ hr hid
  exact ⟨value₁, rfl⟩

include hD hd h in
theorem journal_insert_self {ref : String} {t : Datetime} {value : Dict String Value}
    (hr : '|' ∉ ref.toList) (hk : t ≤ k) :
    journal (s.insert (sleeveRow D dataset symbol ref t value)) dataset symbol k =
      upsert Observation.observationId (sleeveRow D dataset symbol ref t value)
        (journal s dataset symbol k) := by
  have hj : ∀ l : InMemoryBitemporalStore, journal l dataset symbol k = l.toList.filter
      (fun o ↦ o.knowledgeTime ≤ k ∧ o.dataset = dataset ∧ o.entityId = symbol) := by
    intro l
    simp [journal, visible, List.filter_filter, Bool.and_comm]
  have hin : decide (t ≤ k ∧ dataset = dataset ∧ symbol = symbol) = true :=
    decide_eq_true ⟨hk, rfl, rfl⟩
  rw [hj, hj, Keyed.toList_insert, filter_upsert_of_key]
  · exact if_pos hin
  · intro o ho hid
    obtain ⟨value', rfl⟩ := coordinates_of_id_eq hD hd h ho hr hid
    rfl

include hD hd h in
theorem journal_insert_symbol {symbol' ref : String} {t : Datetime} {value : Dict String Value}
    (hr : '|' ∉ ref.toList) (hne : symbol' ≠ symbol) :
    journal (s.insert (sleeveRow D dataset symbol' ref t value)) dataset symbol k =
      journal s dataset symbol k := by
  refine journal_insert_other (fun he ↦ hne he.2) fun o ho hid he ↦ ?_
  obtain ⟨value', rfl⟩ := coordinates_of_id_eq hD hd h ho hr hid
  exact hne he.2

end Journal

theorem ledger_calls (hd : '|' ∉ dataset.toList) (hs : Identified D s)
    (hnone : ∀ o ∈ s.toList, o.dataset ≠ dataset) (hr : ∀ c ∈ calls, '|' ∉ c.ref.toList) :
    Ledger D dataset (IsSleeveRow D dataset)
      (s.insertAll (calls.map (LedgerCall.row D dataset))) := by
  refine Ledger.insertAll ⟨hs, fun o ho he ↦ absurd he (hnone o ho)⟩ fun r hm ↦ ?_
  obtain ⟨c, hc, rfl⟩ := List.mem_map.mp hm
  exact ⟨hasIdentity_sleeveRow hd, fun _ ↦ ⟨_, _, _, _, hr c hc, rfl⟩⟩

/-- The journal of a symbol has a row for each time and ref that its calls used, in the order in
which they were first used. -/
theorem journal_calls (hD : Function.Injective D.uuid5) (hd : '|' ∉ dataset.toList)
    (hs : Identified D s) (hnone : ∀ o ∈ s.toList, o.dataset ≠ dataset)
    (hr : ∀ c ∈ calls, '|' ∉ c.ref.toList) (hk : ∀ c ∈ calls, c.asOf ≤ k) :
    journal (s.insertAll (calls.map (LedgerCall.row D dataset))) dataset symbol k =
      (Keyed.ofList (callsOf calls symbol) :
        Keyed LedgerCall.coordinates).toList.map (LedgerCall.row D dataset) := by
  induction calls using List.reverseRecOn with
  | nil =>
    rw [journal, List.filter_eq_nil_iff.mpr]
    · rfl
    · intro o ho hm
      exact hnone o (mem_visible.mp ho).1 (of_decide_eq_true hm).1
  | append_singleton calls c ih =>
    have hr' : ∀ c ∈ calls, '|' ∉ c.ref.toList := fun c hc ↦ hr c (List.mem_append_left _ hc)
    have hrc := hr c (List.mem_append_right _ List.mem_cons_self)
    have hkc := hk c (List.mem_append_right _ List.mem_cons_self)
    have hl := ledger_calls hd hs hnone hr'
    have ih := ih hr' fun c hc ↦ hk c (List.mem_append_left _ hc)
    rw [List.map_append, Keyed.insertAll_append, callsOf, List.filter_append]
    change journal (Keyed.insert _ (sleeveRow D dataset c.symbol c.ref c.asOf c.value)) _ _ _ = _
    by_cases hc : c.symbol = symbol
    · subst hc
      rw [List.filter_cons_of_pos (by simp), List.filter_nil, Keyed.ofList_append_singleton,
        Keyed.toList_insert, journal_insert_self hD hd hl hrc hkc, ih]
      refine upsert_map_of_key (f := LedgerCall.row D dataset) fun b hb ↦ ?_
      obtain ⟨hbm, hbs⟩ := List.mem_filter.mp (Keyed.mem_of_mem_ofList hb)
      constructor
      · intro hid
        obtain ⟨-, ht, href⟩ := sleeveRow_coordinates hD hd (hr' b hbm) hrc hid
        exact Prod.ext ht href
      · intro hco
        obtain ⟨ht, href⟩ := Prod.mk.inj hco
        rw [LedgerCall.row, LedgerCall.row, of_decide_eq_true hbs, ht, href]
        rfl
    · rw [List.filter_cons_of_neg (by simpa using hc), List.filter_nil, List.append_nil,
        journal_insert_symbol hD hd hl hrc hc, ih]
      rfl

theorem standing_calls (hD : Function.Injective D.uuid5) (hd : '|' ∉ dataset.toList)
    (hs : Identified D s) (hnone : ∀ o ∈ s.toList, o.dataset ≠ dataset)
    (hr : ∀ c ∈ calls, '|' ∉ c.ref.toList) (hk : ∀ c ∈ calls, c.asOf ≤ k)
    (hsorted : calls.Pairwise (fun a b ↦ a.asOf ≤ b.asOf))
    (better : Observation → Observation → Bool) :
    standing better (s.insertAll (calls.map (LedgerCall.row D dataset))) dataset symbol k =
      champion better ((Keyed.ofList (callsOf calls symbol) :
        Keyed LedgerCall.coordinates).toList.map (LedgerCall.row D dataset)) := by
  have hsym : ∀ c ∈ (Keyed.ofList (callsOf calls symbol) :
      Keyed LedgerCall.coordinates).toList, c.symbol = symbol := by
    intro c hc
    exact of_decide_eq_true (List.mem_filter.mp (Keyed.mem_of_mem_ofList hc)).2
  have hrows : journal (s.insertAll (calls.map (LedgerCall.row D dataset))) dataset symbol k =
      (Keyed.ofList (callsOf calls symbol) :
        Keyed LedgerCall.coordinates).toList.map (LedgerCall.row D dataset) :=
    journal_calls hD hd hs hnone hr hk
  have htimes : (Keyed.ofList (callsOf calls symbol) :
      Keyed LedgerCall.coordinates).toList.Pairwise (fun a b ↦ a.asOf ≤ b.asOf) :=
    Keyed.pairwise_ofList LedgerCall.asOf (fun a b he ↦ congrArg Prod.fst he)
      (callsOf_pairwise hsorted symbol)
  generalize hL : (Keyed.ofList (callsOf calls symbol) : Keyed LedgerCall.coordinates) = L at *
  have hkeys : ((L.toList.map (LedgerCall.row D dataset)).map Observation.logicalKey).Nodup := by
    have hinj := L.nodup.map (f := fun c : Datetime × String ↦
      (("sleeve", dataset, symbol, c.1, some c.2) : LogicalKey)) fun a b he ↦ by
        simp only [Prod.mk.injEq, Option.some.injEq, true_and] at he
        exact Prod.ext he.1 he.2
    rw [List.map_map] at hinj ⊢
    refine (List.map_congr_left fun c hc ↦ ?_) ▸ hinj
    rw [Function.comp_apply, ← hsym c hc]
    rfl
  have hsort : (L.toList.map (LedgerCall.row D dataset)).Pairwise
      (fun a b ↦ sortKey a ≤ sortKey b) := by
    rw [List.pairwise_map]
    refine htimes.imp_of_mem fun {a b} ha hb hle ↦ ?_
    rcases lt_or_eq_of_le hle with hlt | he
    · exact (Prod.Lex.toLex_lt_toLex.mpr (.inl hlt)).le
    · have hkey : ∀ c : LedgerCall π, sortKey (c.row D dataset) = toLex (c.asOf, toLex (c.asOf,
          toLex ("sleeve", toLex (dataset, toLex (c.symbol, 0))))) := fun _ ↦ rfl
      rw [hkey, hkey, he, hsym a ha, hsym b hb]
  rw [standing, hrows, collapseLatestRevisions, toList_champions_of_nodup hkeys, sortObservations,
    sortBy_of_pairwise hsort]

/-- The row of a call is read as the position that the call leaves its symbol in. -/
def LedgerCall.ReadBy (read : Observation → Except TradingError π) (D : Digests) (dataset : String)
    (c : LedgerCall π) : Prop :=
  match c.position with
  | some pos => isOpen (c.row D dataset) ∧ read (c.row D dataset) = .ok pos
  | none => ¬isOpen (c.row D dataset)

/-- What is read is the position that the call that counts left its symbol in. -/
theorem active_calls {better : Observation → Observation → Bool}
    {read : Observation → Except TradingError π} (hD : Function.Injective D.uuid5)
    (hd : '|' ∉ dataset.toList)
    (hs : Identified D s) (hnone : ∀ o ∈ s.toList, o.dataset ≠ dataset)
    (hr : ∀ c ∈ calls, '|' ∉ c.ref.toList) (hk : ∀ c ∈ calls, c.asOf ≤ k)
    (hsorted : calls.Pairwise (fun a b ↦ a.asOf ≤ b.asOf))
    (hread : ∀ c ∈ calls, c.ReadBy read D dataset)
    {pick : List (LedgerCall π) → Option (LedgerCall π)}
    (hpick : ∀ mine : List (LedgerCall π), mine.Pairwise (fun a b ↦ a.asOf ≤ b.asOf) →
      champion (fun a b ↦ better (a.row D dataset) (b.row D dataset))
        (Keyed.ofList mine : Keyed LedgerCall.coordinates).toList = pick (lastCalls mine).toList)
    (hmem : ∀ l, ∀ c ∈ pick l, c ∈ l) :
    ∃ active, activePositions better read dataset
        (s.insertAll (calls.map (LedgerCall.row D dataset))) k = .ok active ∧
      ∀ symbol, Dict.get? active symbol =
        (pick (lastCalls (callsOf calls symbol)).toList).bind LedgerCall.position := by
  have hstanding : ∀ symbol, standing better
      (s.insertAll (calls.map (LedgerCall.row D dataset))) dataset symbol k =
        (pick (lastCalls (callsOf calls symbol)).toList).map (LedgerCall.row D dataset) := by
    intro symbol
    rw [standing_calls hD hd hs hnone hr hk hsorted, ← hpick _ (callsOf_pairwise hsorted symbol)]
    exact champion_map (fun _ _ ↦ rfl) _
  have hcalls : ∀ symbol, ∀ c ∈ pick (lastCalls (callsOf calls symbol)).toList, c ∈ calls := by
    intro symbol c hc
    exact List.mem_of_mem_filter (List.mem_of_mem_filter (Keyed.mem_of_mem_ofList (hmem _ c hc)))
  obtain ⟨active, ha⟩ : ∃ active, activePositions better read dataset
      (s.insertAll (calls.map (LedgerCall.row D dataset))) k = .ok active := by
    refine activePositions_total fun symbol o ho hopen ↦ ?_
    rw [hstanding] at ho
    obtain ⟨c, hc, rfl⟩ := Option.map_eq_some_iff.mp ho
    have hrc := hread c (hcalls symbol c hc)
    unfold LedgerCall.ReadBy at hrc
    split at hrc
    · exact ⟨_, hrc.2⟩
    · exact absurd hopen hrc
  refine ⟨active, ha, fun symbol ↦ Option.ext fun pos ↦ ?_⟩
  rw [get?_activePositions ha, hstanding]
  cases hc : pick (lastCalls (callsOf calls symbol)).toList with
  | none => simp
  | some c =>
    have hrc := hread c (hcalls symbol c hc)
    unfold LedgerCall.ReadBy at hrc
    simp only [Option.map_some, Option.some.injEq, exists_eq_left', Option.bind_some]
    split at hrc
    · next pos' hp =>
      rw [hp, hrc.2]
      simp [hrc.1]
    · next hp =>
      rw [hp]
      simp [hrc]

/-- The active positions read at any time from the last call on are those of the replay. -/
def ReadsBack (active : Datetime → Except TradingError (Dict String π))
    (calls : List (LedgerCall π)) : Prop :=
  ∀ k, (∀ c ∈ calls, c.asOf ≤ k) → ∃ positions, active k = .ok positions ∧
    ∀ symbol, Dict.get? positions symbol = Dict.get? (replay calls) symbol

theorem exists_after (calls : List (LedgerCall π)) : ∃ k, ∀ c ∈ calls, c.asOf ≤ k := by
  induction calls with
  | nil => exact ⟨0, by simp⟩
  | cons c calls ih =>
    obtain ⟨k, hk⟩ := ih
    refine ⟨max c.asOf k, List.forall_mem_cons.mpr ⟨le_max_left _ _, fun b hb ↦ ?_⟩⟩
    exact (hk b hb).trans (le_max_right _ _)

theorem readsBack_iff {active : Datetime → Except TradingError (Dict String π)}
    {pick : List (LedgerCall π) → Option (LedgerCall π)} (hempty : pick [] = none)
    (h : ∀ k, (∀ c ∈ calls, c.asOf ≤ k) → ∃ positions, active k = .ok positions ∧
      ∀ symbol, Dict.get? positions symbol =
        (pick (lastCalls (callsOf calls symbol)).toList).bind LedgerCall.position) :
    ReadsBack active calls ↔ ∀ c ∈ calls,
      (pick (lastCalls (callsOf calls c.symbol)).toList).bind LedgerCall.position =
        (callsOf calls c.symbol).getLast?.bind LedgerCall.position := by
  constructor
  · intro hb c _
    obtain ⟨k, hk⟩ := exists_after calls
    obtain ⟨positions, ha, hp⟩ := h k hk
    obtain ⟨positions', ha', hp'⟩ := hb k hk
    rw [ha, Except.ok.injEq] at ha'
    subst ha'
    rw [← hp, hp', get?_replay]
  · intro hc k hk
    obtain ⟨positions, ha, hp⟩ := h k hk
    refine ⟨positions, ha, fun symbol ↦ ?_⟩
    rw [hp, get?_replay]
    cases hl : callsOf calls symbol with
    | nil =>
      rw [show lastCalls ([] : List (LedgerCall π)) = .empty from rfl, Keyed.toList_empty, hempty]
      rfl
    | cons c rest =>
      have hm : c ∈ callsOf calls symbol := hl ▸ List.mem_cons_self
      obtain ⟨hm, hs⟩ := List.mem_filter.mp hm
      rw [← hl, ← of_decide_eq_true hs]
      exact hc c hm

end Written

namespace NewsSleeve

inductive Call
  | recordOpen (symbol : String) (asOf : Datetime) (entryPrice : ℚ) (exitBy : Datetime)
    (storyHash : String)
  | recordClose (symbol : String) (asOf : Datetime) (storyHash reason : String)

namespace Call

def run (D : Digests) (store : InMemoryBitemporalStore) : Call → InMemoryBitemporalStore
  | .recordOpen symbol asOf entryPrice exitBy storyHash =>
    NewsSleeve.recordOpen D store symbol asOf entryPrice exitBy storyHash
  | .recordClose symbol asOf storyHash reason =>
    NewsSleeve.recordClose D store symbol asOf storyHash reason

def ledgerCall : Call → LedgerCall SleevePosition
  | .recordOpen symbol asOf entryPrice exitBy storyHash =>
    { symbol := symbol
      asOf := asOf
      ref := storyHash
      value := .ofList [("status", .str "open"), ("entry_price", .num entryPrice),
        ("exit_by", .time exitBy), ("story_hash", .str storyHash)]
      position := some ⟨symbol, entryPrice, exitBy, storyHash⟩ }
  | .recordClose symbol asOf storyHash reason =>
    { symbol := symbol
      asOf := asOf
      ref := storyHash ++ ":close:" ++ reason
      value := .ofList [("status", .str "closed"), ("story_hash", .str storyHash),
        ("reason", .str reason)]
      position := none }

theorem run_eq (D : Digests) (store : InMemoryBitemporalStore) (c : Call) :
    c.run D store = store.insert (c.ledgerCall.row D sleeveDataset) := by
  cases c <;> rfl

theorem readBy (D : Digests) (c : Call) : c.ledgerCall.ReadBy readPosition D sleeveDataset := by
  cases c with
  | recordOpen symbol asOf entryPrice exitBy storyHash =>
    exact ⟨isOpen_openRow symbol asOf entryPrice exitBy storyHash,
      readPosition_openRow symbol asOf entryPrice exitBy storyHash⟩
  | recordClose symbol asOf storyHash reason =>
    exact not_isOpen_closeRow symbol asOf storyHash reason

end Call

end NewsSleeve

namespace InsiderSleeve

inductive Call
  | recordOpen (symbol : String) (asOf : Datetime) (entryPrice : ℚ) (exitBy : Datetime) (nBuys : ℤ)
  | recordClose (symbol : String) (asOf : Datetime) (reason : String)

namespace Call

def run (D : Digests) (store : InMemoryBitemporalStore) : Call → InMemoryBitemporalStore
  | .recordOpen symbol asOf entryPrice exitBy nBuys =>
    InsiderSleeve.recordOpen D store symbol asOf entryPrice exitBy nBuys
  | .recordClose symbol asOf reason => InsiderSleeve.recordClose D store symbol asOf reason

def ledgerCall : Call → LedgerCall InsiderSleevePosition
  | .recordOpen symbol asOf entryPrice exitBy nBuys =>
    { symbol := symbol
      asOf := asOf
      ref := "open:" ++ asOf.date.isoformat
      value := .ofList [("status", .str "open"), ("entry_price", .num entryPrice),
        ("exit_by", .time exitBy), ("n_buys", .num nBuys)]
      position := some ⟨symbol, entryPrice, exitBy, nBuys⟩ }
  | .recordClose symbol asOf reason =>
    { symbol := symbol
      asOf := asOf
      ref := "close:" ++ reason ++ ":" ++ asOf.date.isoformat
      value := .ofList [("status", .str "closed"), ("reason", .str reason)]
      position := none }

theorem run_eq (D : Digests) (store : InMemoryBitemporalStore) (c : Call) :
    c.run D store = store.insert (c.ledgerCall.row D sleeveDataset) := by
  cases c <;> rfl

theorem readBy (D : Digests) (c : Call) : c.ledgerCall.ReadBy readPosition D sleeveDataset := by
  cases c with
  | recordOpen symbol asOf entryPrice exitBy nBuys =>
    refine ⟨isOpen_openRow symbol asOf entryPrice exitBy nBuys, ?_⟩
    have hread := readPosition_openRow (D := D) symbol asOf entryPrice exitBy (nBuys : ℚ)
    have hn : ((truncate (nBuys : ℚ) : ℤ) : ℚ) = nBuys := by simp [truncate]
    rw [hn] at hread
    exact hread
  | recordClose symbol asOf reason => exact not_isOpen_closeRow symbol asOf reason

end Call

end InsiderSleeve

theorem foldl_run {γ : Type} {D : Digests} {dataset : String}
    {run : InMemoryBitemporalStore → γ → InMemoryBitemporalStore} {ledgerCall : γ → LedgerCall π}
    (h : ∀ s c, run s c = s.insert ((ledgerCall c).row D dataset)) (calls : List γ)
    (s : InMemoryBitemporalStore) :
    calls.foldl run s = s.insertAll ((calls.map ledgerCall).map (LedgerCall.row D dataset)) := by
  induction calls generalizing s with
  | nil => rfl
  | cons c calls ih =>
    rw [List.foldl_cons, h, ih]
    rfl

/-- Of the calls at the last time, the ledger of the news sleeve is read by the first one and that
of the insider sleeve by the newest one, each as it was written last. -/
theorem ledgers_read_back_iff (D : Digests) (hD : Function.Injective D.uuid5)
    (s : InMemoryBitemporalStore) (hs : Identified D s)
    (hnone : ∀ o ∈ s.toList,
      o.dataset ≠ NewsSleeve.sleeveDataset ∧ o.dataset ≠ InsiderSleeve.sleeveDataset) :
    (∀ written : List NewsSleeve.Call, let calls := written.map NewsSleeve.Call.ledgerCall
      calls.Pairwise (fun a b ↦ a.asOf ≤ b.asOf) → (∀ c ∈ calls, '|' ∉ c.ref.toList) →
      (ReadsBack (NewsSleeve.activeSleevePositions (written.foldl (NewsSleeve.Call.run D) s))
        calls ↔ ∀ c ∈ calls,
          (lastCalls (callsOf calls c.symbol)).toList.head?.bind LedgerCall.position =
            (callsOf calls c.symbol).getLast?.bind LedgerCall.position)) ∧
    ∀ written : List InsiderSleeve.Call, let calls := written.map InsiderSleeve.Call.ledgerCall
      calls.Pairwise (fun a b ↦ a.asOf ≤ b.asOf) → (∀ c ∈ calls, '|' ∉ c.ref.toList) →
      (ReadsBack (InsiderSleeve.activeInsiderPositions (written.foldl (InsiderSleeve.Call.run D) s))
        calls ↔ ∀ c ∈ calls,
          (lastCalls (callsOf calls c.symbol)).toList.getLast?.bind LedgerCall.position =
            (callsOf calls c.symbol).getLast?.bind LedgerCall.position) := by
  constructor
  · intro written calls hsorted hr
    refine readsBack_iff rfl fun k hk ↦ ?_
    rw [foldl_run (NewsSleeve.Call.run_eq D), NewsSleeve.activeSleevePositions]
    refine active_calls hD NewsSleeve.bar_not_mem_sleeveDataset hs (fun o ho ↦ (hnone o ho).1) hr
      hk hsorted ?_ (fun mine hm ↦ champion_first hm) fun l c hc ↦ List.mem_of_mem_head? hc
    intro c hc
    obtain ⟨w, -, rfl⟩ := List.mem_map.mp hc
    exact w.readBy D
  · intro written calls hsorted hr
    refine readsBack_iff rfl fun k hk ↦ ?_
    rw [foldl_run (InsiderSleeve.Call.run_eq D), InsiderSleeve.activeInsiderPositions]
    refine active_calls hD InsiderSleeve.bar_not_mem_sleeveDataset hs
      (fun o ho ↦ (hnone o ho).2) hr hk hsorted ?_ (fun mine hm ↦ champion_newest hm)
      fun l c hc ↦ List.mem_of_getLast? hc
    intro c hc
    obtain ⟨w, -, rfl⟩ := List.mem_map.mp hc
    exact w.readBy D

theorem not_readsBack {active : Datetime → Except TradingError (Dict String π)}
    {calls : List (LedgerCall π)} (symbol : String) (k : Datetime) (hk : ∀ c ∈ calls, c.asOf ≤ k)
    (h : (active k).toOption.map (fun d ↦ (Dict.get? d symbol).isSome) ≠
      some (Dict.get? (replay calls) symbol).isSome) : ¬ReadsBack active calls := by
  intro hb
  obtain ⟨positions, ha, hp⟩ := hb k hk
  rw [ha, ← hp] at h
  exact h rfl

/-- The news sleeve closes a name and opens another, the insider sleeve opens the same name again. -/
theorem ledgers_read_back_reopened :
    let news : List NewsSleeve.Call := [.recordOpen "A" 0 10 5 "h", .recordClose "A" 5 "h" "horizon",
      .recordOpen "B" 5 20 9 "g"]
    let insider : List InsiderSleeve.Call := [.recordOpen "A" 0 10 5 3,
      .recordClose "A" 5 "horizon", .recordOpen "A" 5 11 9 4]
    ReadsBack (NewsSleeve.activeSleevePositions
        (news.foldl (NewsSleeve.Call.run Digests.plain) .empty))
      (news.map NewsSleeve.Call.ledgerCall) ∧
    ReadsBack (InsiderSleeve.activeInsiderPositions
        (insider.foldl (InsiderSleeve.Call.run Digests.plain) .empty))
      (insider.map InsiderSleeve.Call.ledgerCall) := by
  intro news insider
  have h := ledgers_read_back_iff Digests.plain Digests.plain_uuid5_injective .empty
    (by simp [Identified]) (by simp)
  refine ⟨(h.1 news (by decide) (by decide)).mpr ?_, (h.2 insider (by decide) (by decide)).mpr ?_⟩
  · rintro c (_ | ⟨_, _ | ⟨_, _ | ⟨_, ⟨⟩⟩⟩⟩) <;> rfl
  · rintro c (_ | ⟨_, _ | ⟨_, _ | ⟨_, ⟨⟩⟩⟩⟩) <;> rfl

/-- The news sleeve opens again a name that it has just closed, and the insider sleeve one that it
has just opened and closed. -/
theorem reopened_not_read_back :
    let news : List NewsSleeve.Call := [.recordOpen "A" 0 10 5 "h", .recordClose "A" 5 "h" "horizon",
      .recordOpen "A" 5 11 9 "g"]
    let insider : List InsiderSleeve.Call := [.recordOpen "A" 5 10 9 3, .recordClose "A" 5 "stop",
      .recordOpen "A" 5 10 9 3]
    ¬ReadsBack (NewsSleeve.activeSleevePositions
        (news.foldl (NewsSleeve.Call.run Digests.plain) .empty))
      (news.map NewsSleeve.Call.ledgerCall) ∧
    ¬ReadsBack (InsiderSleeve.activeInsiderPositions
        (insider.foldl (InsiderSleeve.Call.run Digests.plain) .empty))
      (insider.map InsiderSleeve.Call.ledgerCall) := by
  refine ⟨not_readsBack "A" 5 (by decide) ?_, not_readsBack "A" 5 (by decide) ?_⟩
  · decide +kernel
  · decide +kernel

end MarketTrader.Runtime

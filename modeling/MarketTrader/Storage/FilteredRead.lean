import MarketTrader.Storage.SqlAlchemyStore

namespace MarketTrader.Storage

open Library MarketTrader.Core

variable {rows : List Observation} {p : Observation → Bool}

variable (rows) in
/-- A filtered read is the filtered table of latest versions exactly when the latest version of
every fact with a row that passes does pass too. -/
theorem finishRead_filter_perm_iff : (finishRead true (rows.filter p)).Perm
    ((finishRead true rows).filter p) ↔
      ∀ o ∈ rows, p o → ∀ w, firstMax recency (rows.filter (·.logicalKey = o.logicalKey)) = some w →
        p w := by
  have hcomm : ∀ key, (rows.filter p).filter (·.logicalKey = key) =
      (rows.filter (·.logicalKey = key)).filter p := fun key ↦ by
    rw [List.filter_filter, List.filter_filter]
    exact List.filter_congr fun o _ ↦ Bool.and_comm _ _
  constructor
  · intro h o ho hpo w hw
    obtain ⟨u, hu, hk⟩ := exists_mem_finishRead (List.mem_filter.mpr ⟨ho, hpo⟩)
    obtain ⟨hu', hpu⟩ := List.mem_filter.mp (h.mem_iff.mp hu)
    rw [mem_finishRead_latest, hk, hw, Option.some_inj] at hu'
    exact hu' ▸ hpu
  · intro h
    -- what passes and is latest among the rows is latest among those that pass
    have hkeep : ∀ w ∈ finishRead true rows, p w → w ∈ finishRead true (rows.filter p) := by
      intro w hw hpw
      rw [mem_finishRead_latest] at hw ⊢
      rw [hcomm]
      exact firstMax_filter hw hpw
    have hn := finishRead_keys_nodup (rows.filter p)
    refine (List.perm_ext_iff_of_nodup hn.of_map
      ((finishRead_keys_nodup rows).of_map.filter p)).mpr fun o ↦ ⟨fun ho ↦ ?_, fun ho ↦ ?_⟩
    · obtain ⟨hr, hpo⟩ := List.mem_filter.mp (finishRead_subset ho)
      obtain ⟨w, hw, hk⟩ := exists_mem_finishRead hr
      have hpw : p w := by
        apply h o hr hpo
        rw [← hk]
        exact mem_finishRead_latest.mp hw
      obtain rfl := List.inj_on_of_nodup_map hn (hkeep w hw hpw) ho hk
      exact List.mem_filter.mpr ⟨hw, hpw⟩
    · obtain ⟨ho, hpo⟩ := List.mem_filter.mp ho
      exact hkeep o ho hpo

theorem mem_finishRead_cons {o : Observation} (h : ∀ o' ∈ rows, o'.logicalKey = o.logicalKey →
    recency o' ≤ recency o) : o ∈ finishRead true (o :: rows) := by
  rw [mem_finishRead_latest, List.filter_cons_of_pos (by simp), firstMax_eq_some_iff]
  refine ⟨[], _, rfl, by simp, ?_⟩
  intro b hb
  obtain ⟨hb, hk⟩ := List.mem_filter.mp hb
  exact h b hb (of_decide_eq_true hk)

variable (rows) in
/-- When the order of the rows is the database's, no other version may tie with the latest one. -/
theorem finishRead_filter_perm_any_iff : (∀ rows₁ rows₂, rows₁.Perm (rows.filter p) →
    rows₂.Perm rows → (finishRead true rows₁).Perm ((finishRead true rows₂).filter p)) ↔
      ∀ o ∈ rows, p o → ∃ w ∈ rows, w.logicalKey = o.logicalKey ∧ p w ∧
        ∀ o' ∈ rows, o'.logicalKey = o.logicalKey → o' ≠ w → recency o' < recency w := by
  constructor
  · intro h o ho hpo
    obtain ⟨w, hw, hk⟩ := exists_mem_finishRead (List.mem_filter.mpr ⟨ho, hpo⟩)
    have hw' := (h _ rows (.refl _) (.refl _)).mem_iff.mp hw
    obtain ⟨hread, hpw⟩ := List.mem_filter.mp hw'
    refine ⟨w, finishRead_subset hread, hk, hpw, fun o' ho' hk' hne ↦ ?_⟩
    have hle := recency_le_of_mem_finishRead hread ho' (hk'.trans hk.symm)
    refine lt_of_le_of_ne hle fun he ↦ hne ?_
    -- had the tie come first, it would have been read in the place of `w`
    have hperm : (o' :: rows.erase o').Perm rows := (List.perm_cons_erase ho').symm
    have hw'' := (h _ _ (.refl _) hperm).mem_iff.mp hw
    have hfirst : o' ∈ finishRead true (o' :: rows.erase o') := by
      apply mem_finishRead_cons
      intro b hb hbk
      rw [he]
      exact recency_le_of_mem_finishRead hread (List.mem_of_mem_erase hb)
        (hbk.trans (hk'.trans hk.symm))
    exact List.inj_on_of_nodup_map (finishRead_keys_nodup _) hfirst (List.mem_filter.mp hw'').1
      (hk'.trans hk.symm)
  · intro h rows₁ rows₂ h₁ h₂
    refine (List.perm_ext_iff_of_nodup (finishRead_keys_nodup rows₁).of_map
      ((finishRead_keys_nodup rows₂).of_map.filter p)).mpr fun o ↦ ?_
    have hread : ∀ rows', rows' ⊆ rows → ∀ w ∈ rows', (∀ o' ∈ rows, o'.logicalKey = w.logicalKey →
        o' ≠ w → recency o' < recency w) → w ∈ finishRead true rows' := by
      intro rows' hsub w hw hlt
      apply mem_finishRead_of_lt hw
      intro o' ho'
      exact hlt o' (hsub ho')
    have hsub₁ : rows₁ ⊆ rows := fun o ho ↦ (List.mem_filter.mp (h₁.mem_iff.mp ho)).1
    constructor
    · intro ho
      obtain ⟨hr, hpo⟩ := List.mem_filter.mp (h₁.mem_iff.mp (finishRead_subset ho))
      obtain ⟨w, hw, hk, hpw, hlt⟩ := h o hr hpo
      rw [← hk] at hlt
      have hw₁ := hread rows₁ hsub₁ w (h₁.mem_iff.mpr (List.mem_filter.mpr ⟨hw, hpw⟩)) hlt
      obtain rfl := List.inj_on_of_nodup_map (finishRead_keys_nodup rows₁) hw₁ ho hk
      exact List.mem_filter.mpr ⟨hread rows₂ h₂.subset w (h₂.mem_iff.mpr hw) hlt, hpw⟩
    · intro ho
      obtain ⟨ho, hpo⟩ := List.mem_filter.mp ho
      obtain ⟨w, hw, hk, hpw, hlt⟩ := h o (h₂.mem_iff.mp (finishRead_subset ho)) hpo
      rw [← hk] at hlt
      have hw₂ := hread rows₂ h₂.subset w (h₂.mem_iff.mpr hw) hlt
      obtain rfl := List.inj_on_of_nodup_map (finishRead_keys_nodup rows₂) hw₂ ho hk
      exact hread rows₁ hsub₁ w (h₁.mem_iff.mpr (List.mem_filter.mpr ⟨hw, hpw⟩)) hlt

/-- All filters but the entity type go by the logical key. -/
theorem matches_congr {q : Query} (h : q.entityType = none) {o o' : Observation}
    (hk : o.logicalKey = o'.logicalKey) : q.Matches o ↔ q.Matches o' := by
  simp only [Observation.logicalKey, Prod.mk.injEq] at hk
  simp [Query.Matches, h, hk]

theorem select_all (s : SqlAlchemyBitemporalStore) (k : Datetime) :
    s.select k {} = s.table.toList.filter (·.knowledgeTime ≤ k) := by
  refine List.filter_congr fun o _ ↦ ?_
  simp [SqlQuery.Matches, Query.Matches]

/-- No version of a fact that was knowable supersedes what is read. -/
def NotSuperseded (stored read : List Observation) (k : Datetime) : Prop :=
  ∀ o ∈ read, ∀ o' ∈ stored, o'.knowledgeTime ≤ k → o'.logicalKey = o.logicalKey →
    recency o' ≤ recency o

variable (rows) in
theorem notSuperseded_of_subset {stored read : List Observation} {k : Datetime}
    (h : ∀ o ∈ read, o ∈ finishRead true rows) (hr : ∀ o ∈ stored, o.knowledgeTime ≤ k → o ∈ rows) :
    NotSuperseded stored read k := by
  intro o ho o' ho' hk hkey
  exact recency_le_of_mem_finishRead (h o ho) (hr o' ho' hk) hkey

namespace InMemoryBitemporalStore

variable (s : InMemoryBitemporalStore) (k : Datetime)

theorem asOf_filtered_iff {q : Query} (hq : q.latestRevisionOnly = true) :
    (asOf s k q).Perm ((asOf s k {}).filter (q.Matches ·)) ∧ NotSuperseded s.toList (asOf s k q) k ↔
      ∀ o ∈ s.toList, o.knowledgeTime ≤ k → q.Matches o →
        ∀ w, latestKnown s.toList k o.logicalKey = some w → q.Matches w := by
  have hall : asOf s k {} = finishRead true (visible s k) := rfl
  have hgroup : ∀ key, (visible s k).filter (·.logicalKey = key) =
      s.toList.filter (fun o ↦ o.knowledgeTime ≤ k ∧ o.logicalKey = key) := fun key ↦ by
    simp [visible, List.filter_filter, Bool.and_comm]
  have hiff := finishRead_filter_perm_iff (visible s k) (p := (q.Matches ·))
  simp only [hgroup, decide_eq_true_eq, mem_visible, and_imp] at hiff
  rw [asOf_eq_finishRead s k q, hq, hall]
  rw [and_iff_left_of_imp, hiff]
  · rfl
  · intro hperm
    refine notSuperseded_of_subset (visible s k) (fun o ho ↦ ?_) fun o ho hk ↦
      mem_visible.mpr ⟨ho, hk⟩
    exact List.mem_of_mem_filter (hperm.mem_iff.mp ho)

/-- Without a filter on the entity type the lists are equal, in their order too. -/
theorem asOf_filtered_eq {q : Query} (hq : q.latestRevisionOnly = true)
    (ht : q.entityType = none) : asOf s k q = (asOf s k {}).filter (q.Matches ·) := by
  have hall : asOf s k {} = finishRead true (visible s k) := rfl
  have hp : ∀ a b : Observation, a.logicalKey = b.logicalKey →
      decide (q.Matches a) = decide (q.Matches b) := by
    intro a b hk
    exact decide_eq_decide.mpr (matches_congr ht hk)
  rw [asOf_eq_finishRead, hq, hall, finishRead, finishRead, if_pos rfl, if_pos rfl,
    sortObservations, sortObservations, filter_sortBy, collapseLatestRevisions,
    collapseLatestRevisions, filter_champions hp]

end InMemoryBitemporalStore

theorem SqlAlchemyBitemporalStore.returns_filtered_iff (s : SqlAlchemyBitemporalStore)
    (k : Datetime) {q : SqlQuery} (hq : q.latestRevisionOnly = true) :
    (∀ read all, s.Returns k q read → s.Returns k {} all →
      read.Perm (all.filter (q.Matches ·)) ∧ NotSuperseded s.table.toList read k) ↔
    ∀ o ∈ s.table.toList, o.knowledgeTime ≤ k → q.Matches o →
      ∃ w ∈ s.table.toList, w.knowledgeTime ≤ k ∧ w.logicalKey = o.logicalKey ∧ q.Matches w ∧
        ∀ o' ∈ s.table.toList, o'.knowledgeTime ≤ k → o'.logicalKey = o.logicalKey → o' ≠ w →
          recency o' < recency w := by
  have hselect : s.select k q = (s.select k {}).filter (q.Matches ·) := by
    rw [select_all, List.filter_filter]
    exact List.filter_congr fun o _ ↦ by simp [Bool.and_comm]
  have hmem : ∀ o, o ∈ s.select k {} ↔ o ∈ s.table.toList ∧ o.knowledgeTime ≤ k := fun o ↦ by
    simp [select_all]
  have hiff := finishRead_filter_perm_any_iff (s.select k {}) (p := (q.Matches ·))
  simp only [hmem, decide_eq_true_eq, and_imp, and_assoc] at hiff
  rw [← hiff]
  constructor
  · intro h rows₁ rows₂ h₁ h₂
    refine (h _ _ ⟨rows₁, hselect ▸ h₁, ?_⟩ ⟨rows₂, h₂, rfl⟩).1
    rw [hq]
  · rintro h read all ⟨rows₁, h₁, rfl⟩ ⟨rows₂, h₂, rfl⟩
    rw [hselect] at h₁
    rw [hq]
    have hperm := h rows₁ rows₂ h₁ h₂
    refine ⟨hperm, notSuperseded_of_subset rows₂ (fun o ho ↦ ?_) fun o ho hk ↦ ?_⟩
    · exact List.mem_of_mem_filter (hperm.mem_iff.mp ho)
    · exact h₂.mem_iff.mpr ((hmem o).mpr ⟨ho, hk⟩)

/-- A filtered read is the part of the unfiltered read that matches, and superseded by nothing,
exactly when every fact with a matching row has a matching latest version; where the database
chooses the order of the rows, that version has no tie. -/
theorem filtered_read_iff (k : Datetime) (source dataset entityType entityId : Option String)
    (since : Option Datetime) :
    let q : Query := { source := source, dataset := dataset, entityType := entityType
                       entityId := entityId }
    let q' : SqlQuery := { q with since := since }
    (∀ s : InMemoryBitemporalStore,
      let read := InMemoryBitemporalStore.asOf s k q
      let all := InMemoryBitemporalStore.asOf s k {}
      (read.Perm (all.filter (q.Matches ·)) ∧ NotSuperseded s.toList read k ↔
        ∀ o ∈ s.toList, o.knowledgeTime ≤ k → q.Matches o →
          ∀ w, InMemoryBitemporalStore.latestKnown s.toList k o.logicalKey = some w →
            q.Matches w) ∧
      (entityType = none → read = all.filter (q.Matches ·))) ∧
    ∀ s : SqlAlchemyBitemporalStore,
      (∀ read all, s.Returns k q' read → s.Returns k {} all →
        read.Perm (all.filter (q'.Matches ·)) ∧ NotSuperseded s.table.toList read k) ↔
      ∀ o ∈ s.table.toList, o.knowledgeTime ≤ k → q'.Matches o →
        ∃ w ∈ s.table.toList, w.knowledgeTime ≤ k ∧ w.logicalKey = o.logicalKey ∧ q'.Matches w ∧
          ∀ o' ∈ s.table.toList, o'.knowledgeTime ≤ k → o'.logicalKey = o.logicalKey → o' ≠ w →
            recency o' < recency w := by
  intro q q'
  constructor
  · intro s
    exact ⟨s.asOf_filtered_iff k rfl, s.asOf_filtered_eq k (q := q) rfl⟩
  · intro s
    exact s.returns_filtered_iff k rfl

/-- A correction that also corrects the entity type: a read of the old type finds the old
version. -/
theorem filtered_read_resurrects : ¬∀ (s : InMemoryBitemporalStore) (k : Datetime) (q : Query),
    (InMemoryBitemporalStore.asOf s k q).Perm
      ((InMemoryBitemporalStore.asOf s k {}).filter (q.Matches ·)) := by
  intro h
  let row : Observation :=
    { source := "p", dataset := "d", entityType := "equity", entityId := "A", eventTime := 0
      knowledgeTime := 0, observationId := 1 }
  let fix : Observation :=
    { row with entityType := "etf", knowledgeTime := 5, revision := 1, observationId := 2 }
  have hread := h (.ofList [row, fix]) 5 { entityType := some "equity" }
  have hlen := hread.length_eq
  revert hlen
  decide

end MarketTrader.Storage

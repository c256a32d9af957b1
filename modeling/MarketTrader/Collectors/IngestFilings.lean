import MarketTrader.Collectors.Edgar
import MarketTrader.Library.Run
import MarketTrader.Storage.SqlAlchemyStore

namespace MarketTrader.Collectors

open Library MarketTrader.Core Storage Memory

/-! ### The command -/

/-- What one run of `ingest-filings` is given: its options, the day and its clock, what the venue
has, and the requests that fail. -/
structure FilingsRun where
  symbols : List String
  refresh : Bool := false
  days : ℤ := 1095
  budget : ℚ := 600
  today : CalendarDate
  elapsed : ℕ → ℚ
  sec : EdgarTransport
  fails : String → Bool

namespace FilingsRun

def client (r : FilingsRun) : EdgarClient :=
  { get := fun url ↦ if r.fails url then none else r.sec url, budget := r.budget }

def cutoff (r : FilingsRun) : ℤ := r.today.1.toOrdinal - r.days

theorem serves_of_answered {r : FilingsRun} (h : ∀ url, r.fails url = false) {cutoff : ℤ}
    {sym : String} {rec : Form4Record} : r.client.Serves cutoff sym rec ↔
      EdgarClient.Serves { get := r.sec } cutoff sym rec := by
  have hget : r.client.get = r.sec := by
    funext url
    exact if_neg (by rw [h url]; decide)
  have hclient : r.client = { get := r.sec, budget := r.budget } := by
    rw [← hget]
    rfl
  rw [hclient]
  exact Iff.rfl

end FilingsRun

/-- The symbols of the rows that a read has returned. -/
def coveredSymbols (read : List Observation) : List String := read.map (fun o ↦ upper o.entityId)

/-- The symbols of the universe that are not in the store already. -/
def symbolsToFetch (symbols covered : List String) : List String :=
  symbols.filter (fun s ↦ upper s ∉ covered.map upper)

/-- The Form 4 rows of the store, in one of the orders in which the database may yield them. -/
def form4Rows (s : SqlAlchemyBitemporalStore) : List Observation :=
  finishRead true (s.select distantFuture { dataset := some form4Dataset })

def FilingsRun.todo (r : FilingsRun) (s : SqlAlchemyBitemporalStore) : List String :=
  if r.refresh then r.symbols else symbolsToFetch r.symbols (coveredSymbols (form4Rows s))

/-- The exit code, and the store that the run leaves. -/
def cmdIngestFilings (D : Digests) (s : SqlAlchemyBitemporalStore) (r : FilingsRun) :
    ℕ × SqlAlchemyBitemporalStore :=
  (r.client.fetchForSymbols r.today r.elapsed (r.todo s) r.days).elim (1, s) (fun records ↦
    (0, ⟨(({} : IngestionGateway).ingest D s.table (normalizeForm4 records)).store⟩))

def backfill (D : Digests) (s : SqlAlchemyBitemporalStore) (runs : List FilingsRun) :
    SqlAlchemyBitemporalStore := run (fun s r ↦ (cmdIngestFilings D s r).2) s runs

/-! ### Coverage -/

theorem toUpper_toUpper (c : Char) : c.toUpper.toUpper = c.toUpper := by
  by_cases h : 'a'.val ≤ c.val ∧ c.val ≤ 'z'.val
  · have hv : c.toUpper.val = c.val + ('A'.val - 'a'.val) := by
      delta Char.toUpper
      rw [dif_pos h]
    have hsum : c.toUpper.val.toNat = (c.val.toNat + 4294967264) % 4294967296 := by
      rw [hv]
      exact UInt32.toNat_add ..
    have hc : 97 ≤ c.val.toNat ∧ c.val.toNat ≤ 122 :=
      ⟨UInt32.le_iff_toNat_le.mp h.1, UInt32.le_iff_toNat_le.mp h.2⟩
    have hs : ¬('a'.val ≤ c.toUpper.val ∧ c.toUpper.val ≤ 'z'.val) := by
      rintro ⟨h₁, -⟩
      have hle : 97 ≤ c.toUpper.val.toNat := UInt32.le_iff_toNat_le.mp h₁
      omega
    exact dif_neg hs
  · have hc : c.toUpper = c := dif_neg h
    rw [hc, hc]

@[simp] theorem upper_upper (s : String) : upper (upper s) = upper s := by
  simp only [upper, String.toList_ofList, List.map_map]
  congr 1
  exact List.map_congr_left fun c _ ↦ toUpper_toUpper c

/-- Some row that a backfill sees is about the symbol. -/
def Covered (s : SqlAlchemyBitemporalStore) (sym : String) : Prop :=
  ∃ o ∈ s.table.toList, o.dataset = form4Dataset ∧ o.knowledgeTime ≤ distantFuture ∧
    upper o.entityId = upper sym

variable {D : Digests} {s : SqlAlchemyBitemporalStore} {r final : FilingsRun} {sym : String}
  {o : Observation}

/-- In whichever order the database yields the rows, they cover the same symbols. -/
theorem mem_coveredSymbols_of_returns {read : List Observation}
    (h : s.Returns distantFuture { dataset := some form4Dataset } read) (sym : String) :
    upper sym ∈ (coveredSymbols read).map upper ↔ Covered s sym := by
  obtain ⟨rows, hp, rfl⟩ := h
  have hmem : ∀ o, o ∈ rows ↔ o ∈ s.table.toList ∧ o.knowledgeTime ≤ distantFuture ∧
      o.dataset = form4Dataset := by
    intro o
    rw [hp.mem_iff, SqlAlchemyBitemporalStore.select, List.mem_filter, decide_eq_true_eq]
    simp [SqlQuery.Matches, Query.Matches]
  simp only [coveredSymbols, List.map_map, List.mem_map, Function.comp_apply, upper_upper]
  constructor
  · rintro ⟨o, ho, he⟩
    obtain ⟨hs, hk, hd⟩ := (hmem o).mp (finishRead_subset ho)
    exact ⟨o, hs, hd, hk, he⟩
  · rintro ⟨o, hs, hd, hk, he⟩
    -- of the versions of one fact a read keeps one, which is about the same symbol
    obtain ⟨w, hw, hkey⟩ := exists_mem_finishRead ((hmem o).mpr ⟨hs, hk, hd⟩)
    refine ⟨w, hw, ?_⟩
    rw [show w.entityId = o.entityId from congrArg (fun k : LogicalKey ↦ k.2.2.1) hkey, he]

theorem mem_todo : sym ∈ r.todo s ↔ sym ∈ r.symbols ∧ (r.refresh = true ∨ ¬Covered s sym) := by
  have hc : upper sym ∈ (coveredSymbols (form4Rows s)).map upper ↔ Covered s sym :=
    mem_coveredSymbols_of_returns ⟨_, .refl _, rfl⟩ sym
  rw [FilingsRun.todo]
  split
  · next h => simp [h]
  · next h =>
    rw [symbolsToFetch, List.mem_filter, decide_eq_true_eq, hc]
    simp [h]

/-! ### What a run gets, and what it is offered -/

def form4Row (D : Digests) (rec : Form4Record) : Observation := withDeterministicId D rec.observation

namespace FilingsRun

/-- The lookback starts on a date. Where it does not, the command fails. -/
def Dated (r : FilingsRun) : Prop :=
  1 ≤ (Date.ofOrdinal r.cutoff).year ∧ (Date.ofOrdinal r.cutoff).year ≤ 9999

instance (r : FilingsRun) : Decidable r.Dated := inferInstanceAs (Decidable (_ ∧ _))

/-- All that the venue has, in the lookback and under the limit for one symbol. -/
def Offers (D : Digests) (r : FilingsRun) (sym : String) (o : Observation) : Prop :=
  ∃ rec, EdgarClient.Serves { get := r.sec } r.cutoff sym rec ∧ form4Row D rec = o

/-- What it has, as a list. -/
def offered (D : Digests) (r : FilingsRun) (sym : String) : List Observation :=
  let venue : EdgarClient := { get := r.sec }
  (((Dict.get? venue.cikMap (upper sym)).bind (fun cik ↦
    venue.fetchSymbol sym cik r.cutoff)).getD []).map (form4Row D)

theorem mem_offered {D : Digests} {r : FilingsRun} {sym : String} {o : Observation} :
    o ∈ r.offered D sym ↔ r.Offers D sym o := by
  simp only [offered, List.mem_map, Offers, EdgarClient.serves_iff]

/-- The run comes to the symbol before its budget is spent. -/
def Asks (r : FilingsRun) (s : SqlAlchemyBitemporalStore) (sym : String) : Prop :=
  r.Dated ∧ ∃ i, (r.todo s)[i]? = some sym ∧ ∀ k ≤ i, r.elapsed k ≤ r.budget

/-- The row is in a document that the run is answered. -/
def Gets (D : Digests) (r : FilingsRun) (s : SqlAlchemyBitemporalStore) (o : Observation) : Prop :=
  ∃ sym, r.Asks s sym ∧ ∃ rec, r.client.Serves r.cutoff sym rec ∧ form4Row D rec = o

/-- The store has every transaction that the run is offered for its symbols. -/
def Complete (D : Digests) (r : FilingsRun) (s : SqlAlchemyBitemporalStore) : Prop :=
  ∀ sym ∈ r.symbols, ∀ o, r.Offers D sym o → o ∈ s.table.toList

/-- No request fails, and the clock never passes the budget. -/
structure Unhindered (r : FilingsRun) (s : SqlAlchemyBitemporalStore) : Prop where
  answered : ∀ url, r.fails url = false
  inTime : ∀ i < (r.todo s).length, r.elapsed i ≤ r.budget

end FilingsRun

open FilingsRun

/-- A run adds what it gets. -/
theorem table_cmdIngestFilings (D : Digests) (s : SqlAlchemyBitemporalStore) (r : FilingsRun) :
    ∃ l, (cmdIngestFilings D s r).2.table = s.table.insertAll l ∧ ∀ o, o ∈ l ↔ r.Gets D s o := by
  by_cases hd : r.Dated
  · have hfetch : r.client.fetchForSymbols r.today r.elapsed (r.todo s) r.days =
        some (r.client.fetchEach r.client.cikMap r.cutoff r.elapsed 0 (r.todo s)) := if_pos hd
    rw [cmdIngestFilings, hfetch]
    refine ⟨_, (ingest_of_admits fun _ hs ↦ by cases hs).1, fun o ↦ ?_⟩
    simp only [normalizeForm4, List.map_map, List.mem_map, EdgarClient.mem_fetchEach,
      Nat.zero_add, Function.comp_apply]
    constructor
    · rintro ⟨rec, ⟨i, sym, hi, hk, hrec⟩, rfl⟩
      exact ⟨sym, ⟨hd, i, hi, hk⟩, rec, hrec, rfl⟩
    · rintro ⟨sym, ⟨-, i, hi, hk⟩, rec, hrec, rfl⟩
      exact ⟨rec, ⟨i, sym, hi, hk, hrec⟩, rfl⟩
  · have hfetch : r.client.fetchForSymbols r.today r.elapsed (r.todo s) r.days = none := if_neg hd
    rw [cmdIngestFilings, hfetch]
    refine ⟨[], rfl, fun o ↦ ⟨fun h ↦ (by cases h), ?_⟩⟩
    rintro ⟨sym, ⟨hd', -⟩, -⟩
    exact absurd hd' hd

theorem mem_step_of_gets (h : r.Gets D s o) (hone : ∀ o', r.Gets D s o' →
    o'.observationId = o.observationId → o' = o) :
    o ∈ (cmdIngestFilings D s r).2.table.toList := by
  obtain ⟨l, htable, hl⟩ := table_cmdIngestFilings D s r
  rw [htable]
  exact Keyed.mem_insertAll_of_unique ((hl o).mpr h) fun o' ho' ↦ hone o' ((hl o').mp ho')

theorem mem_step_of_mem (h : o ∈ s.table.toList) (hone : ∀ o', r.Gets D s o' →
    o'.observationId = o.observationId → o' = o) :
    o ∈ (cmdIngestFilings D s r).2.table.toList := by
  by_cases hg : r.Gets D s o
  · exact mem_step_of_gets hg hone
  obtain ⟨l, htable, hl⟩ := table_cmdIngestFilings D s r
  rw [htable]
  refine Keyed.mem_insertAll_of_ne h fun o' ho' he ↦ hg ?_
  rw [← hone o' ((hl o').mp ho') he]
  exact (hl o').mp ho'

theorem mem_or_gets_of_mem_step (h : o ∈ (cmdIngestFilings D s r).2.table.toList) :
    o ∈ s.table.toList ∨ r.Gets D s o := by
  obtain ⟨l, htable, hl⟩ := table_cmdIngestFilings D s r
  rw [htable] at h
  exact (Keyed.mem_of_mem_insertAll h).imp_right (hl o).mp

/-! ### The last run -/

namespace FilingsRun.Unhindered

variable (h : final.Unhindered s)
include h

theorem asks_iff : final.Asks s sym ↔ final.Dated ∧ sym ∈ final.todo s := by
  rw [Asks, List.mem_iff_getElem?]
  refine and_congr_right fun _ ↦ ⟨fun ⟨i, hi, _⟩ ↦ ⟨i, hi⟩, fun ⟨i, hi⟩ ↦ ⟨i, hi, fun k hk ↦ ?_⟩⟩
  have hlen : i < (final.todo s).length := (List.getElem?_eq_some_iff.mp hi).1
  exact h.inTime k (by omega)

theorem gets_iff : final.Gets D s o ↔
    final.Dated ∧ ∃ sym ∈ final.todo s, final.Offers D sym o := by
  simp only [Gets, Offers, h.asks_iff, serves_of_answered h.answered]
  tauto

end FilingsRun.Unhindered

/-- Of the rows that a run is offered, those with one id are one row. -/
def FilingsRun.OneRowPerId (D : Digests) (r : FilingsRun) : Prop :=
  ∀ sym ∈ r.symbols, ∀ sym' ∈ r.symbols, ∀ o o', r.Offers D sym o → r.Offers D sym' o' →
    o.observationId = o'.observationId → o = o'

theorem complete_step_iff (h : final.Unhindered s) :
    final.Complete D (cmdIngestFilings D s final).2 ↔ final.OneRowPerId D ∧
      ∀ sym ∈ final.symbols, ¬final.Asks s sym → ∀ o, final.Offers D sym o →
        o ∈ s.table.toList ∨ ∃ sym', final.Asks s sym' ∧ final.Offers D sym' o := by
  have hgets : ∀ o, final.Gets D s o ↔ ∃ sym, final.Asks s sym ∧ final.Offers D sym o := by
    intro o
    simp only [h.gets_iff, h.asks_iff]
    tauto
  have hsymbols : ∀ sym, final.Asks s sym → sym ∈ final.symbols := fun sym hs ↦
    (mem_todo.mp (h.asks_iff.mp hs).2).1
  constructor
  · intro hc
    refine ⟨fun sym hs sym' hs' o o' ho ho' he ↦ ?_, fun sym hs _ o ho ↦ ?_⟩
    · exact Keyed.eq_of_mem (hc sym hs o ho) (hc sym' hs' o' ho') he
    · exact (mem_or_gets_of_mem_step (hc sym hs o ho)).imp_right (hgets o).mp
  · rintro ⟨hone, hrest⟩ sym hs o ho
    have hsame : ∀ o', final.Gets D s o' → o'.observationId = o.observationId → o' = o := by
      intro o' ho' he
      obtain ⟨sym', hs', ho'⟩ := (hgets o').mp ho'
      exact hone sym' (hsymbols sym' hs') sym hs o' o ho' ho he
    by_cases hask : final.Asks s sym
    · exact mem_step_of_gets ((hgets o).mpr ⟨sym, hask, ho⟩) hsame
    · rcases hrest sym hs hask o ho with hm | hm
      · exact mem_step_of_mem hm hsame
      · exact mem_step_of_gets ((hgets o).mpr hm) hsame

/-! ### Runs -/

/-- The run leaves no hole: of a symbol of the last run of which it gets a row, it gets every row
that the last run is offered and the store does not have, and no other version of such a row. -/
structure FilingsRun.LeavesNoHole (D : Digests) (final : FilingsRun)
    (s : SqlAlchemyBitemporalStore) (r : FilingsRun) : Prop where
  whole : ∀ sym ∈ final.symbols, (∃ o, r.Gets D s o ∧ o.knowledgeTime ≤ distantFuture ∧
    upper o.entityId = upper sym) → ∀ o, final.Offers D sym o → o ∈ s.table.toList ∨ r.Gets D s o
  sameRows : ∀ o, r.Gets D s o → ∀ sym ∈ final.symbols, ∀ o', final.Offers D sym o' →
    o.observationId = o'.observationId → o = o'

/-- What is offered for a symbol that counts as covered is stored. -/
def NoHoles (D : Digests) (final : FilingsRun) (s : SqlAlchemyBitemporalStore) : Prop :=
  ∀ sym ∈ final.symbols, Covered s sym → ∀ o, final.Offers D sym o → o ∈ s.table.toList

theorem noHoles_step (hs : NoHoles D final s) (h : final.LeavesNoHole D s r) :
    NoHoles D final (cmdIngestFilings D s r).2 := by
  rintro sym hsym ⟨w, hw, hd, hk, he⟩ o ho
  have hsame : ∀ o', r.Gets D s o' → o'.observationId = o.observationId → o' = o :=
    fun o' ho' ↦ h.sameRows o' ho' sym hsym o ho
  rcases mem_or_gets_of_mem_step hw with hw | hw
  · exact mem_step_of_mem (hs sym hsym ⟨w, hw, hd, hk, he⟩ o ho) hsame
  · rcases h.whole sym hsym ⟨w, hw, hk, he⟩ o ho with hm | hm
    · exact mem_step_of_mem hm hsame
    · exact mem_step_of_gets hm hsame

/-! ### Runs that only their budget cuts short -/

section Budget

variable {fd : CalendarDate} {ticker ticker' : String} {c : EdgarClient} {sym' : String}
  {rec : Form4Record}

theorem upper_eq_empty_iff (t : String) : upper t = "" ↔ t = "" := by
  rw [← String.toList_inj, ← String.toList_inj, upper, String.toList_ofList]
  exact List.map_eq_nil_iff

theorem parseForm4Xml_congr (h : upper ticker = upper ticker') (root : Option Element) :
    parseForm4Xml fd ticker root = parseForm4Xml fd ticker' root := by
  cases root with
  | none => rfl
  | some root =>
    simp only [parseForm4Xml]
    cases (textAt root ["issuer", "issuerTradingSymbol"]).filter (· ≠ "") with
    | some t => rfl
    | none =>
      have hempty : ticker = "" ↔ ticker' = "" := by
        rw [← upper_eq_empty_iff ticker, h, upper_eq_empty_iff]
      simp only [Option.getD_none, hempty]
      have htxn : ∀ owner title, parseTransaction ticker owner title fd =
          parseTransaction ticker' owner title fd := by
        intro owner title
        funext txn
        simp only [parseTransaction, h]
      rw [htxn]

theorem serves_congr {cutoff : ℤ} (h : upper sym = upper sym') :
    c.Serves cutoff sym rec ↔ c.Serves cutoff sym' rec := by
  have hrecords : ∀ cik f, c.records cik sym f = c.records cik sym' f := by
    intro cik f
    simp only [EdgarClient.records, EdgarClient.document]
    cases c.get (docUrl cik f.accession f.primaryDocument) with
    | none => rfl
    | some body => exact parseForm4Xml_congr h _
  simp only [EdgarClient.Serves, h, hrecords]

/-- The run is answered what the last run is answered, with the same lookback, and each document
found for one of its symbols is about that symbol. -/
structure FilingsRun.SameAnswers (final r : FilingsRun) : Prop where
  answered : ∀ url, r.fails url = false
  sec : r.sec = final.sec
  cutoff : r.cutoff = final.cutoff
  ownName : ∀ sym ∈ r.symbols, ∀ rec,
    EdgarClient.Serves { get := final.sec } final.cutoff sym rec → upper rec.issuerTicker = upper sym

theorem FilingsRun.SameAnswers.serves_iff (h : final.SameAnswers r) :
    r.client.Serves r.cutoff sym rec ↔
      EdgarClient.Serves { get := final.sec } final.cutoff sym rec := by
  rw [serves_of_answered h.answered, h.sec, h.cutoff]

theorem FilingsRun.SameAnswers.leavesNoHole (h : final.SameAnswers r)
    (hone : ∀ sym ∈ r.symbols, ∀ sym' ∈ final.symbols, ∀ o o', final.Offers D sym o →
      final.Offers D sym' o' → o.observationId = o'.observationId → o = o') :
    final.LeavesNoHole D s r where
  whole := by
    rintro sym - ⟨_, ⟨sym', hask, rec, hrec, rfl⟩, -, he⟩ o ⟨rec', hrec', rfl⟩
    have hsym' : sym' ∈ r.symbols := by
      obtain ⟨-, i, hi, -⟩ := hask
      exact (mem_todo.mp (List.mem_of_getElem? hi)).1
    -- the row names the symbol that the run has asked for
    have hname : upper sym' = upper sym := by
      rw [← h.ownName sym' hsym' rec (h.serves_iff.mp hrec), ← he]
      exact (upper_upper rec.issuerTicker).symm
    exact .inr ⟨sym', hask, rec', h.serves_iff.mpr ((serves_congr hname).mpr hrec'), rfl⟩
  sameRows := by
    rintro _ ⟨sym', hask, rec, hrec, rfl⟩ sym hsym o' ho' he
    obtain ⟨-, i, hi, -⟩ := hask
    exact hone sym' (mem_todo.mp (List.mem_of_getElem? hi)).1 sym hsym _ o'
      ⟨rec, h.serves_iff.mp hrec, rfl⟩ ho' he

end Budget

theorem noHoles_backfill (hs : NoHoles D final s) {runs : List FilingsRun}
    (h : Along (fun s r ↦ (cmdIngestFilings D s r).2) (final.LeavesNoHole D) s runs) :
    NoHoles D final (backfill D s runs) :=
  run_invariant (fun _ _ hs hr ↦ noHoles_step hs hr) hs h

theorem noHoles_of_no_form4 (h : ∀ o ∈ s.table.toList, o.dataset ≠ form4Dataset) :
    NoHoles D final s := by
  rintro sym - ⟨o, ho, hd, -⟩
  exact absurd hd (h o ho)

theorem complete_iff_of_noHoles (h : final.Unhindered s) (hd : final.Dated)
    (hs : NoHoles D final s) :
    final.Complete D (cmdIngestFilings D s final).2 ↔ final.OneRowPerId D := by
  rw [complete_step_iff h]
  refine and_iff_left fun sym hsym hask o ho ↦ .inl ?_
  refine hs sym hsym ?_ o ho
  by_contra hc
  exact hask (h.asks_iff.mpr ⟨hd, mem_todo.mpr ⟨hsym, .inr hc⟩⟩)

/-- After runs that only their budget has cut short the backfill has no hole. -/
theorem backfill_complete_of_budget {runs : List FilingsRun}
    (hstart : ∀ o ∈ s.table.toList, o.dataset ≠ form4Dataset)
    (hsame : ∀ r ∈ runs, final.SameAnswers r)
    (hone : ∀ r ∈ final :: runs, ∀ sym ∈ r.symbols, ∀ sym' ∈ final.symbols, ∀ o o',
      final.Offers D sym o → final.Offers D sym' o' → o.observationId = o'.observationId → o = o')
    (hd : final.Dated) (h : final.Unhindered (backfill D s runs)) :
    final.Complete D (cmdIngestFilings D (backfill D s runs) final).2 := by
  have halong : Along (fun s r ↦ (cmdIngestFilings D s r).2) (final.LeavesNoHole D) s runs :=
    Along.of_forall (fun _ r hr ↦
      (hsame r hr).leavesNoHole (hone r (List.mem_cons_of_mem _ hr))) s
  rw [complete_iff_of_noHoles h hd (noHoles_backfill (noHoles_of_no_form4 hstart) halong)]
  exact hone final List.mem_cons_self

/-- The last run completes the store exactly when what it is offered for the symbols that it does
not ask for is stored or comes with other symbols, and runs that leave no hole lead there. -/
theorem backfill_complete_iff (D : Digests) (start : SqlAlchemyBitemporalStore)
    (runs : List FilingsRun) (final : FilingsRun)
    (h : final.Unhindered (backfill D start runs)) :
    let s := backfill D start runs
    (final.Complete D (cmdIngestFilings D s final).2 ↔ final.OneRowPerId D ∧
      ∀ sym ∈ final.symbols, ¬final.Asks s sym → ∀ o, final.Offers D sym o →
        o ∈ s.table.toList ∨ ∃ sym', final.Asks s sym' ∧ final.Offers D sym' o) ∧
    ((∀ o ∈ start.table.toList, o.dataset ≠ form4Dataset) → final.Dated →
      Along (fun s r ↦ (cmdIngestFilings D s r).2) (final.LeavesNoHole D) start runs →
        (final.Complete D (cmdIngestFilings D s final).2 ↔ final.OneRowPerId D)) := by
  intro s
  refine ⟨complete_step_iff h, fun hstart hd hruns ↦ ?_⟩
  exact complete_iff_of_noHoles h hd (noHoles_backfill (noHoles_of_no_form4 hstart) hruns)

/-! ### Two names -/

/-- An ownership document with one purchase of the second of January 2024. -/
def purchaseBy (insider : String) : Element :=
  let leaf (tag text : String) : Element := .node tag (some text) []
  .node "ownershipDocument" none
    [.node "reportingOwner" none
      [.node "reportingOwnerId" none [leaf "rptOwnerName" insider]],
    .node "nonDerivativeTable" none
      [.node "nonDerivativeTransaction" none
        [.node "transactionCoding" none [leaf "transactionCode" "P"],
        .node "transactionDate" none [leaf "value" "2024-01-02"]]]]

/-- Two filings of A and one of B, each with one purchase. -/
def twoNames : EdgarTransport := fun url ↦
  if url = secTickersUrl then some (.tickers [("A", 1), ("B", 2)])
  else if url = secSubmissionsUrl 1 then
    some (.submissions
      { recent :=
          { form := ["4", "4"], accessionNumber := ["1", "2"]
            filingDate := ["2024-01-03", "2024-01-03"], primaryDocument := ["x.xml", "y.xml"] } })
  else if url = secSubmissionsUrl 2 then
    some (.submissions
      { recent :=
          { form := ["4"], accessionNumber := ["3"]
            filingDate := ["2024-01-03"], primaryDocument := ["z.xml"] } })
  else if url = docUrl 1 "1" "x.xml" then some (.document (some (purchaseBy "X")))
  else if url = docUrl 1 "2" "y.xml" then some (.document (some (purchaseBy "Y")))
  else if url = docUrl 2 "3" "z.xml" then some (.document (some (purchaseBy "Z")))
  else none

def twoNamesRun (elapsed : ℕ → ℚ) (fails : String → Bool) : FilingsRun :=
  { symbols := ["A", "B"], today := ⟨⟨2024, 1, 10⟩, by decide⟩, elapsed := elapsed
    sec := twoNames, fails := fails }

def fullRun : FilingsRun := twoNamesRun (fun _ ↦ 0) (fun _ ↦ false)

theorem fullRun_unhindered (s : SqlAlchemyBitemporalStore) : fullRun.Unhindered s where
  answered _ := rfl
  inTime _ _ := (by decide +kernel : (0 : ℚ) ≤ 600)

/-- The budget of the first run is spent after A. -/
theorem backfill_complete_resumed :
    let s := backfill .plain .empty [twoNamesRun (fun i ↦ 601 * i) (fun _ ↦ false)]
    s.table.toList.length = 2 ∧ fullRun.Complete .plain (cmdIngestFilings .plain s fullRun).2 := by
  intro s
  have hids : ((["A", "B"].flatMap (fullRun.offered .plain)).map
      Observation.observationId).Nodup := by
    decide +kernel
  have hown : ∀ sym ∈ ["A", "B"], ∀ rec ∈ ((Dict.get?
      (EdgarClient.cikMap { get := twoNames }) (upper sym)).bind (fun cik ↦
        EdgarClient.fetchSymbol { get := twoNames } sym cik fullRun.cutoff)).getD [],
      upper rec.issuerTicker = upper sym := by
    decide +kernel
  have hrow : fullRun.OneRowPerId .plain := fun sym hs sym' hs' o o' ho ho' ↦
    List.inj_on_of_nodup_map hids (List.mem_flatMap.mpr ⟨sym, hs, mem_offered.mpr ho⟩)
      (List.mem_flatMap.mpr ⟨sym', hs', mem_offered.mpr ho'⟩)
  have hsame : fullRun.SameAnswers (twoNamesRun (fun i ↦ 601 * i) (fun _ ↦ false)) :=
    ⟨fun _ ↦ rfl, rfl, rfl, fun sym hs rec hrec ↦ hown sym hs rec ((EdgarClient.serves_iff _).mp hrec)⟩
  refine ⟨by decide +kernel, ?_⟩
  exact ((backfill_complete_iff .plain .empty _ fullRun (fullRun_unhindered s)).2 (fun _ ho ↦ by cases ho)
    (by decide +kernel) ⟨hsame.leavesNoHole hrow, trivial⟩).mpr hrow

/-- A run over A and B, in which one request for a document of A fails, before the full run. -/
theorem failed_document_lost : ¬∀ (D : Digests) (runs : List FilingsRun) (final : FilingsRun),
    (∀ r ∈ final :: runs, r.refresh = false) → final.Unhindered (backfill D .empty runs) →
      final.Complete D (cmdIngestFilings D (backfill D .empty runs) final).2 := by
  intro h
  have hlost : ∃ o ∈ fullRun.offered .plain "A", o ∉ (cmdIngestFilings .plain
      (backfill .plain .empty [twoNamesRun (fun _ ↦ 0) (fun url ↦ url = docUrl 1 "2" "y.xml")])
        fullRun).2.table.toList := by
    decide +kernel
  obtain ⟨o, ho, hnot⟩ := hlost
  refine hnot (h .plain _ fullRun ?_ (fullRun_unhindered _) "A" List.mem_cons_self o
    (mem_offered.mp ho))
  decide

end MarketTrader.Collectors

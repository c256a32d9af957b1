import MarketTrader.Reasoning.Agents

namespace MarketTrader.Reasoning

open Library

/-- The text is JSON, and denotes the value. -/
def IsJson (s : List Char) (v : Json) : Prop :=
  v.standard ∧ ∃ w t w' d, Spaces w ∧ Spaces w' ∧ s = w ++ (t ++ w') ∧ Denotes d t v

/-- The number that a value is, if it is one that a float can be as large as. -/
def finiteNumber? : Json → Option ℚ
  | .num n => if |n.value| < Double.bound then some n.value else none
  | _ => none

/-- What the text says is what the signal has. -/
def ReadsAs (text : String) (signal : ExtractedSignal) : Prop :=
  ∃ s members q, block text.toList = some s ∧ IsJson s (.obj members) ∧
    (Json.member? members "score").bind finiteNumber? = some q ∧ signal.score = clip q (-1) 1 ∧
    ∀ v, Json.member? members "confidence" = some v →
      ∃ c, finiteNumber? v = some c ∧ signal.confidence = clip c 0 1

/-- A reply with the text is a missing signal or the right one, and nobody crashes on it. -/
structure Meets (I : Interpreter) (text : String) : Prop where
  raises (symbol : String) (e : PyError) : parseSignal I symbol text ≠ .error e
  reads (symbol : String) (signal : ExtractedSignal) :
    parseSignal I symbol text = .ok (some signal) → ReadsAs text signal
  extract {σ : Type} (P : Provider σ) (s : σ) (symbol : String) (headlines : List String)
    (e : PyError) : (∀ r, (P s r).1 = .ok text) →
      (extractNewsSignal I P symbol headlines s).1 ≠ .error (.raised e)
  analyst {σ : Type} (P : Provider σ) (s : σ) (role : AnalystRole) (ctx : AnalystContext)
    (e : PyError) : (∀ r, (P s r).1 = .ok text) →
      (runAnalyst I P role ctx s).1 ≠ .error (.raised e)

section Condition

variable (I : Interpreter)

/-- `float` refuses the value with an error that is caught. -/
def Refused (v : Json) : Prop := ∃ e, I.float v = .error e ∧ e.caught

/-- The object has no signal: its score is missing or refused, or is fine while its confidence is
refused. -/
def Signalless (members : List (String × Json)) : Prop :=
  (∀ v, Json.member? members "score" = some v → Refused I v) ∨
    ∃ v x c, Json.member? members "score" = some v ∧ I.float v = .ok x ∧
      Json.member? members "confidence" = some c ∧ Refused I c

/-- No constant stands in the object, its score and its confidence are numbers that a float can be
as large as, and its rationale has a text. -/
def Proper (members : List (String × Json)) : Prop :=
  (Json.obj members).standard ∧
    (∃ v q, Json.member? members "score" = some v ∧ finiteNumber? v = some q) ∧
    (∀ v, Json.member? members "confidence" = some v → ∃ c, finiteNumber? v = some c) ∧
    ∃ r, I.str ((Json.member? members "rationale").getD (.str "")) = .ok r

/-- The decoder does not run out of stack on the block, and an object that it finds there has no
signal or is proper. -/
def Harmless (text : String) : Prop :=
  ∀ s, block text.toList = some s → I.jsonLoads s ≠ .error .recursion ∧
    ∀ members, I.jsonLoads s = .ok (.obj members) → Signalless I members ∨ Proper I members

end Condition

variable {I : Interpreter}

/-! ### The block -/

theorem exists_stripChars (I : Interpreter) (s : List Char) : ∃ a b,
    (∀ c ∈ a, I.space c) ∧ (∀ c ∈ b, I.space c) ∧ s = a ++ (I.stripChars s ++ b) := by
  refine ⟨s.takeWhile I.space, ((s.dropWhile I.space).reverse.takeWhile I.space).reverse,
    fun c hc ↦ List.mem_takeWhile_imp hc,
    fun c hc ↦ List.mem_takeWhile_imp (List.mem_reverse.mp hc), ?_⟩
  rw [Interpreter.stripChars, ← List.reverse_append, List.takeWhile_append_dropWhile,
    List.reverse_reverse, List.takeWhile_append_dropWhile]

/-- Blanks around a text do not change its block. -/
theorem block_stripChars (s : List Char) : block (I.stripChars s) = block s := by
  obtain ⟨a, b, ha, hb, hs⟩ := exists_stripChars I s
  have hne : ∀ c x, I.space x = false → I.space c → c ≠ x := by
    rintro c x hx hc rfl
    rw [hx] at hc
    cases hc
  have hopen : ∀ c, I.space c → decide (c ≠ '{') = true := fun c hc ↦
    decide_eq_true (hne c _ I.space_brace.1 hc)
  have hclose : ∀ c, I.space c → decide (c ≠ '}') = true := fun c hc ↦
    decide_eq_true (hne c _ I.space_brace.2 hc)
  generalize I.stripChars s = m at hs
  have hcut : (s.dropWhile (· ≠ '{')).reverse.dropWhile (· ≠ '}') =
      (m.dropWhile (· ≠ '{')).reverse.dropWhile (· ≠ '}') := by
    rw [hs, List.dropWhile_append_of_pos fun c hc ↦ hopen c (ha c hc), List.dropWhile_append]
    split
    · next hm =>
      rw [List.isEmpty_iff.mp hm, List.dropWhile_eq_nil_iff.mpr fun c hc ↦ hopen c (hb c hc)]
    · rw [List.reverse_append, List.dropWhile_append_of_pos fun c hc ↦
        hclose c (hb c (List.mem_reverse.mp hc))]
  rw [block, block, hcut]

/-! ### The values of the fields -/

theorem float_of_finiteNumber {v : Json} {q : ℚ} (h : finiteNumber? v = some q) :
    I.float v = .ok (.fin q) := by
  cases v with
  | num n =>
    rw [finiteNumber?] at h
    split at h
    · next hlt =>
      cases h
      rw [Interpreter.float, if_pos hlt, Double.ofRat, if_pos hlt, ite_self]
    · cases h
  | _ => cases h

theorem Interpreter.jsonLoads_eq_ok {s : List Char} {v : Json} :
    I.jsonLoads s = .ok v ↔ loads I.maxDigits I.maxDepth s = .ok v := by
  rw [Interpreter.jsonLoads]
  cases loads I.maxDigits I.maxDepth s with
  | ok w => simp
  | error e => cases e <;> simp

/-- What the decoder finds in JSON is what the JSON denotes. -/
theorem IsJson.eq_of_jsonLoads {s : List Char} {v v' : Json} (h : IsJson s v)
    (hl : I.jsonLoads s = .ok v') : v = v' := by
  obtain ⟨-, w, t, w', d, hw, hw', rfl, hd⟩ := h
  exact (loads_complete hd hw hw' I.maxDepth).eq (Interpreter.jsonLoads_eq_ok.mp hl)

theorem isJson_of_jsonLoads {s : List Char} {v : Json} (hl : I.jsonLoads s = .ok v)
    (hv : v.standard) : IsJson s v := by
  obtain ⟨w, t, w', hw, hw', hs, hd⟩ := loads_sound (Interpreter.jsonLoads_eq_ok.mp hl)
  exact ⟨hv, w, t, w', _, hw, hw', hs, hd⟩

/-! ### What becomes of an object -/

/-- The outcome of a reply whose block is an object. -/
def outcome (I : Interpreter) (symbol : String) (members : List (String × Json)) :
    Except PyError (Option ExtractedSignal) :=
  match fieldsOf I members with
  | .error e => if e.caught then .ok none else .error e
  | .ok fields =>
    (I.str ((Json.member? fields.members "rationale").getD (.str ""))).map fun rationale ↦
      some ⟨symbol, fields.score, fields.confidence, String.ofList (rationale.toList.take 300)⟩

theorem parseSignal_eq (symbol text : String) : parseSignal I symbol text =
    match block text.toList with
    | none => .ok none
    | some s =>
      match I.jsonLoads s with
      | .error e => if e.caught then .ok none else .error e
      | .ok (.obj members) => outcome I symbol members
      | .ok _ => .ok none := by
  rw [parseSignal, parseChars, block_stripChars]
  cases block text.toList with
  | none => rfl
  | some s =>
    dsimp only
    rw [readFields]
    cases I.jsonLoads s with
    | error e => rfl
    | ok v => cases v <;> rfl

variable {symbol : String} {members : List (String × Json)}

theorem fieldsOf_eq {v : Json} (hv : Json.member? members "score" = some v) :
    fieldsOf I members = I.float v >>= fun score ↦ confidenceOf I members >>= fun confidence ↦
      .ok ⟨members, score.clip (-1) 1, confidence.clip 0 1⟩ := by
  rw [fieldsOf, hv]
  rfl

theorem confidenceOf_eq {c : Json} (hc : Json.member? members "confidence" = some c) :
    confidenceOf I members = I.float c := by
  rw [confidenceOf, hc]

theorem outcome_of_error {e : PyError} (h : fieldsOf I members = .error e) :
    outcome I symbol members = if e.caught then .ok none else .error e := by
  rw [outcome, h]

theorem outcome_signalless (h : Signalless I members) : outcome I symbol members = .ok none := by
  have hcaught : ∃ e, fieldsOf I members = .error e ∧ e.caught := by
    rcases h with h | ⟨v, x, c, hv, hx, hc, e, he, hcaught⟩
    · cases hv : Json.member? members "score" with
      | none => exact ⟨.keyError, by rw [fieldsOf, hv], rfl⟩
      | some v =>
        obtain ⟨e, he, hcaught⟩ := h v hv
        exact ⟨e, by rw [fieldsOf_eq hv, he]; rfl, hcaught⟩
    · exact ⟨e, by rw [fieldsOf_eq hv, hx, confidenceOf_eq hc, he]; rfl, hcaught⟩
  obtain ⟨e, he, hcaught⟩ := hcaught
  rw [outcome_of_error he, if_pos hcaught]

/-- An object without a signal aside, a reply is read or its reader crashes. -/
theorem outcome_cases (symbol : String) (members : List (String × Json)) : Signalless I members ∨
    (∃ e, outcome I symbol members = .error e) ∨
    (∃ signal, outcome I symbol members = .ok (some signal)) ∧
      ∃ r, I.str ((Json.member? members "rationale").getD (.str "")) = .ok r := by
  by_cases hsig : Signalless I members
  · exact .inl hsig
  right
  have hraise : ∀ e, fieldsOf I members = .error e → ¬e.caught →
      ∃ e, outcome I symbol members = .error e := fun e he hc ↦
    ⟨e, by rw [outcome_of_error he, if_neg hc]⟩
  rw [Signalless, not_or] at hsig
  obtain ⟨hscore, hconf⟩ := hsig
  push Not at hscore
  obtain ⟨v, hv, hrefused⟩ := hscore
  cases hx : I.float v with
  | error e =>
    exact .inl (hraise e (by rw [fieldsOf_eq hv, hx]; rfl) fun hc ↦ hrefused ⟨e, hx, hc⟩)
  | ok x =>
    have hfields : (∃ fields, fieldsOf I members = .ok fields ∧ fields.members = members) ∨
        ∃ e, outcome I symbol members = .error e := by
      cases hy : confidenceOf I members with
      | ok y => exact .inl ⟨_, by rw [fieldsOf_eq hv, hx, hy]; rfl, rfl⟩
      | error e =>
        refine .inr (hraise e (by rw [fieldsOf_eq hv, hx, hy]; rfl) fun hcaught ↦ ?_)
        cases hc : Json.member? members "confidence" with
        | none =>
          rw [confidenceOf, hc] at hy
          cases hy
        | some c =>
          rw [confidenceOf_eq hc] at hy
          exact hconf ⟨v, x, c, hv, hx, hc, e, hy, hcaught⟩
    rcases hfields with ⟨fields, hfields, hmembers⟩ | hfields
    · rw [outcome, hfields]
      dsimp only
      rw [hmembers]
      cases hr : I.str ((Json.member? members "rationale").getD (.str "")) with
      | error e => exact .inl ⟨e, rfl⟩
      | ok r => exact .inr ⟨⟨_, rfl⟩, r, rfl⟩
    · exact .inl hfields

theorem outcome_proper (h : Proper I members) (symbol : String) :
    ∃ signal, outcome I symbol members = .ok (some signal) ∧
      ∃ q, (Json.member? members "score").bind finiteNumber? = some q ∧
        signal.score = clip q (-1) 1 ∧
        ∀ v, Json.member? members "confidence" = some v →
          ∃ c, finiteNumber? v = some c ∧ signal.confidence = clip c 0 1 := by
  obtain ⟨-, ⟨v, q, hv, hq⟩, hconf, r, hr⟩ := h
  have hbind : (Json.member? members "score").bind finiteNumber? = some q := by
    rw [hv, Option.bind_some, hq]
  cases hc : Json.member? members "confidence" with
  | none =>
    have hfields : fieldsOf I members =
        .ok ⟨members, (Double.fin q).clip (-1) 1, (Double.fin (1 / 2)).clip 0 1⟩ := by
      rw [fieldsOf_eq hv, float_of_finiteNumber hq, confidenceOf, hc]
      rfl
    rw [outcome, hfields]
    dsimp only
    rw [hr]
    exact ⟨_, rfl, q, hbind, Double.clip_fin .., fun v hv ↦ by cases hv⟩
  | some w =>
    obtain ⟨c, hw⟩ := hconf w hc
    have hfields : fieldsOf I members =
        .ok ⟨members, (Double.fin q).clip (-1) 1, (Double.fin c).clip 0 1⟩ := by
      rw [fieldsOf_eq hv, float_of_finiteNumber hq, confidenceOf_eq hc, float_of_finiteNumber hw]
      rfl
    rw [outcome, hfields]
    dsimp only
    rw [hr]
    refine ⟨_, rfl, q, hbind, Double.clip_fin .., fun v hv ↦ ?_⟩
    cases hv
    exact ⟨c, hw, Double.clip_fin ..⟩

theorem Interpreter.jsonLoads_error {s : List Char} {e : PyError} (h : I.jsonLoads s = .error e) :
    e.caught ∨ e = .recursion := by
  rw [Interpreter.jsonLoads] at h
  split at h
  · cases h
  · cases h
    exact .inl rfl
  · cases h
    exact .inl rfl
  · cases h
    exact .inr rfl

theorem parseSignal_of_harmless {text : String} (h : Harmless I text) (symbol : String) :
    parseSignal I symbol text = .ok none ∨
      ∃ signal, parseSignal I symbol text = .ok (some signal) ∧ ReadsAs text signal := by
  rw [parseSignal_eq]
  cases hs : block text.toList with
  | none => exact .inl rfl
  | some s =>
    obtain ⟨hrec, hobj⟩ := h s hs
    dsimp only
    cases hl : I.jsonLoads s with
    | error e =>
      have hcaught : e.caught := (Interpreter.jsonLoads_error hl).resolve_right fun he ↦
        hrec (he ▸ hl)
      exact .inl (if_pos hcaught)
    | ok v =>
      cases v with
      | obj members =>
        rcases hobj members hl with hsig | hproper
        · exact .inl (outcome_signalless hsig)
        · obtain ⟨signal, hsignal, q, hq, hscore, hconf⟩ := outcome_proper hproper symbol
          exact .inr ⟨signal, hsignal, s, members, q, hs, isJson_of_jsonLoads hl hproper.1, hq,
            hscore, hconf⟩
      | _ => exact .inl rfl

/-! ### The callers -/

theorem signalOf_raises {text : String} {e : PyError}
    (hp : ∀ symbol e, parseSignal I symbol text ≠ .error e) :
    signalOf I symbol (.ok text) ≠ .error (.raised e) := by
  rw [signalOf]
  split
  · next e' he => exact absurd he (hp symbol e')
  · exact fun h ↦ by cases h

theorem extract_raises {σ : Type} {P : Provider σ} {s : σ} {text : String} {e : PyError}
    {headlines : List String} (hp : ∀ symbol e, parseSignal I symbol text ≠ .error e)
    (hP : ∀ r, (P s r).1 = .ok text) :
    (extractNewsSignal I P symbol headlines s).1 ≠ .error (.raised e) := by
  unfold extractNewsSignal
  dsimp only
  split
  · exact fun h ↦ by cases h
  · dsimp only
    rw [hP]
    exact signalOf_raises hp

theorem analyst_raises {σ : Type} {P : Provider σ} {s : σ} {text : String} {e : PyError}
    {role : AnalystRole} {ctx : AnalystContext}
    (hp : ∀ symbol e, parseSignal I symbol text ≠ .error e) (hP : ∀ r, (P s r).1 = .ok text) :
    (runAnalyst I P role ctx s).1 ≠ .error (.raised e) := by
  unfold runAnalyst
  dsimp only
  rw [hP]
  cases hs : signalOf I ctx.symbol (.ok text) with
  | error e' =>
    intro h
    cases h
    exact signalOf_raises hp hs
  | ok signal => exact fun h ↦ by cases h

/-- A reply is read faithfully or not at all if and only if it is harmless. -/
theorem meets_iff_harmless (I : Interpreter) (text : String) :
    Meets I text ↔ Harmless I text := by
  have hparse := fun symbol ↦ parseSignal_eq (I := I) symbol text
  constructor
  · intro h s hs
    rw [hs] at hparse
    dsimp only at hparse
    constructor
    · intro hrec
      rw [hrec] at hparse
      exact h.raises "" _ (hparse "")
    · intro members hl
      rw [hl] at hparse
      dsimp only at hparse
      rcases outcome_cases (I := I) "" members with hsig | ⟨e, he⟩ | ⟨⟨signal, hsignal⟩, r, hr⟩
      · exact .inl hsig
      · exact absurd ((hparse "").trans he) (h.raises "" e)
      · right
        obtain ⟨s', members', q, hs', hjson, hscore, -, hconf⟩ :=
          h.reads "" signal ((hparse "").trans hsignal)
        cases hs.symm.trans hs'
        cases hjson.eq_of_jsonLoads hl
        obtain ⟨v, hv, hq⟩ := Option.bind_eq_some_iff.mp hscore
        exact ⟨hjson.1, ⟨v, q, hv, hq⟩, fun v hv ↦ (hconf v hv).imp fun _ h ↦ h.1, r, hr⟩
  · intro h
    have hraises : ∀ symbol e, parseSignal I symbol text ≠ .error e := by
      intro symbol e he
      rcases parseSignal_of_harmless h symbol with hnone | ⟨signal, hsignal, -⟩
      · cases hnone.symm.trans he
      · cases hsignal.symm.trans he
    refine ⟨hraises, fun symbol signal hsignal ↦ ?_, fun P s symbol headlines e ↦
      extract_raises hraises, fun P s role ctx e ↦ analyst_raises hraises⟩
    rcases parseSignal_of_harmless h symbol with hnone | ⟨signal', hsignal', hreads⟩
    · cases hnone.symm.trans hsignal
    · cases hsignal'.symm.trans hsignal
      exact hreads

/-! ### Replies that are misread -/

/-- A reply with nothing but a score. -/
def scored (score : String) : String := "\x7b\"score\": " ++ score ++ "\x7d"

/-- What is no number passes for the strongest of signals, a text and a truth value pass for
numbers, and an integer of four hundred digits is not refused but raised. -/
theorem reply_misread : parseSignal cpython "A" (scored "NaN") = .ok (some ⟨"A", 1, 1 / 2, ""⟩) ∧
    parseSignal cpython "A" (scored "\"0.5\"") = .ok (some ⟨"A", 1 / 2, 1 / 2, ""⟩) ∧
    parseSignal cpython "A" (scored "true") = .ok (some ⟨"A", 1, 1 / 2, ""⟩) ∧
    ¬Meets cpython (scored "NaN") ∧
    ¬Meets cpython (scored (String.ofList (List.replicate 400 '9'))) := by
  have hnan : parseSignal cpython "A" (scored "NaN") = .ok (some ⟨"A", 1, 1 / 2, ""⟩) := by
    decide +kernel
  refine ⟨hnan, by decide +kernel, by decide +kernel, fun h ↦ ?_, fun h ↦ ?_⟩
  · obtain ⟨s, members, q, hs, hjson, -⟩ := h.reads "A" _ hnan
    have hblock : block (scored "NaN").toList = some (scored "NaN").toList := by decide +kernel
    have hconst : (cpython.jsonLoads (scored "NaN").toList).toOption.map Json.standard =
        some false := by decide +kernel
    cases hblock.symm.trans hs
    cases hl : cpython.jsonLoads (scored "NaN").toList with
    | error e =>
      rw [hl] at hconst
      cases hconst
    | ok v =>
      rw [hl] at hconst
      cases hjson.eq_of_jsonLoads hl
      exact absurd (hjson.1.symm.trans (Option.some_inj.mp hconst)) (by decide)
  · refine h.raises "A" .overflow ?_
    have htext : ∀ l, (scored (String.ofList l)).toList =
        "\x7b\"score\": ".toList ++ (l ++ ['\x7d']) := fun l ↦ by
      simp [scored]
    have hparse : parseChars cpython "A"
        ("\x7b\"score\": ".toList ++ (List.replicate 400 '9' ++ ['\x7d'])) =
        .error .overflow := by
      decide +kernel
    rw [parseSignal, htext, hparse]

end MarketTrader.Reasoning

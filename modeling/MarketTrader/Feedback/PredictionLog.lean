import MarketTrader.Core.Identity
import MarketTrader.Library.Rounding
import MarketTrader.Storage.Bitemporal

namespace MarketTrader.Feedback

open Library MarketTrader.Core Storage InMemoryBitemporalStore

def predictionDataset : String := "forecast.prediction"

structure PredictionRecord where
  asOf : Datetime
  symbol : String
  probability : ℚ
  horizonDays : ℤ
  modelVersion : String
  features : List (String × ℚ) := []

def PredictionRecord.toObservation (D : Digests) (rec : PredictionRecord) : Observation :=
  withDeterministicId D
    { source := "forecast"
      dataset := predictionDataset
      entityType := "equity"
      entityId := rec.symbol
      ref := some rec.modelVersion
      eventTime := rec.asOf
      knowledgeTime := rec.asOf
      value := .ofList [("probability", .num rec.probability),
        ("horizon_days", .num rec.horizonDays),
        ("model_version", .str rec.modelVersion)]
      metadata := .ofList [("features", .nums rec.features)] }

def logPredictions (D : Digests) (store : InMemoryBitemporalStore)
    (records : List PredictionRecord) : InMemoryBitemporalStore :=
  upsertMany store (records.map (PredictionRecord.toObservation D))

inductive PredictionError
  | keyError (field : String)
  | valueError (field : String)
deriving DecidableEq

def numberField (o : Observation) (field : String) : Except PredictionError ℚ :=
  match o.get? field with
  | none => .error (.keyError field)
  | some v =>
    match v.float? with
    | none => .error (.valueError field)
    | some q => .ok q

def featuresField (o : Observation) : Except PredictionError (List (String × ℚ)) :=
  match Dict.get? o.metadata "features" with
  | none => .ok []
  | some (.nums d) => .ok d
  | some _ => .error (.valueError "features")

def PredictionRecord.ofObservation (o : Observation) : Except PredictionError PredictionRecord :=
  match numberField o "probability", numberField o "horizon_days", o.get? "model_version",
    featuresField o with
  | .ok probability, .ok horizonDays, some version, .ok features =>
    .ok
      { asOf := o.eventTime
        symbol := o.entityId
        probability := probability
        horizonDays := truncate horizonDays
        modelVersion := version.text
        features := features }
  | .error e, _, _, _ | _, .error e, _, _ | _, _, _, .error e => .error e
  | _, _, none, _ => .error (.keyError "model_version")

def readRecords : List Observation → Except PredictionError (List PredictionRecord)
  | [] => .ok []
  | o :: observations =>
    match PredictionRecord.ofObservation o, readRecords observations with
    | .ok r, .ok records => .ok (r :: records)
    | .error e, _ | _, .error e => .error e

def loadPredictions (store : InMemoryBitemporalStore) (asOf : Datetime)
    (modelVersion : Option String) : Except PredictionError (List PredictionRecord) :=
  (readRecords (store.asOf asOf { dataset := some predictionDataset })).map
    (List.filter (fun r ↦ modelVersion.all (r.modelVersion = ·)))

end MarketTrader.Feedback

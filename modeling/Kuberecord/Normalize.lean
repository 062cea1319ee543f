import Kuberecord.HashCache
import Kuberecord.Redaction
import Mathlib.Data.List.Sort

namespace Kuberecord

/--
What the pipeline takes from its libraries: `encoding/json`, SHA-256 in hex, zstd and jsondiff.
-/
structure Lib where
  marshal : Json → Option Bytes
  sha256 : Bytes → String
  zstd : Zstd
  compareJSON : Bytes → Bytes → Option Json

structure NormalizedObject where
  json : Bytes
  hash : String
  uid : String
  resourceVersion : String
  apiVersion : String
  labels : List (String × String)
  actors : List String
deriving DecidableEq

def actorsAnnotation : String := "internal.kuberecord.io/actors"

def decodeActors (value : String) : List String :=
  ((value.toList.splitOn ',').map String.ofList).filter (· ≠ "")

def extractActors (obj : Json) : List String :=
  match obj.nested? ["metadata", "managedFields"] with
  | some (.arr managedFields) =>
    let seen := managedFields.filterMap (fun entry => entry.fields?.map (fun m =>
      let manager := ((m.lookup "manager").bind Json.string?).getD ""
      if manager = "" then "unknown" else manager))
    seen.dedup.insertionSort (· ≤ ·)
  | _ => []

def stripField (stripActors : Bool) (f : String × Json) : Option (String × Json) :=
  if f.1 = "managedFields" ∨ f.1 = "resourceVersion" ∨ f.1 = "generation" then none
  else if f.1 = "annotations" ∧ stripActors then
    match f.2 with
    | .obj existing =>
      -- when ours was the only annotation the map goes too
      if existing.length = 1 then none
      else some (f.1, .obj (existing.filter (fun a => a.1 ≠ actorsAnnotation)))
    | _ => some f
  else some f

def stripMetadata (stripActors : Bool) (metadata : Fields) : Fields :=
  metadata.filterMap (stripField stripActors)

def stripVolatileFields (object : Json) (stripActors : Bool) : Json :=
  match object with
  | .obj fields =>
    match fields.lookup "metadata" with
    | some (.obj metadata) => .obj
        (setField "metadata" (.obj (stripMetadata stripActors metadata)) fields)
    | _ => object
  | _ => object

def normalizeObject (lib : Lib) (obj : Json) (policy : Option RedactionPolicy) :
    Option NormalizedObject :=
  let actorsValue := obj.getAnnotations.lookup actorsAnnotation
  (lib.marshal (RedactionPolicy.apply policy (stripVolatileFields obj actorsValue.isSome))).map
    (fun objJSON => {
    json := objJSON
    hash := lib.sha256 objJSON
    uid := obj.getUID
    resourceVersion := obj.getResourceVersion
    apiVersion := obj.version
    labels := obj.getLabels
    actors := match actorsValue with
      | some value => decodeActors value
      | none => extractActors obj })

section

variable {lib : Lib} {obj : Json} {policy : Option RedactionPolicy} {norm : NormalizedObject}

theorem normalizeObject_json (h : normalizeObject lib obj policy = some norm) :
    ∃ v, lib.marshal v = some norm.json := by
  obtain ⟨json, hj, rfl⟩ := Option.map_eq_some_iff.mp h
  exact ⟨_, hj⟩

theorem normalizeObject_hash (h : normalizeObject lib obj policy = some norm) :
    norm.hash = lib.sha256 norm.json := by
  obtain ⟨json, -, rfl⟩ := Option.map_eq_some_iff.mp h
  rfl

theorem normalizeObject_uid (h : normalizeObject lib obj policy = some norm) :
    norm.uid = obj.getUID := by
  obtain ⟨json, -, rfl⟩ := Option.map_eq_some_iff.mp h
  rfl

end

end Kuberecord

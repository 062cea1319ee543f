import Kuberecord.Json
import Mathlib.Data.List.Sort
import Mathlib.Data.String.Basic

namespace Kuberecord

structure RedactionSegment where
  name : String
  wildcard : Bool := false
deriving DecidableEq

structure RedactionPath where
  raw : String
  segments : List RedactionSegment
  nonempty : segments ≠ []
deriving DecidableEq

structure RedactionPolicy where
  paths : List RedactionPath

def redactionSentinel : String := "[REDACTED]"

def lastAppliedConfigAnnotation : String := "kubectl.kubernetes.io/last-applied-configuration"

def builtinRedaction : RedactionPolicy where
  paths := [{
    raw := "metadata.annotations[\"" ++ lastAppliedConfigAnnotation ++ "\"]"
    segments := [{ name := "metadata" }, { name := "annotations" },
    { name := lastAppliedConfigAnnotation }]
    nonempty := by simp }]

def sortPaths (paths : List RedactionPath) : List RedactionPath := paths.insertionSort (·.raw ≤ ·.raw)

def distinctPaths (paths : List RedactionPath) : List RedactionPath :=
  paths.foldl (fun merged path => if merged.any (·.raw = path.raw) then merged else merged ++ [path]) []

def compileRedaction (parseRedactionPath : String → Except String RedactionPath) (paths : List String) :
    Except String RedactionPolicy := do
  let compiled ← paths.mapM parseRedactionPath
  return { paths := sortPaths (distinctPaths (compiled ++ builtinRedaction.paths)) }

def mergeRedaction (policies : List (Option RedactionPolicy)) : Option RedactionPolicy :=
  let merged := distinctPaths (policies.flatMap fun policy => (policy.map RedactionPolicy.paths).getD [])
  if merged = [] then none else some { paths := sortPaths merged }

def redactElements (redact : Json → Option Json) : Json → Option Json
  | .arr items =>
    if items.any (fun item => (redact item).isSome) then
      some (.arr (items.map (fun item => (redact item).getD item)))
    else none
  | _ => none

def redactValue : List RedactionSegment → Json → Option Json
  | [], .str existing => if existing = redactionSentinel then none else some (.str redactionSentinel)
  | [], _ => some (.str redactionSentinel)
  | segment :: segments, .obj object =>
    match object.lookup segment.name with
    | none => none
    | some child =>
      let replacement :=
        if segment.wildcard then redactElements (redactValue segments) child
        else redactValue segments child
      replacement.map (fun r => .obj (setField segment.name r object))
  | _ :: _, _ => none

def RedactionPolicy.apply (p : Option RedactionPolicy) (object : Json) : Json :=
  (p.getD builtinRedaction).paths.foldl
    (fun current path => (redactValue path.segments current).getD current) object

end Kuberecord

import Mathlib.Data.List.Basic

namespace Kuberecord

/-- A decoded JSON document. A map is the list of its fields, and floats keep their text. -/
inductive Json
  | null
  | bool (b : Bool)
  | int (n : Int)
  | float (text : String)
  | str (s : String)
  | arr (items : List Json)
  | obj (fields : List (String × Json))

abbrev Fields := List (String × Json)

def setField (name : String) (v : Json) : Fields → Fields
  | [] => []
  | (k, w) :: fields => if k = name then (k, v) :: fields else (k, w) :: setField name v fields

theorem setField_lookup {name : String} {v : Json} {fields : Fields} (h : fields.lookup name = some v) :
    setField name v fields = fields := by
  induction fields with
  | nil => rfl
  | cons f fields ih =>
    obtain ⟨k, w⟩ := f
    by_cases hk : k = name
    · subst hk
      simp only [List.lookup_cons_self, Option.some.injEq] at h
      simp [setField, h]
    · rw [List.lookup_cons, beq_false_of_ne (Ne.symm hk)] at h
      simp [setField, hk, ih h]

namespace Json

def get? : Json → String → Option Json
  | .obj fields, name => fields.lookup name
  | _, _ => none

def string? : Json → Option String
  | .str s => some s
  | _ => none

def coercedString? : Json → Option String
  | .null => some ""
  | v => v.string?

def fields? : Json → Option Fields
  | .obj fields => some fields
  | _ => none

def nested? (v : Json) (path : List String) : Option Json := path.foldlM get? v

def nestedString (v : Json) (path : List String) : String := ((v.nested? path).bind string?).getD ""

def nestedStringMap (v : Json) (path : List String) : Option (List (String × String)) :=
  ((v.nested? path).bind fields?).bind (·.mapM (fun f => f.2.coercedString?.map (f.1, ·)))

def getUID (obj : Json) : String := obj.nestedString ["metadata", "uid"]

def getResourceVersion (obj : Json) : String := obj.nestedString ["metadata", "resourceVersion"]

def getLabels (obj : Json) : List (String × String) :=
  (obj.nestedStringMap ["metadata", "labels"]).getD []

def getAnnotations (obj : Json) : List (String × String) :=
  (obj.nestedStringMap ["metadata", "annotations"]).getD []

def version (obj : Json) : String :=
  match (obj.nestedString ["apiVersion"]).toList.splitOn '/' with
  | [v] | [_, v] => String.ofList v
  | _ => ""

end Json

end Kuberecord

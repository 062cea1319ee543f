import Kuberecord.Lookalikes
import Mathlib.Data.List.Dedup

namespace Kuberecord

def encodeActors (actors : List String) : String := ",".intercalate actors

def setAnnotations (annotations : List (String × String)) (metadata : Fields) : Fields :=
  Keyed.put "annotations" (.obj (annotations.map fun a => (a.1, .str a.2))) metadata

def transformObject (obj : Json) : Json :=
  match obj with
  | .obj fields =>
    match fields.lookup "metadata" with
    | some (.obj metadata) =>
      if (metadata.lookup "managedFields").isSome then
        let actors := extractActors obj
        let annotated :=
          if actors = [] then metadata
          else
            setAnnotations (Keyed.put actorsAnnotation (encodeActors actors) obj.getAnnotations)
              metadata
        .obj (setField "metadata" (.obj (annotated.filter (·.1 ≠ "managedFields"))) fields)
      else obj
    | _ => obj
  | _ => obj

theorem lookup_setField {name : String} {v w : Json} {fields : Fields}
    (h : fields.lookup name = some w) :
    (setField name v fields).lookup name = some v := by
  induction fields with
  | nil => cases h
  | cons f fields ih =>
    obtain ⟨k, x⟩ := f
    by_cases hk : k = name
    · simp [setField, hk]
    · rw [List.lookup_cons, beq_false_of_ne (Ne.symm hk)] at h
      rw [setField, if_neg hk, List.lookup_cons, beq_false_of_ne (Ne.symm hk)]
      exact ih h

theorem setField_setField (name : String) (v w : Json) (fields : Fields) :
    setField name v (setField name w fields) = setField name v fields := by
  induction fields with
  | nil => rfl
  | cons f fields ih =>
    obtain ⟨k, x⟩ := f
    by_cases hk : k = name
    · simp [setField, hk]
    · simp [setField, hk, ih]

def transformMetadata (obj : Json) (metadata : Fields) : Fields :=
  (if extractActors obj = [] then metadata
    else setAnnotations
      (Keyed.put actorsAnnotation (encodeActors (extractActors obj)) obj.getAnnotations)
      metadata).filter (·.1 ≠ "managedFields")

theorem transformObject_cases (obj : Json) :
    (transformObject obj = obj ∧ obj.nested? ["metadata", "managedFields"] = none) ∨
      ∃ fields metadata, obj = .obj fields ∧ fields.lookup "metadata" = some (.obj metadata) ∧
        transformObject obj = .obj (setField "metadata"
            (.obj (transformMetadata obj metadata)) fields) := by
  cases obj with
  | obj fields =>
    cases hm : fields.lookup "metadata" with
    | none => exact .inl ⟨by simp [transformObject, hm], by simp [Json.nested?, Json.get?, hm]⟩
    | some v =>
      cases v with
      | obj metadata =>
        cases hf : metadata.lookup "managedFields" with
        | none => exact .inl ⟨by simp [transformObject, hm, hf], by simp [Json.nested?,
            Json.get?, hm, hf]⟩
        | some w => exact .inr ⟨fields, metadata, rfl, hm,
            by simp [transformObject, hm, hf, transformMetadata]⟩
      | _ => exact .inl ⟨by simp [transformObject, hm], by simp [Json.nested?, Json.get?, hm]⟩
  | _ => exact .inl ⟨rfl, rfl⟩

theorem transformObject_idempotent (obj : Json) :
    transformObject (transformObject obj) = transformObject obj := by
  rcases transformObject_cases obj with ⟨h, -⟩ | ⟨fields, metadata, rfl, hm, h⟩
  · rw [h, h]
  · have hnone : (transformMetadata (.obj fields) metadata).lookup "managedFields" = none :=
      Keyed.lookup_filter_self
    rw [h, transformObject]
    simp [lookup_setField hm, hnone]

section

variable {metadata : Fields}

theorem stripMetadata_filter (b : Bool) (metadata : Fields) :
    stripMetadata b (metadata.filter (·.1 ≠ "managedFields")) = stripMetadata b metadata := by
  rw [stripMetadata, stripMetadata, List.filterMap_filter]
  refine List.filterMap_congr fun f _ => ?_
  by_cases hf : f.1 = "managedFields"
  · simp [hf, stripField]
  · simp [hf]

theorem stripField_of_ne {b : Bool} {f : String × Json} (h : f.1 ≠ "annotations") :
    stripField b f = stripField false f := by
  simp [stripField, h]

theorem stripMetadata_of_lookup_none (h : metadata.lookup "annotations" = none) (b : Bool) :
    stripMetadata b metadata = stripMetadata false metadata := by
  rw [stripMetadata, stripMetadata]
  refine List.filterMap_congr fun f hf => stripField_of_ne fun hn => ?_
  exact absurd h ((Keyed.mem_fst_iff _ _).mp (hn ▸ List.mem_map_of_mem hf))

theorem stripMetadata_put_of_none {v : Json} {a : String × Json}
    (h : metadata.lookup "annotations" = none) (hv : v = .obj [a]) :
    stripMetadata true (Keyed.put "annotations" v metadata) =
    stripMetadata false metadata := by
  rw [Keyed.put_of_lookup_none h, ← stripMetadata_of_lookup_none h true, stripMetadata, stripMetadata,
    List.filterMap_append, hv]
  simp [stripField]

theorem stripMetadata_put {existing : Fields} {w : Json} (hkeys : (metadata.map Prod.fst).Nodup)
    (h : metadata.lookup "annotations" = some (.obj existing)) (hne : existing ≠ [])
    (ha : ∀ f ∈ existing, f.1 ≠ actorsAnnotation) :
    stripMetadata true (Keyed.put "annotations" (.obj (existing ++ [Prod.mk actorsAnnotation w]))
        metadata) =
      stripMetadata false metadata := by
  have hlen : (existing ++ [Prod.mk actorsAnnotation w]).length ≠ 1 := by
    have := List.length_pos_of_ne_nil hne
    simp only [List.length_append, List.length_singleton]
    omega
  have hfilter : (existing ++ [Prod.mk actorsAnnotation w]).filter (fun a =>
    a.1 ≠ actorsAnnotation) = existing := by
    rw [List.filter_append, List.filter_eq_self.mpr fun f hf => by simpa using ha f hf]
    simp
  induction metadata with
  | nil => cases h
  | cons f metadata ih =>
    obtain ⟨k, v⟩ := f
    rw [List.map_cons, List.nodup_cons] at hkeys
    by_cases hk : k = "annotations"
    · subst hk
      rw [List.lookup_cons_self, Option.some.injEq] at h
      have hrest : metadata.lookup "annotations" = none := by
        by_contra hn
        exact hkeys.1 ((Keyed.mem_fst_iff _ _).mpr hn)
      have hstrip := stripMetadata_of_lookup_none hrest true
      rw [stripMetadata, stripMetadata] at hstrip
      rw [Keyed.put, if_pos rfl, stripMetadata, stripMetadata, List.filterMap_cons,
        List.filterMap_cons, hstrip, h]
      simp only [stripField, hlen, hfilter]
      simp
    · rw [List.lookup_cons, beq_false_of_ne (Ne.symm hk)] at h
      have ih := ih hkeys.2 h
      rw [stripMetadata, stripMetadata] at ih
      rw [Keyed.put, if_neg hk, stripMetadata, stripMetadata, List.filterMap_cons,
        List.filterMap_cons, ih, stripField_of_ne hk]

end

def stringFields (strings : List (String × String)) : Fields := strings.map fun a => (a.1, .str a.2)

theorem mapM_stringFields (strings : List (String × String)) :
    (stringFields strings).mapM (fun f => f.2.coercedString?.map (f.1, ·)) = some strings := by
  induction strings with
  | nil => rfl
  | cons a strings ih =>
    rw [stringFields, List.map_cons, List.mapM_cons, ← stringFields, ih]
    rfl

section

variable {fields metadata : Fields}

theorem nested?_metadata (hm : fields.lookup "metadata" = some (.obj metadata)) (name : String) :
    (Json.obj fields).nested? ["metadata", name] = metadata.lookup name := by
  simp [Json.nested?, Json.get?, hm]

theorem transformMetadata_annotations (obj : Json) (metadata : Fields) :
    (transformMetadata obj metadata).lookup "annotations" =
      if extractActors obj = [] then metadata.lookup "annotations"
      else some (.obj (stringFields (Keyed.put actorsAnnotation
          (encodeActors (extractActors obj)) obj.getAnnotations))) := by
  rw [transformMetadata, Keyed.lookup_filter_ne (by decide)]
  split_ifs
  · rfl
  · rw [setAnnotations, Keyed.lookup_put, if_pos rfl]
    rfl

theorem transformObject_annotations (hm : fields.lookup "metadata" = some (.obj metadata))
    (h : transformObject (.obj fields) =
      .obj (setField "metadata" (.obj (transformMetadata (.obj fields) metadata)) fields)) :
    (transformObject (.obj fields)).getAnnotations =
      if extractActors (.obj fields) = [] then (Json.obj fields).getAnnotations
      else Keyed.put actorsAnnotation (encodeActors (extractActors (.obj fields)))
        (Json.obj fields).getAnnotations := by
  rw [h]
  unfold Json.getAnnotations Json.nestedStringMap
  rw [nested?_metadata (lookup_setField hm), transformMetadata_annotations, nested?_metadata hm]
  split_ifs
  · rfl
  · rw [Option.bind_some, Json.fields?, Option.bind_some, mapM_stringFields, Option.getD_some]
    unfold Json.getAnnotations Json.nestedStringMap
    rw [nested?_metadata hm]

theorem stripVolatileFields_obj (hm : fields.lookup "metadata" = some (.obj metadata)) (b : Bool) :
    stripVolatileFields (.obj fields) b = .obj
      (setField "metadata" (.obj (stripMetadata b metadata)) fields) := by
  simp only [stripVolatileFields, hm]

theorem strip_transformMetadata (hm : fields.lookup "metadata" = some (.obj metadata))
    (hkeys : (metadata.map Prod.fst).Nodup)
    (ha : metadata.lookup "annotations" = none ∨ ∃ strings, strings ≠ [] ∧
      metadata.lookup "annotations" = some (.obj (stringFields strings)))
    (hactors : (Json.obj fields).getAnnotations.lookup actorsAnnotation = none)
    (hne : extractActors (.obj fields) ≠ []) :
    stripMetadata true (transformMetadata (.obj fields) metadata) = stripMetadata false metadata := by
  rw [transformMetadata, stripMetadata_filter, if_neg hne, setAnnotations,
    Keyed.put_of_lookup_none hactors]
  rcases ha with ha | ⟨strings, hs, ha⟩
  · have hnone : (Json.obj fields).getAnnotations = [] := by
      unfold Json.getAnnotations Json.nestedStringMap
      rw [nested?_metadata hm, ha]
      rfl
    rw [hnone]
    exact stripMetadata_put_of_none ha rfl
  · have hsome : (Json.obj fields).getAnnotations = strings := by
      unfold Json.getAnnotations Json.nestedStringMap
      rw [nested?_metadata hm, ha, Option.bind_some, Json.fields?, Option.bind_some, mapM_stringFields]
      rfl
    rw [hsome] at hactors ⊢
    rw [List.map_append]
    refine stripMetadata_put hkeys ha (by simpa [stringFields] using hs) fun f hf hname => ?_
    obtain ⟨a, hmem, rfl⟩ := List.mem_map.mp hf
    exact absurd hactors ((Keyed.mem_fst_iff _ _).mp (hname ▸ List.mem_map_of_mem hmem))

end

theorem transform_invisible (lib : Lib) (policy : Option RedactionPolicy) (obj : Json)
    (hkeys : ∀ metadata, obj.nested? ["metadata"] = some (.obj metadata) → (metadata.map Prod.fst).Nodup)
    (ha : obj.nested? ["metadata", "annotations"] = none ∨
      ∃ strings, strings ≠ [] ∧
        obj.nested? ["metadata", "annotations"] = some (.obj (stringFields strings)))
    (hactors : obj.getAnnotations.lookup actorsAnnotation = none) :
    ((normalizeObject lib (transformObject obj) policy).map fun norm => (norm.json, norm.hash)) =
        ((normalizeObject lib obj policy).map fun norm => (norm.json, norm.hash)) ∧
      transformObject (transformObject obj) = transformObject obj := by
  refine ⟨?_, transformObject_idempotent obj⟩
  have hstrip : stripVolatileFields (transformObject obj)
      ((transformObject obj).getAnnotations.lookup actorsAnnotation).isSome =
        stripVolatileFields obj (obj.getAnnotations.lookup actorsAnnotation).isSome := by
    rcases transformObject_cases obj with ⟨h, -⟩ | ⟨fields, metadata, rfl, hm, h⟩
    · rw [h]
    · rw [transformObject_annotations hm h, h, hactors, stripVolatileFields_obj (lookup_setField hm),
        stripVolatileFields_obj hm, setField_setField]
      by_cases hne : extractActors (.obj fields) = []
      · rw [if_pos hne, hactors, transformMetadata, stripMetadata_filter, if_pos hne]
      · rw [nested?_metadata hm] at ha
        rw [if_neg hne, Keyed.lookup_put, if_pos rfl]
        rw [Option.isSome_some, strip_transformMetadata hm (hkeys metadata ?_) ha hactors hne]
        · rfl
        · simp [Json.nested?, Json.get?, hm]
  simp only [normalizeObject, Option.map_map, hstrip]
  rfl

def constantLib : Lib := ⟨fun _ => some [], fun _ => "h", ⟨none, none⟩, fun _ _ => none⟩

def deployed (managers : List String) : Json :=
  .obj [("metadata", .obj [("annotations", .obj [("note", .str "n")]),
    ("managedFields", .arr (managers.map fun m => .obj [("manager", .str m)])), ("uid", .str "u")])]

theorem deployed_hash_kept :
    ((normalizeObject constantLib (transformObject (deployed ["kubectl", "argocd"])) none).map
        fun norm => (norm.json, norm.hash)) =
      ((normalizeObject constantLib (deployed ["kubectl", "argocd"]) none).map
        fun norm => (norm.json, norm.hash)) ∧
      transformObject (transformObject (deployed ["kubectl", "argocd"])) =
        transformObject (deployed ["kubectl", "argocd"]) := by
  refine transform_invisible _ none _ (fun metadata h => ?_) (.inr ⟨[("note", "n")], by decide, rfl⟩) rfl
  cases h
  decide

theorem extractActors_ne {obj : Json} {actor : String} (h : actor ∈ extractActors obj) : actor ≠ "" := by
  unfold extractActors at h
  split at h
  · rw [List.mem_insertionSort, List.mem_dedup, List.mem_filterMap] at h
    obtain ⟨entry, -, h⟩ := h
    obtain ⟨m, -, h⟩ := Option.map_eq_some_iff.mp h
    dsimp only at h
    split_ifs at h with he
    · rw [← h]
      decide
    · rwa [← h]
  · cases h

theorem decodeActors_encodeActors {actors : List String} (hne : ∀ actor ∈ actors, actor ≠ "")
    (hcomma : ∀ actor ∈ actors, ',' ∉ actor.toList) : decodeActors (encodeActors actors) = actors := by
  have hself : actors.filter (· ≠ "") = actors :=
    List.filter_eq_self.mpr fun a ha => by simpa using hne a ha
  have hsep : ",".toList = [','] := rfl
  rw [decodeActors, encodeActors, String.toList_intercalate, hsep]
  cases actors with
  | nil => decide
  | cons actor actors =>
    rw [List.splitOn_intercalate ',' (fun l hl => ?_) (by simp), List.map_map]
    · have hid : String.ofList ∘ String.toList = id := funext fun s => String.ofList_toList
      rw [hid, List.map_id, hself]
    · obtain ⟨a, ha, rfl⟩ := List.mem_map.mp hl
      exact hcomma a ha

theorem normalizeObject_actors {lib : Lib} {obj : Json} {policy : Option RedactionPolicy}
    {norm : NormalizedObject} (h : normalizeObject lib obj policy = some norm) : norm.actors =
      match obj.getAnnotations.lookup actorsAnnotation with
      | some value => decodeActors value
      | none => extractActors obj := by
  obtain ⟨json, -, rfl⟩ := Option.map_eq_some_iff.mp h
  rfl

theorem notMem_of_mem_splitOn {α : Type} [DecidableEq α] {x : α} {xs piece : List α}
    (h : piece ∈ xs.splitOn x) :
    x ∉ piece := by
  induction xs generalizing piece with
  | nil =>
    rw [List.splitOn_nil, List.mem_singleton] at h
    simp [h]
  | cons y xs ih =>
    rw [List.splitOn_cons_eq_if_modifyHead] at h
    split_ifs at h with hy
    · rcases List.mem_cons.mp h with rfl | h
      · exact List.not_mem_nil
      · exact ih h
    · obtain ⟨first, pieces, hp⟩ := List.exists_cons_of_ne_nil (List.splitOn_ne_nil x xs)
      rw [hp] at ih h
      rcases List.mem_cons.mp h with rfl | h
      · have hne : x ≠ y := fun he => hy (by simp [he])
        exact List.not_mem_cons_of_ne_of_not_mem hne (ih (.head _))
      · exact ih (.tail _ h)

theorem comma_notMem_of_mem_decodeActors {value actor : String} (h : actor ∈ decodeActors value) :
    ',' ∉ actor.toList := by
  obtain ⟨piece, hp, rfl⟩ := List.mem_map.mp (List.mem_filter.mp h).1
  rw [String.toList_ofList]
  exact notMem_of_mem_splitOn hp

theorem transform_keeps_actors {lib : Lib} {policy : Option RedactionPolicy} {obj : Json}
    (hactors : obj.getAnnotations.lookup actorsAnnotation = none) {norm norm' : NormalizedObject}
    (hn : normalizeObject lib obj policy = some norm)
    (hn' : normalizeObject lib (transformObject obj) policy = some norm') :
    norm.actors = extractActors obj ∧
      (norm'.actors = norm.actors ↔ ∀ actor ∈ extractActors obj, ',' ∉ actor.toList) := by
  have hold : norm.actors = extractActors obj := by rw [normalizeObject_actors hn, hactors]
  refine ⟨hold, ?_⟩
  rw [hold, normalizeObject_actors hn']
  rcases transformObject_cases obj with ⟨h, hnone⟩ | ⟨fields, metadata, rfl, hm, h⟩
  · have hempty : extractActors obj = [] := by simp only [extractActors, hnone]
    rw [h, hactors, hempty]
    simp
  · rw [transformObject_annotations hm h]
    by_cases hne : extractActors (.obj fields) = []
    · have hgone : (transformObject (.obj fields)).nested? ["metadata", "managedFields"] = none := by
        rw [h, nested?_metadata (lookup_setField hm)]
        exact Keyed.lookup_filter_self
      rw [if_pos hne, hactors, hne]
      simp [extractActors, hgone]
    · rw [if_neg hne, Keyed.lookup_put, if_pos rfl]
      constructor
      · intro heq actor ha
        exact comma_notMem_of_mem_decodeActors (heq ▸ ha)
      · exact decodeActors_encodeActors fun a => extractActors_ne

theorem deployed_actors_kept : ∃ norm norm' : NormalizedObject,
    normalizeObject constantLib (deployed ["kubectl", "argocd"]) none = some norm ∧
    normalizeObject constantLib (transformObject (deployed ["kubectl", "argocd"])) none = some norm' ∧
    norm'.actors = norm.actors ∧ norm.actors = ["argocd", "kubectl"] := by
  have hn : normalizeObject constantLib (deployed ["kubectl", "argocd"]) none = some _ := rfl
  have hn' : normalizeObject constantLib (transformObject (deployed ["kubectl", "argocd"])) none =
    some _ := rfl
  obtain ⟨hold, hiff⟩ := transform_keeps_actors rfl hn hn'
  exact ⟨_, _, hn, hn', hiff.mpr (by decide), hold.trans (by decide)⟩

theorem comma_splits_actor : ∃ norm norm' : NormalizedObject,
    normalizeObject constantLib (deployed ["a,b"]) none = some norm ∧
    normalizeObject constantLib (transformObject (deployed ["a,b"])) none = some norm' ∧
    norm.actors = ["a,b"] ∧ norm'.actors = ["a", "b"] :=
  ⟨_, _, rfl, rfl, by decide, by decide⟩

end Kuberecord

import Kuberecord.Lookalikes
import Kuberecord.Process
import Kuberecord.RedactionRules

namespace Kuberecord

/-- No path of the policy leads to a label, to the labels or to the metadata. -/
def RedactionPolicy.SparesLabels (p : Option RedactionPolicy) : Prop :=
  ∀ route ∈ routes p, route ≠ [{ name := "metadata" }] ∧
    route ≠ [{ name := "metadata" }, { name := "labels" }] ∧
    ∀ label, route ≠ [{ name := "metadata" }, { name := "labels" }, { name := label }]

section

variable {routes : List Route} {elements : List Route} {fields fields' : Fields} {v v' : Json}

theorem Agree.fields? (h : Agree routes elements v v') (hr : [] ∉ routes) :
    v.fields? = none ∧ v'.fields? = none ∨
      ∃ fields fields', v = .obj fields ∧ v' = .obj fields' ∧ AgreeFields routes fields fields' := by
  cases v with
  | obj fields =>
    obtain ⟨fields', rfl, hf⟩ := (agree_obj hr).mp h
    exact .inr ⟨fields, fields', rfl, rfl, hf⟩
  | arr items =>
    obtain ⟨items', rfl, -⟩ := (agree_arr hr).mp h
    exact .inl ⟨rfl, rfl⟩
  | null | bool | int | float | str =>
    obtain rfl := (agree_scalar rfl hr).mp h
    exact .inl ⟨rfl, rfl⟩

theorem Agree.coercedString? (h : Agree routes elements v v') (hr : [] ∉ routes) :
    v'.coercedString? = v.coercedString? := by
  cases v with
  | obj fields =>
    obtain ⟨fields', rfl, -⟩ := (agree_obj hr).mp h
    rfl
  | arr items =>
    obtain ⟨items', rfl, -⟩ := (agree_arr hr).mp h
    rfl
  | null | bool | int | float | str =>
    obtain rfl := (agree_scalar rfl hr).mp h
    rfl

theorem AgreeFields.strings (h : AgreeFields routes fields fields')
    (hr : ∀ name, [] ∉ under name routes) :
    (fields'.mapM fun f => f.2.coercedString?.map (f.1, ·)) = fields.mapM fun f =>
    f.2.coercedString?.map (f.1, ·) := by
  induction fields generalizing routes fields' with
  | nil => rw [show fields' = [] from h]
  | cons f fields ih =>
    obtain ⟨name, v⟩ := f
    obtain ⟨v', rest, rfl, hv, hrest⟩ := h
    have hbeside : ∀ name', [] ∉ under name' (beside name routes) :=
      fun name' hm => hr name' (under_mono beside_subset hm)
    rw [List.mapM_cons, List.mapM_cons, ih hrest hbeside, hv.coercedString? (hr name)]

end

section

variable {p : Option RedactionPolicy} {obj obj' : Json}

theorem RedactionPolicy.root_notMem_routes : [] ∉ routes p := by
  intro h
  obtain ⟨path, -, hp⟩ := List.mem_map.mp h
  exact path.nonempty hp

theorem getLabels_of_agree (hp : RedactionPolicy.SparesLabels p)
    (h : Agree (RedactionPolicy.routes p) [] obj obj') :
    obj'.getLabels = obj.getLabels := by
  have hmetadata : [] ∉ under "metadata" (RedactionPolicy.routes p) :=
    fun hm => (hp _ (mem_under.mp hm)).1 rfl
  have hlabels : [] ∉ under "labels" (under "metadata" (RedactionPolicy.routes p)) := fun hm =>
    (hp _ (mem_under.mp (mem_under.mp hm))).2.1 rfl
  have hlabel (name : String) : [] ∉ under name
    (under "labels" (under "metadata" (RedactionPolicy.routes p))) :=
    fun hm => (hp _ (mem_under.mp (mem_under.mp (mem_under.mp hm)))).2.2 name rfl
  have hnested (v : Json) : v.nested? ["metadata", "labels"] =
    (v.get? "metadata").bind (·.get? "labels") := by
    simp [Json.nested?, List.foldlM_cons, List.foldlM_nil]
  unfold Json.getLabels Json.nestedStringMap
  rw [hnested, hnested]
  rcases h.get? RedactionPolicy.root_notMem_routes "metadata" with ⟨hn, hn'⟩ | ⟨w, w', hw, hw', ha⟩
  · rw [hn, hn']
  · rw [hw, hw', Option.bind_some, Option.bind_some]
    rcases ha.get? hmetadata "labels" with ⟨hn, hn'⟩ | ⟨u, u', hu, hu', hl⟩
    · rw [hn, hn']
    · rw [hu, hu', Option.bind_some, Option.bind_some]
      rcases hl.fields? hlabels with ⟨hn, hn'⟩ | ⟨fields, fields', rfl, rfl, hf⟩
      · rw [hn, hn']
      · exact congrArg (Option.getD · []) (hf.strings hlabel)

end

theorem normalizeObject_labels {lib : Lib} {obj : Json} {policy : Option RedactionPolicy}
    {norm : NormalizedObject} (h : normalizeObject lib obj policy = some norm) :
    norm.labels = obj.getLabels := by
  obtain ⟨json, -, rfl⟩ := Option.map_eq_some_iff.mp h
  rfl

def LabelsRedacted (lib : Lib) (policy : Option RedactionPolicy) : Prop :=
  ∀ obj obj', Agree (RedactionPolicy.routes policy) [] obj obj' →
    ∀ norm norm', normalizeObject lib obj policy = some norm →
      normalizeObject lib obj' policy = some norm' →
      ∀ clusterID key plan plan' ts ts',
        (upsertRecord clusterID key norm' plan' ts').labels =
        (upsertRecord clusterID key norm plan ts).labels

def withLabel (label value : String) : Json :=
  .obj [("metadata", .obj [("labels", .obj [(label, .str value)])])]

theorem Agree.single {routes elements : List Route} {name : String} {v v' : Json}
    (h : Agree (under name routes) (inside name routes) v v') :
    Agree routes elements (.obj [(name, v)]) (.obj [(name, v')]) := by
  rw [Agree]
  exact .inr ⟨_, rfl, v', [], rfl, h, rfl⟩

theorem agree_withLabel {policy : Option RedactionPolicy} (h : ¬ RedactionPolicy.SparesLabels policy) :
    ∃ label, ∀ value value',
      Agree (RedactionPolicy.routes policy) [] (withLabel label value) (withLabel label value') := by
  unfold RedactionPolicy.SparesLabels at h
  push Not at h
  obtain ⟨route, hr, h⟩ := h
  by_cases hm : route = [{ name := "metadata" }]
  · exact ⟨"team", fun value value' => .single (agree_of_mem (mem_under.mpr (hm ▸ hr)))⟩
  · by_cases hl : route = [{ name := "metadata" }, { name := "labels" }]
    · exact ⟨"team", fun value value' =>
        .single (.single (agree_of_mem (mem_under.mpr (mem_under.mpr (hl ▸ hr)))))⟩
    · obtain ⟨label, rfl⟩ := h hm hl
      refine ⟨label, fun value value' => .single (.single (.single (agree_of_mem ?_)))⟩
      exact mem_under.mpr (mem_under.mpr (mem_under.mpr hr))

def LeaksLabel (lib : Lib) (policy : Option RedactionPolicy) (label : String) : Prop :=
  ∀ value value',
    Agree (RedactionPolicy.routes policy) [] (withLabel label value) (withLabel label value') ∧
    ∃ norm, normalizeObject lib (withLabel label value) policy = some norm ∧
      ∀ clusterID key plan ts, (upsertRecord clusterID key norm plan ts).labels = [(label, value)]

theorem leaksLabel_of_not_sparesLabels {lib : Lib} {policy : Option RedactionPolicy}
    (hm : ∀ v, (lib.marshal v).isSome) (hp : ¬ RedactionPolicy.SparesLabels policy) :
    ∃ label, LeaksLabel lib policy label := by
  obtain ⟨label, hagree⟩ := agree_withLabel hp
  refine ⟨label, fun value value' => ⟨hagree value value', ?_⟩⟩
  have hsome : (normalizeObject lib (withLabel label value) policy).isSome = true :=
    Option.isSome_map.trans (hm _)
  obtain ⟨norm, hn⟩ := Option.isSome_iff_exists.mp hsome
  refine ⟨norm, hn, fun clusterID key plan ts => ?_⟩
  rw [upsertRecord, normalizeObject_labels hn]
  simp [withLabel, Json.getLabels, Json.nestedStringMap, Json.nested?, Json.get?, Json.fields?,
    Json.coercedString?, Json.string?]

theorem labels_column_redacted {lib : Lib} (hm : ∀ v, (lib.marshal v).isSome)
    (policy : Option RedactionPolicy) :
    (LabelsRedacted lib policy ↔ RedactionPolicy.SparesLabels policy) ∧
      (¬ RedactionPolicy.SparesLabels policy → ∃ label, LeaksLabel lib policy label) := by
  refine ⟨⟨fun h => ?_, fun hp obj obj' h norm norm' hn hn' clusterID key plan plan' ts ts' => ?_⟩,
    leaksLabel_of_not_sparesLabels hm⟩
  · by_contra hp
    obtain ⟨label, hleak⟩ := leaksLabel_of_not_sparesLabels hm hp
    obtain ⟨hagree, norm, hn, hcol⟩ := hleak "red" "blue"
    obtain ⟨-, norm', hn', hcol'⟩ := hleak "blue" "red"
    have heq := h _ _ hagree norm norm' hn hn' "" ⟨"", coreGroup, podKind, namespaceA, ""⟩ {} {} 0 0
    rw [hcol, hcol'] at heq
    exact absurd heq (by simp)
  · rw [upsertRecord, upsertRecord, normalizeObject_labels hn', normalizeObject_labels hn]
    exact getLabels_of_agree hp h

def countingLib : Lib where
  marshal j := some [UInt8.ofNat (j.nestedString ["metadata", "labels", "team"]).length]
  sha256 b := if b = [3] then "three" else if b = [4] then "four" else "ten"
  zstd := ⟨none, none⟩
  compareJSON _ _ := none

def ofTeam (team : String) : Json :=
  .obj [("metadata", .obj [("uid", .str "u"), ("labels", .obj [("team", .str team)])])]

def teamRule : RedactionRule := { fieldPath := "metadata.labels.team" }

def teamPolicy : RedactionPolicy where
  paths := builtinRedaction.paths ++ [{
    raw := "metadata.labels.team"
    segments := [{ name := "metadata" }, { name := "labels" }, { name := "team" }]
    nonempty := by simp }]

theorem teamRule_admitted : teamRule.Admitted where
  one := by decide
  fieldPath _ := ⟨mem_redactionFieldPathPattern "metadata".toList ["labels".toList, "team".toList]
    (by decide) (by decide),
    by decide⟩
  annotation h := absurd rfl h

/-- A label the policy redacts reaches the labels column, though hash and data do not tell it. -/
theorem redacted_label_leaks : teamRule.Admitted ∧
    compileRedaction (parseRedactionPath .verbatim) [redactionPath .verbatim teamRule] = .ok teamPolicy ∧
    Agree (RedactionPolicy.routes (some teamPolicy)) [] (ofTeam "red") (ofTeam "blue") ∧
    ∃ norm norm', normalizeObject countingLib (ofTeam "red") (some teamPolicy) = some norm ∧
      normalizeObject countingLib (ofTeam "blue") (some teamPolicy) = some norm' ∧
      norm'.json = norm.json ∧ norm'.hash = norm.hash ∧
      (upsertRecord "c" ⟨"s", ⟨"", by decide⟩, ⟨"Pod", by decide⟩, ⟨"a", by decide⟩, "x"⟩
        norm {} 1).labels = [("team", "red")] ∧
      (upsertRecord "c" ⟨"s", ⟨"", by decide⟩, ⟨"Pod", by decide⟩, ⟨"a", by decide⟩, "x"⟩
        norm' {} 1).labels = [("team", "blue")] := by
  refine ⟨teamRule_admitted, rfl, by decide, _, _, rfl, rfl, rfl, rfl, rfl, rfl⟩

theorem sparesLabels_builtin : RedactionPolicy.SparesLabels none := by
  intro route hr
  obtain ⟨path, hp, rfl⟩ := List.mem_map.mp hr
  rw [List.mem_singleton.mp hp]
  refine ⟨by decide, by decide, fun label h => ?_⟩
  rw [List.cons.injEq, List.cons.injEq] at h
  exact absurd h.2.1 (by decide)

def applied (config : String) : Json :=
  .obj [("metadata", .obj [("annotations", .obj [Prod.mk lastAppliedConfigAnnotation (.str config)]),
    ("labels", .obj [("team", .str "red")])])]

theorem applied_labels_alike :
    ∃ norm norm', normalizeObject countingLib (applied "v1") none = some norm ∧
      normalizeObject countingLib (applied "v2") none = some norm' ∧
      (upsertRecord "c" ⟨"s", ⟨"", by decide⟩, ⟨"Pod", by decide⟩, ⟨"a", by decide⟩, "x"⟩
        norm' {} 2).labels =
      (upsertRecord "c" ⟨"s", ⟨"", by decide⟩, ⟨"Pod", by decide⟩, ⟨"a", by decide⟩, "x"⟩
        norm {} 1).labels := by
  have hagree : Agree (RedactionPolicy.routes none) [] (applied "v1") (applied "v2") := by decide
  have hn : normalizeObject countingLib (applied "v1") none = some _ := rfl
  have hn' : normalizeObject countingLib (applied "v2") none = some _ := rfl
  have hredacted : LabelsRedacted countingLib none :=
    (labels_column_redacted (fun _ => rfl) none).1.mpr sparesLabels_builtin
  exact ⟨_, _, hn, hn', hredacted _ _ hagree _ _ hn hn' "c" _ {} {} 1 2⟩

end Kuberecord

import Kuberecord.Normalize
import Mathlib.Data.List.Induction

namespace Kuberecord

abbrev Route := List RedactionSegment

def under (name : String) (routes : List Route) : List Route :=
  routes.filterMap fun
    | ⟨name', false⟩ :: route => if name' = name then some route else none
    | _ => none

def inside (name : String) (routes : List Route) : List Route :=
  routes.filterMap fun
    | ⟨name', true⟩ :: route => if name' = name then some route else none
    | _ => none

def beside (name : String) (routes : List Route) : List Route :=
  routes.filter fun
    | segment :: _ => segment.name ≠ name
    | [] => true

section

variable {routes : List Route} {name name' : String}

theorem under_beside (h : name ≠ name') : under name (beside name' routes) = under name routes := by
  rw [under, beside, List.filterMap_filter]
  refine List.filterMap_congr fun route _ => ?_
  rcases route with _ | ⟨⟨k, _ | _⟩, route⟩
  · rfl
  · by_cases hk : k = name'
    · simp [hk, Ne.symm h]
    · simp [hk]
  · simp

theorem inside_beside (h : name ≠ name') : inside name (beside name' routes) = inside name routes := by
  rw [inside, beside, List.filterMap_filter]
  refine List.filterMap_congr fun route _ => ?_
  rcases route with _ | ⟨⟨k, _ | _⟩, route⟩
  · rfl
  · simp
  · by_cases hk : k = name'
    · simp [hk, Ne.symm h]
    · simp [hk]

theorem mem_under {route : Route} : route ∈ under name routes ↔ ⟨name, false⟩ :: route ∈ routes := by
  rw [under, List.mem_filterMap]
  constructor
  · rintro ⟨route', hr, he⟩
    rcases route' with _ | ⟨⟨k, _ | _⟩, route'⟩
    · cases he
    · simp only [Option.ite_none_right_eq_some, Option.some.injEq] at he
      obtain ⟨rfl, rfl⟩ := he
      exact hr
    · cases he
  · exact fun hr => ⟨_, hr, by simp⟩

theorem mem_inside {route : Route} : route ∈ inside name routes ↔ ⟨name, true⟩ :: route ∈ routes := by
  rw [inside, List.mem_filterMap]
  constructor
  · rintro ⟨r, hr, h⟩
    split at h
    · split_ifs at h with hn
      cases h
      exact hn ▸ hr
    · cases h
  · exact fun h => ⟨_, h, by simp⟩

theorem mem_beside {route : Route} :
    route ∈ beside name routes ↔ route ∈ routes ∧ ∀ segment rest, route = segment :: rest →
      segment.name ≠ name := by
  rw [beside, List.mem_filter]
  refine and_congr_right fun _ => ?_
  cases route with
  | nil | cons => simp

end

mutual

def scrub (routes elements : List Route) : Json → Json
  | .obj fields => if [] ∈ routes then .str redactionSentinel else .obj (scrubFields routes fields)
  | .arr items => if [] ∈ routes then .str redactionSentinel else .arr (scrubItems elements items)
  | v => if [] ∈ routes then .str redactionSentinel else v

def scrubItems (routes : List Route) : List Json → List Json
  | [] => []
  | v :: items => scrub routes [] v :: scrubItems routes items

def scrubFields (routes : List Route) : Fields → Fields
  | [] => []
  | (name, v) :: fields => (name, scrub (under name routes) (inside name routes) v) :: scrubFields
      (beside name routes) fields

end

mutual

def Agree (routes elements : List Route) : Json → Json → Prop
  | .obj fields, v' => [] ∈ routes ∨ ∃ fields', v' = .obj fields' ∧ AgreeFields routes fields fields'
  | .arr items, v' => [] ∈ routes ∨ ∃ items', v' = .arr items' ∧ AgreeItems elements items items'
  | v, v' => [] ∈ routes ∨ v' = v

def AgreeItems (routes : List Route) : List Json → List Json → Prop
  | [], items' => items' = []
  | v :: items, items' => ∃ v' rest, items' = v' :: rest ∧ Agree routes [] v v' ∧
      AgreeItems routes items rest

def AgreeFields (routes : List Route) : Fields → Fields → Prop
  | [], fields' => fields' = []
  | (name, v) :: fields, fields' => ∃ v' rest, fields' = (name, v') :: rest ∧
      Agree (under name routes) (inside name routes) v v' ∧ AgreeFields (beside name routes) fields rest

end

def Json.isScalar : Json → Bool
  | .arr _ | .obj _ => false
  | _ => true

mutual

theorem Json.induction {P : Json → Prop} (scalar : ∀ v, v.isScalar = true → P v)
    (arr : ∀ items, (∀ v ∈ items, P v) → P (.arr items))
    (obj : ∀ fields : Fields, (∀ f ∈ fields, P f.2) → P (.obj fields)) :
    ∀ v, P v
  | .arr items => arr items (Json.induction_items scalar arr obj items)
  | .obj fields => obj fields (Json.induction_fields scalar arr obj fields)
  | .null => scalar _ rfl
  | .bool _ => scalar _ rfl
  | .int _ => scalar _ rfl
  | .float _ => scalar _ rfl
  | .str _ => scalar _ rfl

theorem Json.induction_items {P : Json → Prop} (scalar : ∀ v, v.isScalar = true → P v)
    (arr : ∀ items, (∀ v ∈ items, P v) → P (.arr items))
    (obj : ∀ fields : Fields, (∀ f ∈ fields, P f.2) → P (.obj fields)) :
    ∀ items : List Json, ∀ v ∈ items, P v
  | [], _, hv => by cases hv
  | x :: items, v, hv => by
    rcases List.mem_cons.mp hv with hv | hv
    · exact hv ▸ Json.induction scalar arr obj x
    · exact Json.induction_items scalar arr obj items v hv

theorem Json.induction_fields {P : Json → Prop} (scalar : ∀ v, v.isScalar = true → P v)
    (arr : ∀ items, (∀ v ∈ items, P v) → P (.arr items))
    (obj : ∀ fields : Fields, (∀ f ∈ fields, P f.2) → P (.obj fields)) :
    ∀ fields : Fields, ∀ f ∈ fields, P f.2
  | [], _, hf => by cases hf
  | (name, x) :: fields, f, hf => by
    rcases List.mem_cons.mp hf with hf | hf
    · exact hf ▸ Json.induction scalar arr obj x
    · exact Json.induction_fields scalar arr obj fields f hf

end

section

variable {routes elements : List Route} {v v' : Json}

theorem scrub_of_mem (h : [] ∈ routes) : scrub routes elements v = .str redactionSentinel := by
  cases v <;> simp [scrub, h]

theorem scrub_scalar (hv : v.isScalar = true) (h : [] ∉ routes) : scrub routes elements v = v := by
  cases v <;> simp [scrub, h] <;> cases hv

theorem scrub_obj {fields : Fields} (h : [] ∉ routes) :
    scrub routes elements (.obj fields) = .obj (scrubFields routes fields) := by
  simp [scrub, h]

theorem scrub_arr {items : List Json} (h : [] ∉ routes) :
    scrub routes elements (.arr items) = .arr (scrubItems elements items) := by
  simp [scrub, h]

theorem agree_of_mem (h : [] ∈ routes) : Agree routes elements v v' := by
  cases v <;> simp [Agree, h]

theorem agree_scalar (hv : v.isScalar = true) (h : [] ∉ routes) : Agree routes elements v v' ↔
    v' = v := by
  cases v <;> simp [Agree, h] <;> cases hv

theorem agree_obj {fields : Fields} (h : [] ∉ routes) :
    Agree routes elements (.obj fields) v' ↔ ∃ fields', v' = .obj fields' ∧
      AgreeFields routes fields fields' := by
  simp [Agree, h]

theorem agree_arr {items : List Json} (h : [] ∉ routes) :
    Agree routes elements (.arr items) v' ↔ ∃ items', v' = .arr items' ∧
      AgreeItems elements items items' := by
  simp [Agree, h]

def Json.isSame : Json → Json → Bool
  | .null, .null => true
  | .bool b, .bool b' => b' == b
  | .int n, .int n' => n' == n
  | .float text, .float text' => text' == text
  | .str s, .str s' => s' == s
  | _, _ => false

theorem Json.isSame_iff (hv : v.isScalar = true) : v.isSame v' = true ↔ v' = v := by
  cases v <;> cases v' <;> simp [isSame] <;> cases hv

mutual

def agrees (routes elements : List Route) : Json → Json → Bool
  | .obj fields, v' => [] ∈ routes || match v' with
    | .obj fields' => agreesFields routes fields fields'
    | _ => false
  | .arr items, v' => [] ∈ routes || match v' with
    | .arr items' => agreesItems elements items items'
    | _ => false
  | v, v' => [] ∈ routes || v.isSame v'

def agreesItems (routes : List Route) : List Json → List Json → Bool
  | [], [] => true
  | v :: items, v' :: items' => agrees routes [] v v' && agreesItems routes items items'
  | _, _ => false

def agreesFields (routes : List Route) : Fields → Fields → Bool
  | [], [] => true
  | (name, v) :: fields, (name', v') :: fields' =>
    name' == name && agrees (under name routes) (inside name routes) v v' && agreesFields
      (beside name routes) fields fields'
  | _, _ => false

end

theorem agrees_iff : agrees routes elements v v' = true ↔ Agree routes elements v v' := by
  induction v using Json.induction generalizing routes elements v' with
  | scalar v hv =>
    by_cases hm : [] ∈ routes
    · exact iff_of_true (by cases v <;> simp [agrees, hm]) (agree_of_mem hm)
    · rw [agree_scalar hv hm, ← Json.isSame_iff hv]
      cases v <;> simp [agrees, hm] <;> cases hv
  | arr items ih =>
    by_cases hm : [] ∈ routes
    · exact iff_of_true (by simp [agrees, hm]) (agree_of_mem hm)
    · rw [agree_arr hm]
      cases v' <;> simp [agrees, hm]
      rename_i items'
      induction items generalizing items' with
      | nil => cases items' <;> simp [agreesItems, AgreeItems]
      | cons v items ihi =>
        cases items' with
        | nil => simp [agreesItems, AgreeItems]
        | cons v' items' =>
          simp [agreesItems, AgreeItems, ih v (.head _), ihi (fun v hv => ih v (.tail _ hv))]
  | obj fields ih =>
    by_cases hm : [] ∈ routes
    · exact iff_of_true (by simp [agrees, hm]) (agree_of_mem hm)
    · rw [agree_obj hm]
      cases v' <;> simp [agrees, hm]
      rename_i fields'
      clear hm
      induction fields generalizing routes fields' with
      | nil => cases fields' <;> simp [agreesFields, AgreeFields]
      | cons f fields ihf =>
        obtain ⟨name, v⟩ := f
        cases fields' with
        | nil => simp [agreesFields, AgreeFields]
        | cons f' fields' =>
          obtain ⟨name', v'⟩ := f'
          simp [agreesFields, AgreeFields, ih _ (.head _),
            ihf (fun f hf => ih f (.tail _ hf)), and_assoc]

instance : Decidable (Agree routes elements v v') := decidable_of_iff _ agrees_iff

theorem Agree.scrub_eq (h : Agree routes elements v v') :
    scrub routes elements v' = scrub routes elements v := by
  induction v using Json.induction generalizing routes elements v' with
  | scalar v hv =>
    by_cases hm : [] ∈ routes
    · rw [scrub_of_mem hm, scrub_of_mem hm]
    · rw [(agree_scalar hv hm).mp h]
  | arr items ih =>
    by_cases hm : [] ∈ routes
    · rw [scrub_of_mem hm, scrub_of_mem hm]
    · obtain ⟨items', rfl, hi⟩ := (agree_arr hm).mp h
      rw [scrub_arr hm, scrub_arr hm]
      congr 1
      clear h
      induction items generalizing items' with
      | nil =>
        cases hi
        rfl
      | cons v items ihi =>
        obtain ⟨v', rest, rfl, hv, hrest⟩ := hi
        rw [scrubItems, scrubItems, ih v (.head _) hv, ihi (fun v hv => ih v (.tail _ hv)) rest hrest]
  | obj fields ih =>
    by_cases hm : [] ∈ routes
    · rw [scrub_of_mem hm, scrub_of_mem hm]
    · obtain ⟨fields', rfl, hf⟩ := (agree_obj hm).mp h
      rw [scrub_obj hm, scrub_obj hm]
      congr 1
      clear h hm
      induction fields generalizing routes fields' with
      | nil =>
        cases hf
        rfl
      | cons f fields ihf =>
        obtain ⟨name, v⟩ := f
        obtain ⟨v', rest, rfl, hv, hrest⟩ := hf
        rw [scrubFields, scrubFields, ih _ (.head _) hv, ihf (fun f hf => ih f (.tail _ hf)) rest hrest]

end

def redacted (route : Route) (v : Json) : Json := (redactValue route v).getD v

def redactedItems (route : Route) (v : Json) : Json := (redactElements (redactValue route) v).getD v

def redactedChild (segment : RedactionSegment) (route : Route) (v : Json) : Json :=
  if segment.wildcard then redactedItems route v else redacted route v

def onField (name : String) (f : Json → Json) : Fields → Fields
  | [] => []
  | (k, v) :: fields => if k = name then (k, f v) :: fields else (k, v) :: onField name f fields

theorem onField_of_lookup {name : String} {f : Json → Json} {fields : Fields} {v : Json}
    (h : fields.lookup name = some v) : onField name f fields = setField name (f v) fields := by
  induction fields with
  | nil => cases h
  | cons p fields ih =>
    obtain ⟨k, w⟩ := p
    by_cases hk : k = name
    · subst hk
      rw [List.lookup_cons_self, Option.some.injEq] at h
      simp [onField, setField, h]
    · rw [List.lookup_cons, beq_false_of_ne (Ne.symm hk)] at h
      simp [onField, setField, hk, ih h]

theorem onField_of_lookup_none {name : String} {f : Json → Json} {fields : Fields}
    (h : fields.lookup name = none) : onField name f fields = fields := by
  induction fields with
  | nil => rfl
  | cons p fields ih =>
    obtain ⟨k, w⟩ := p
    by_cases hk : k = name
    · simp [hk] at h
    · rw [List.lookup_cons, beq_false_of_ne (Ne.symm hk)] at h
      simp [onField, hk, ih h]

theorem redacted_nil (v : Json) : redacted [] v = .str redactionSentinel := by
  cases v with
  | str text =>
    by_cases h : text = redactionSentinel
    · simp [redacted, redactValue, h]
    · simp [redacted, redactValue, h]
  | _ => rfl

theorem redacted_obj (segment : RedactionSegment) (route : Route) (fields : Fields) :
    redacted (segment :: route) (.obj fields) = .obj
      (onField segment.name (redactedChild segment route) fields) := by
  cases hl : fields.lookup segment.name with
  | none => simp [redacted, redactValue, hl, onField_of_lookup_none hl]
  | some child =>
    rw [onField_of_lookup hl]
    have keep (r : Option Json) : (r.map fun r => Json.obj (setField segment.name r fields)).getD
      (.obj fields) =
        .obj (setField segment.name (r.getD child) fields) := by
      cases r with
      | none => simp [setField_lookup hl]
      | some r => rfl
    simp only [redacted, redactValue, hl, keep]
    congr 2
    unfold redactedChild redactedItems redacted
    split_ifs <;> rfl

theorem redacted_of_not_obj {segment : RedactionSegment} {route : Route} {v : Json}
    (h : v.fields? = none) :
    redacted (segment :: route) v = v := by
  cases v with
  | obj fields => cases h
  | _ => rfl

theorem redactedItems_arr (route : Route) (items : List Json) :
    redactedItems route (.arr items) = .arr (items.map (redacted route)) := by
  simp only [redactedItems, redactElements]
  split_ifs with h
  · rfl
  · simp only [Option.getD_none, Json.arr.injEq]
    refine ((List.map_congr_left fun item hi => ?_).trans (List.map_id _)).symm
    have hn : redactValue route item = none := by
      by_contra hne
      exact h (List.any_eq_true.mpr ⟨item, hi, Option.isSome_iff_ne_none.mpr hne⟩)
    simp [redacted, hn]

theorem redactedItems_of_not_arr {route : Route} {v : Json} (h : ∀ items, v ≠ .arr items) :
    redactedItems route v = v := by
  cases v with
  | arr items => exact absurd rfl (h items)
  | _ => rfl

section

variable (routes : List Route) (segment : RedactionSegment) (route : Route)

theorem under_snoc (name : String) : under name (routes ++ [segment :: route]) =
    if segment.name = name ∧ segment.wildcard = false then under name routes ++
      [route] else under name routes := by
  obtain ⟨name', wildcard⟩ := segment
  cases wildcard <;> by_cases h : name' = name <;> simp [under, List.filterMap_append, h]

theorem inside_snoc (name : String) : inside name (routes ++ [segment :: route]) =
    if segment.name = name ∧ segment.wildcard = true then inside name routes ++
      [route] else inside name routes := by
  obtain ⟨name', wildcard⟩ := segment
  cases wildcard <;> by_cases h : name' = name <;> simp [inside, List.filterMap_append, h]

theorem beside_snoc (name : String) : beside name (routes ++ [segment :: route]) =
    if segment.name = name then beside name routes else beside name routes ++ [segment :: route] := by
  by_cases h : segment.name = name <;> simp [beside, List.filter_append, h]

theorem scrubFields_snoc (fields : Fields)
    (ih : ∀ f ∈ fields, ∀ routes elements, redacted route (scrub routes elements f.2) =
      scrub (routes ++ [route]) elements f.2 ∧
      redactedItems route (scrub routes elements f.2) = scrub routes (elements ++ [route]) f.2) :
    onField segment.name (redactedChild segment route) (scrubFields routes fields) =
      scrubFields (routes ++ [segment :: route]) fields := by
  induction fields generalizing routes with
  | nil => rfl
  | cons f fields ihf =>
    obtain ⟨name, v⟩ := f
    have ⟨hv, hi⟩ := ih _ (.head _) (under name routes) (inside name routes)
    rw [scrubFields, scrubFields, onField, under_snoc, inside_snoc, beside_snoc]
    by_cases hn : name = segment.name
    · subst hn
      cases hw : segment.wildcard with
      | true => simp [redactedChild, hw, hi]
      | false => simp [redactedChild, hw, hv]
    · rw [if_neg hn, ihf (beside name routes) fun f hf => ih f (.tail _ hf)]
      simp [Ne.symm hn]

end

theorem redacted_scrub_of_mem {routes elements : List Route} {route : Route} {v : Json}
    (hm : [] ∈ routes) :
    redacted route (scrub routes elements v) = scrub (routes ++ [route]) elements v ∧
      redactedItems route (scrub routes elements v) = scrub routes (elements ++ [route]) v := by
  rw [scrub_of_mem hm, scrub_of_mem hm, scrub_of_mem (List.mem_append_left _ hm)]
  refine ⟨?_, redactedItems_of_not_arr (by simp)⟩
  cases route with
  | nil => exact redacted_nil _
  | cons segment route => exact redacted_of_not_obj rfl

theorem scrubItems_snoc (routes : List Route) (route : Route) (items : List Json)
    (ih : ∀ v ∈ items, redacted route (scrub routes [] v) = scrub (routes ++ [route]) [] v) :
    (scrubItems routes items).map (redacted route) = scrubItems (routes ++ [route]) items := by
  induction items with
  | nil => rfl
  | cons v items ihi =>
    rw [scrubItems, scrubItems, List.map_cons, ih v (.head _), ihi fun v hv => ih v (.tail _ hv)]

theorem redacted_scrub (route : Route) (v : Json) (routes elements : List Route) :
    redacted route (scrub routes elements v) = scrub (routes ++ [route]) elements v ∧
      redactedItems route (scrub routes elements v) = scrub routes (elements ++ [route]) v := by
  induction v using Json.induction generalizing route routes elements with
  | scalar v hv =>
    by_cases hm : [] ∈ routes
    · exact redacted_scrub_of_mem hm
    · rw [scrub_scalar hv hm, scrub_scalar hv hm]
      refine ⟨?_, redactedItems_of_not_arr fun items h => by simp [h, Json.isScalar] at hv⟩
      cases route with
      | nil => rw [redacted_nil, scrub_of_mem (by simp)]
      | cons segment route =>
        have hf : v.fields? = none := by cases v <;> first | rfl | cases hv
        rw [redacted_of_not_obj hf, scrub_scalar hv (by simp [hm])]
  | arr items ih =>
    by_cases hm : [] ∈ routes
    · exact redacted_scrub_of_mem hm
    · refine ⟨?_, ?_⟩
      · rw [scrub_arr hm]
        cases route with
        | nil => rw [redacted_nil, scrub_of_mem (by simp)]
        | cons segment route => rw [redacted_of_not_obj rfl, scrub_arr (by simp [hm])]
      · rw [scrub_arr hm, scrub_arr hm, redactedItems_arr, scrubItems_snoc]
        exact fun v hv => (ih v hv route elements []).1
  | obj fields ih =>
    by_cases hm : [] ∈ routes
    · exact redacted_scrub_of_mem hm
    · rw [scrub_obj hm, scrub_obj hm]
      refine ⟨?_, redactedItems_of_not_arr (by simp)⟩
      cases route with
      | nil => rw [redacted_nil, scrub_of_mem (by simp)]
      | cons segment route =>
        rw [redacted_obj, scrub_obj (by simp [hm]), scrubFields_snoc]
        exact fun f hf => ih f hf route

theorem scrub_nil (v : Json) : scrub [] [] v = v := by
  induction v using Json.induction with
  | scalar v hv => exact scrub_scalar hv (by simp)
  | arr items ih =>
    rw [scrub_arr (by simp)]
    congr 1
    induction items with
    | nil => rfl
    | cons v items ihi => rw [scrubItems, ih v (.head _), ihi fun v hv => ih v (.tail _ hv)]
  | obj fields ih =>
    rw [scrub_obj (by simp)]
    congr 1
    induction fields with
    | nil => rfl
    | cons f fields ihf =>
      rw [scrubFields]
      congr 1
      · exact Prod.ext rfl (ih f (.head _))
      · exact ihf fun f hf => ih f (.tail _ hf)

theorem Agree.refl {routes elements : List Route} (v : Json) : Agree routes elements v v := by
  induction v using Json.induction generalizing routes elements with
  | scalar v hv => cases v <;> simp [Agree] <;> cases hv
  | arr items ih =>
    refine .inr ⟨items, rfl, ?_⟩
    induction items with
    | nil => rfl
    | cons v items ihi => exact ⟨v, items, rfl, ih v (.head _), ihi fun v hv => ih v (.tail _ hv)⟩
  | obj fields ih =>
    refine .inr ⟨fields, rfl, ?_⟩
    induction fields generalizing routes with
    | nil => rfl
    | cons f fields ihf => exact ⟨f.2, fields, rfl, ih f (.head _), ihf fun f hf => ih f (.tail _ hf)⟩

theorem agree_nil_iff {v v' : Json} : Agree [] [] v v' ↔ v' = v := by
  refine ⟨fun h => ?_, fun h => h ▸ Agree.refl v'⟩
  rw [← scrub_nil v', h.scrub_eq, scrub_nil]

instance : DecidableEq Json := fun v v' => decidable_of_iff (Agree [] [] v' v) agree_nil_iff

def RedactionPolicy.routes (p : Option RedactionPolicy) : List Route :=
  (p.getD builtinRedaction).paths.map RedactionPath.segments

theorem apply_eq_scrub (p : Option RedactionPolicy) (v : Json) :
    RedactionPolicy.apply p v = scrub (RedactionPolicy.routes p) [] v := by
  unfold RedactionPolicy.apply RedactionPolicy.routes
  generalize (p.getD builtinRedaction).paths = paths
  induction paths using List.reverseRecOn with
  | nil => exact (scrub_nil v).symm
  | append_singleton paths path ih =>
    rw [List.foldl_append, List.foldl_cons, List.foldl_nil, ih, List.map_append]
    exact (redacted_scrub path.segments v _ []).1

end Kuberecord

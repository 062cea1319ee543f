import Kuberecord.Library.Keyed
import Kuberecord.Scrubs

namespace Kuberecord

section

variable {routes routes' elements elements' : List Route} {name name' : String}
  {fields fields' : Fields} {v v' : Json}

theorem under_mono (h : routes ⊆ routes') : under name routes ⊆ under name routes' :=
  List.filterMap_subset _ h

theorem inside_mono (h : routes ⊆ routes') : inside name routes ⊆ inside name routes' :=
  List.filterMap_subset _ h

theorem beside_mono (h : routes ⊆ routes') : beside name routes ⊆ beside name routes' :=
  List.filter_subset _ h

theorem beside_subset : beside name routes ⊆ routes := List.filter_subset_self routes

theorem Agree.mono (h : Agree routes elements v v') (hr : routes ⊆ routes') (he : elements ⊆ elements') :
    Agree routes' elements' v v' := by
  induction v using Json.induction generalizing routes elements routes' elements' v' with
  | scalar v hv =>
    by_cases hm' : [] ∈ routes'
    · exact agree_of_mem hm'
    · rw [agree_scalar hv fun hm => hm' (hr hm)] at h
      rwa [agree_scalar hv hm']
  | arr items ih =>
    by_cases hm' : [] ∈ routes'
    · exact agree_of_mem hm'
    · obtain ⟨items', rfl, hi⟩ := (agree_arr fun hm => hm' (hr hm)).mp h
      refine (agree_arr hm').mpr ⟨items', rfl, ?_⟩
      clear h
      induction items generalizing items' with
      | nil => exact hi
      | cons v items ihi =>
        obtain ⟨v', rest, rfl, hv, hrest⟩ := hi
        exact ⟨v', rest, rfl, ih v (.head _) hv he (List.Subset.refl _),
          ihi (fun v hv => ih v (.tail _ hv)) rest hrest⟩
  | obj fields ih =>
    by_cases hm' : [] ∈ routes'
    · exact agree_of_mem hm'
    · obtain ⟨fields', rfl, hf⟩ := (agree_obj fun hm => hm' (hr hm)).mp h
      refine (agree_obj hm').mpr ⟨fields', rfl, ?_⟩
      clear h hm'
      induction fields generalizing routes routes' fields' with
      | nil => exact hf
      | cons f fields ihf =>
        obtain ⟨name, v⟩ := f
        obtain ⟨v', rest, rfl, hv, hrest⟩ := hf
        exact ⟨v', rest, rfl, ih _ (.head _) hv (under_mono hr) (inside_mono hr),
          ihf (fun f hf => ih f (.tail _ hf)) (beside_mono hr) rest hrest⟩

theorem AgreeFields.mono (h : AgreeFields routes fields fields') (hr : routes ⊆ routes') :
    AgreeFields routes' fields fields' := by
  induction fields generalizing routes routes' fields' with
  | nil => exact h
  | cons f fields ih =>
    obtain ⟨name, v⟩ := f
    obtain ⟨v', rest, rfl, hv, hrest⟩ := h
    exact ⟨v', rest, rfl, hv.mono (under_mono hr) (inside_mono hr), ih hrest (beside_mono hr)⟩

theorem AgreeFields.keys (h : AgreeFields routes fields fields') :
    fields'.map Prod.fst = fields.map Prod.fst := by
  induction fields generalizing routes fields' with
  | nil => rw [show fields' = [] from h]
  | cons f fields ih =>
    obtain ⟨name, v⟩ := f
    obtain ⟨v', rest, rfl, -, hrest⟩ := h
    rw [List.map_cons, List.map_cons, ih hrest]

theorem AgreeFields.lookup (h : AgreeFields routes fields fields') (name : String) :
    (fields.lookup name = none ∧ fields'.lookup name = none) ∨ ∃ v v', fields.lookup name = some v ∧
      fields'.lookup name = some v' ∧ Agree (under name routes) (inside name routes) v v' := by
  induction fields generalizing routes fields' with
  | nil => exact .inl ⟨rfl, by rw [show fields' = [] from h]; rfl⟩
  | cons f fields ih =>
    obtain ⟨name', v⟩ := f
    obtain ⟨v', rest, rfl, hv, hrest⟩ := h
    by_cases hn : name = name'
    · subst hn
      exact .inr ⟨v, v', List.lookup_cons_self, List.lookup_cons_self, hv⟩
    · have skip (w : Json) (fs : Fields) : ((name', w) :: fs).lookup name = fs.lookup name := by
        rw [List.lookup_cons, beq_false_of_ne hn]
      have hrest := ih hrest
      rw [under_beside hn, inside_beside hn] at hrest
      simpa only [skip] using hrest

theorem AgreeFields.setField (h : AgreeFields routes fields fields')
    (hv : Agree (under name routes) (inside name routes) v v') :
    AgreeFields routes (setField name v fields) (setField name v' fields') := by
  induction fields generalizing routes fields' with
  | nil =>
    obtain rfl : fields' = [] := h
    rfl
  | cons f fields ih =>
    obtain ⟨name', w⟩ := f
    obtain ⟨w', rest, rfl, hw, hrest⟩ := h
    by_cases hn : name' = name
    · subst hn
      simp only [Kuberecord.setField, if_true]
      exact ⟨v', rest, rfl, hv, hrest⟩
    · simp only [Kuberecord.setField, if_neg hn]
      exact ⟨w', _, rfl, hw, ih hrest (by rwa [under_beside (Ne.symm hn), inside_beside (Ne.symm hn)])⟩

theorem AgreeFields.filter (h : AgreeFields routes fields fields') (keep : String → Bool) :
    AgreeFields routes (fields.filter fun f => keep f.1) (fields'.filter fun f => keep f.1) := by
  induction fields generalizing routes fields' with
  | nil =>
    obtain rfl : fields' = [] := h
    rfl
  | cons f fields ih =>
    obtain ⟨name, v⟩ := f
    obtain ⟨v', rest, rfl, hv, hrest⟩ := h
    cases hk : keep name with
    | true =>
      simp only [List.filter_cons, hk, if_true]
      exact ⟨v', _, rfl, hv, ih hrest⟩
    | false =>
      simp only [List.filter_cons, hk, Bool.false_eq_true, if_false]
      exact (ih hrest).mono beside_subset

theorem Agree.stripField (h : Agree (under name routes) (inside name routes) v v')
    (hm : [] ∉ under "annotations" routes) (b : Bool) :
    stripField b (name, v) = none ∧ stripField b (name, v') = none ∨ ∃ w w', stripField b
      (name, v) = some (name, w) ∧
      stripField b (name, v') = some (name, w') ∧ Agree (under name routes)
        (inside name routes) w w' := by
  unfold Kuberecord.stripField
  by_cases hd : name = "managedFields" ∨ name = "resourceVersion" ∨ name = "generation"
  · exact .inl ⟨if_pos hd, if_pos hd⟩
  · by_cases ha : name = "annotations" ∧ b = true
    · simp only [if_neg hd, if_pos ha]
      obtain ⟨rfl, -⟩ := ha
      cases v with
      | obj existing =>
        obtain ⟨existing', rfl, he⟩ := (agree_obj hm).mp h
        have hlen : existing'.length = existing.length := by simpa using congrArg List.length he.keys
        simp only [hlen]
        split_ifs
        · exact .inl ⟨rfl, rfl⟩
        · exact .inr ⟨_, _, rfl, rfl, (agree_obj hm).mpr ⟨_, rfl, he.filter fun k =>
            k ≠ actorsAnnotation⟩⟩
      | arr items =>
        obtain ⟨items', rfl, -⟩ := (agree_arr hm).mp h
        exact .inr ⟨_, _, rfl, rfl, h⟩
      | null | bool | int | float | str =>
        obtain rfl := (agree_scalar rfl hm).mp h
        exact .inr ⟨_, _, rfl, rfl, h⟩
    · exact .inr ⟨v, v', (if_neg hd).trans (if_neg ha), (if_neg hd).trans (if_neg ha), h⟩

theorem AgreeFields.stripMetadata (h : AgreeFields routes fields fields')
    (hm : [] ∉ under "annotations" routes) (b : Bool) :
    AgreeFields routes (stripMetadata b fields) (stripMetadata b fields') := by
  rw [Kuberecord.stripMetadata, Kuberecord.stripMetadata]
  induction fields generalizing routes fields' with
  | nil =>
    obtain rfl : fields' = [] := h
    rfl
  | cons f fields ih =>
    obtain ⟨name, v⟩ := f
    obtain ⟨v', rest, rfl, hv, hrest⟩ := h
    have hrest := ih hrest fun hb => hm (under_mono beside_subset hb)
    rw [List.filterMap_cons, List.filterMap_cons]
    rcases hv.stripField hm b with ⟨hn, hn'⟩ | ⟨w, w', hs, hs', hw⟩
    · rw [hn, hn']
      exact hrest.mono beside_subset
    · rw [hs, hs']
      exact ⟨w', _, rfl, hw, hrest⟩

theorem Agree.stripVolatileFields (h : Agree routes [] v v') (hr : [] ∉ routes)
    (hm : [] ∉ under "metadata" routes) (ha : [] ∉ under "annotations" (under "metadata" routes))
    (b : Bool) :
    Agree routes [] (stripVolatileFields v b) (stripVolatileFields v' b) := by
  cases v with
  | obj fields =>
    obtain ⟨fields', rfl, hf⟩ := (agree_obj hr).mp h
    unfold Kuberecord.stripVolatileFields
    rcases hf.lookup "metadata" with ⟨hn, hn'⟩ | ⟨w, w', hw, hw', ha'⟩
    · simp only [hn, hn']
      exact h
    · simp only [hw, hw']
      cases w with
      | obj metadata =>
        obtain ⟨metadata', rfl, hmeta⟩ := (agree_obj hm).mp ha'
        exact (agree_obj hr).mpr ⟨_, rfl,
          hf.setField ((agree_obj hm).mpr ⟨_, rfl, hmeta.stripMetadata ha b⟩)⟩
      | arr items =>
        obtain ⟨items', rfl, -⟩ := (agree_arr hm).mp ha'
        exact h
      | null | bool | int | float | str =>
        obtain rfl := (agree_scalar rfl hm).mp ha'
        exact h
  | arr items =>
    obtain ⟨items', rfl, -⟩ := (agree_arr hr).mp h
    exact h
  | null | bool | int | float | str =>
    obtain rfl := (agree_scalar rfl hr).mp h
    exact h

theorem Agree.get? (h : Agree routes elements v v') (hr : [] ∉ routes) (name : String) :
    v.get? name = none ∧ v'.get? name = none ∨ ∃ w w', v.get? name = some w ∧ v'.get? name = some w' ∧
      Agree (under name routes) (inside name routes) w w' := by
  cases v with
  | obj fields =>
    obtain ⟨fields', rfl, hf⟩ := (agree_obj hr).mp h
    exact hf.lookup name
  | arr items =>
    obtain ⟨items', rfl, -⟩ := (agree_arr hr).mp h
    exact .inl ⟨rfl, rfl⟩
  | null | bool | int | float | str =>
    obtain rfl := (agree_scalar rfl hr).mp h
    exact .inl ⟨rfl, rfl⟩

end

theorem keys_of_mapM {fields : Fields} {strings : List (String × String)}
    (h : fields.mapM (fun f => f.2.coercedString?.map (f.1, ·)) = some strings) :
    strings.map Prod.fst = fields.map Prod.fst := by
  induction fields generalizing strings with
  | nil =>
    cases h
    rfl
  | cons f fields ih =>
    simp only [List.mapM_cons, Option.bind_eq_bind, Option.pure_def, Option.bind_eq_some_iff,
      Option.map_eq_some_iff, Option.some.injEq] at h
    obtain ⟨_, ⟨s, -, rfl⟩, rest, hrest, rfl⟩ := h
    rw [List.map_cons, List.map_cons, ih hrest]

def RedactionPolicy.positions (p : Option RedactionPolicy) : List Route :=
  (routes p).filter fun route => route ≠ [⟨"metadata", false⟩] ∧
    route ≠ [⟨"metadata", false⟩, ⟨"annotations", false⟩]

/--
The objects differ only in the values at positions that the policy matches: their metadata and their
annotations are not replaced as a whole, the UID is unchanged, and annotations remain strings.
-/
structure Lookalike (p : Option RedactionPolicy) (obj obj' : Json) : Prop where
  agree : Agree (RedactionPolicy.positions p) [] obj obj'
  uid : obj'.getUID = obj.getUID
  annotations : (obj'.nestedStringMap ["metadata", "annotations"]).isSome =
    (obj.nestedStringMap ["metadata", "annotations"]).isSome

instance (p : Option RedactionPolicy) (obj obj' : Json) : Decidable (Lookalike p obj obj') :=
  decidable_of_iff (_ ∧ _ ∧ _) ⟨fun ⟨ha, hu, hs⟩ => ⟨ha, hu, hs⟩,
    fun h => ⟨h.agree, h.uid, h.annotations⟩⟩

namespace Lookalike

variable {p : Option RedactionPolicy} {obj obj' : Json}

theorem root_notMem : [] ∉ RedactionPolicy.positions p := by
  intro h
  obtain ⟨path, -, hp⟩ := List.mem_map.mp (List.mem_filter.mp h).1
  exact path.nonempty hp

theorem metadata_notMem : [] ∉ under "metadata" (RedactionPolicy.positions p) := by
  rw [mem_under]
  exact fun h => by simpa using (List.mem_filter.mp h).2

theorem annotations_notMem : [] ∉ under "annotations" (under "metadata"
      (RedactionPolicy.positions p)) := by
  rw [mem_under, mem_under]
  exact fun h => by simpa using (List.mem_filter.mp h).2

theorem actors (h : Lookalike p obj obj') :
    (obj'.getAnnotations.lookup actorsAnnotation).isSome =
    (obj.getAnnotations.lookup actorsAnnotation).isSome := by
  have hann := h.annotations
  unfold Json.getAnnotations
  rw [Keyed.lookup_isSome, Keyed.lookup_isSome]
  congr 1
  unfold Json.nestedStringMap Json.nested? at hann ⊢
  simp only [List.foldlM_cons, List.foldlM_nil, Option.bind_eq_bind, Option.pure_def] at hann ⊢
  rcases h.agree.get? root_notMem "metadata" with ⟨hn, hn'⟩ | ⟨m, m', hm, hm', hmeta⟩
  · rw [hn, hn']
  · rw [hm, hm'] at hann ⊢
    simp only [Option.bind_some] at hann ⊢
    rcases hmeta.get? metadata_notMem "annotations" with ⟨hn, hn'⟩ | ⟨a, a', ha, ha', hagree⟩
    · rw [hn, hn']
    · rw [ha, ha'] at hann ⊢
      simp only [Option.bind_some] at hann ⊢
      cases a with
      | obj fields =>
        obtain ⟨fields', rfl, hf⟩ := (agree_obj annotations_notMem).mp hagree
        simp only [Json.fields?, Option.bind_some] at hann ⊢
        cases hs : fields.mapM (fun f => f.2.coercedString?.map (f.1, ·)) with
        | none =>
          rw [hs] at hann
          have hs' : fields'.mapM (fun f => f.2.coercedString?.map (f.1, ·)) = none := by
            rw [← Option.not_isSome_iff_eq_none, hann]
            exact Bool.false_ne_true
          rw [hs']
        | some strings =>
          rw [hs] at hann
          obtain ⟨strings', hs'⟩ := Option.isSome_iff_exists.mp hann
          rw [hs', Option.getD_some, Option.getD_some, keys_of_mapM hs, keys_of_mapM hs', hf.keys]
      | arr items =>
        obtain ⟨items', rfl, -⟩ := (agree_arr annotations_notMem).mp hagree
        rfl
      | null | bool | int | float | str => rw [(agree_scalar rfl annotations_notMem).mp hagree]

theorem normalized (h : Lookalike p obj obj') :
    RedactionPolicy.apply p (stripVolatileFields obj'
        (obj'.getAnnotations.lookup actorsAnnotation).isSome) =
      RedactionPolicy.apply p (stripVolatileFields obj
          (obj.getAnnotations.lookup actorsAnnotation).isSome) := by
  rw [h.actors, apply_eq_scrub, apply_eq_scrub]
  refine ((h.agree.stripVolatileFields root_notMem metadata_notMem annotations_notMem _).mono ?_
    ?_).scrub_eq
  · exact List.filter_subset_self _
  · exact List.Subset.refl _

end Lookalike

end Kuberecord

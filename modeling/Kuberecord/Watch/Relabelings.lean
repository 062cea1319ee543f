import Kuberecord.Watch.Lister

namespace Kuberecord

variable {Sel : Type} {lib : WatchLib Sel} {keys : KeyLib} {t : InterestTable Sel}
  {i : ScopeInterest Sel}
  {ns : Namespace} {name : String}

inductive Notice
  | add (u : Unstructured)
  | update (old new : Unstructured)
  | delete (obj : Notified)

def Notice.enqueued (lib : WatchLib Sel) (keys : KeyLib) (t : InterestTable Sel)
    (informer : InformerKey) :
    Notice → List Key
  | .add u => fanOut lib keys t informer (.plain (.unstructured u)) none
  | .update old new =>
    fanOut lib keys t informer (.plain (.unstructured new)) (some (.plain (.unstructured old)))
  | .delete obj => fanOut lib keys t informer obj none

def updates : Unstructured → List Unstructured → List Notice
  | _, [] => []
  | old, new :: states => .update old new :: updates new states

def Unstructured.IsNamed (u : Unstructured) (ns : Namespace) (name : String) : Prop :=
  u.ns = ns ∧ u.name = name

def Notified.Tells (keys : KeyLib) (obj : Notified) (ns : Namespace) (name : String)
    (last : Option Unstructured) : Prop :=
  eventTargetOf keys obj = .ok ⟨ns, name, last⟩

def ScopeInterest.selects (lib : WatchLib Sel) (i : ScopeInterest Sel) (u : Unstructured) : Prop :=
  i.matchesLabels lib (u.getLabels.getD []) = true

theorem mem_fanOut {obj : Notified} {previous : Option Notified} {last : Option Unstructured}
    (hids : (t.current.map ScopeInterest.id).Nodup) (hi : i ∈ t.current)
    (hobj : obj.Tells keys ns name last) :
    i.keyFor ns name ∈ fanOut lib keys t i.informer obj previous ↔
      ∀ u ∈ last, i.matchesEither lib (u.getLabels.getD []) (previous.bind fun old =>
        (eventTargetOf keys old).toOption.bind fun target =>
          target.obj.bind Unstructured.getLabels) = true := by
  simp only [fanOut, show eventTargetOf keys obj = _ from hobj, List.mem_map, List.mem_filter]
  constructor
  · rintro ⟨j, ⟨hj, hkeep⟩, hkey⟩
    have hj' := List.mem_filter.mp ((List.mem_insertionSort _).mp hj)
    have hid : j.id = i.id := by
      simp only [ScopeInterest.keyFor, Key.mk.injEq] at hkey
      simp only [ScopeInterest.id, InterestID.mk.injEq]
      exact ⟨by simpa using hj'.2, hkey.1⟩
    obtain rfl := List.inj_on_of_nodup_map hids hj'.1 hi hid
    intro u hu
    cases hu
    cases hall : j.matchAll with
    | true => simp [ScopeInterest.matchesEither, ScopeInterest.matchesLabels, hall]
    | false => simpa [hall] using hkeep
  · intro h
    refine ⟨i, ⟨by simp [InterestTable.byInformer, hi], ?_⟩, rfl⟩
    cases last with
    | none => rfl
    | some u => simp [h u rfl]

theorem tells_of_named {u : Unstructured} (h : u.IsNamed ns name) :
    (Notified.plain (.unstructured u)).Tells keys ns name (some u) := by
  obtain ⟨rfl, rfl⟩ := h
  rfl

theorem add_enqueues {u : Unstructured} (hids : (t.current.map ScopeInterest.id).Nodup)
    (hi : i ∈ t.current) (hu : u.IsNamed ns name) :
    i.keyFor ns name ∈ (Notice.add u).enqueued lib keys t i.informer ↔ i.selects lib u := by
  refine (mem_fanOut hids hi (tells_of_named hu)).trans ?_
  simp [ScopeInterest.matchesEither, ScopeInterest.selects]

theorem update_enqueues {old new : Unstructured} (hids : (t.current.map ScopeInterest.id).Nodup)
    (hi : i ∈ t.current) (hnew : new.IsNamed ns name) :
    (i.selects lib new → i.keyFor ns name ∈ (Notice.update old new).enqueued lib keys t i.informer) ∧
      (i.keyFor ns name ∈ (Notice.update old new).enqueued lib keys t i.informer →
        i.selects lib old ∨ i.selects lib new) := by
  have hmem : i.keyFor ns name ∈ (Notice.update old new).enqueued lib keys t i.informer ↔ _ :=
    mem_fanOut hids hi (tells_of_named hnew)
  refine ⟨fun h => hmem.mpr ?_, fun h => ?_⟩
  · rintro _ ⟨⟩
    simp [ScopeInterest.matchesEither, show i.matchesLabels lib (new.getLabels.getD []) = true from h]
  · have h := hmem.mp h new rfl
    simp only [ScopeInterest.matchesEither, Bool.or_eq_true] at h
    rcases h with h | h
    · exact .inr h
    · obtain ⟨labels, hl, hm⟩ := (Option.any_eq_true _ _).mp h
      have hl : old.getLabels = some labels := hl
      exact .inl (by simpa [ScopeInterest.selects, hl] using hm)

theorem updates_enqueue {u : Unstructured} {states : List Unstructured}
    (hids : (t.current.map ScopeInterest.id).Nodup) (hi : i ∈ t.current)
    (hnamed : ∀ v ∈ states, v.IsNamed ns name) :
    (i.selects lib u ∨ ∃ n ∈ updates u states, i.keyFor ns name ∈ n.enqueued lib keys t i.informer) ↔
      ∃ v ∈ u :: states, i.selects lib v := by
  induction states generalizing u with
  | nil => simp [updates]
  | cons new states ih =>
    obtain ⟨hnew, hstates⟩ := List.forall_mem_cons.mp hnamed
    have hstep := @update_enqueues _ lib keys t i ns name u new hids hi hnew
    have ih := ih (u := new) hstates
    rw [List.exists_mem_cons_iff, ← ih, updates, List.exists_mem_cons_iff]
    tauto

theorem enqueued_iff_selects {u : Unstructured} {states : List Unstructured}
    (hids : (t.current.map ScopeInterest.id).Nodup) (hi : i ∈ t.current)
    (hnamed : ∀ v ∈ u :: states, v.IsNamed ns name) :
    (∃ n ∈ .add u :: updates u states, i.keyFor ns name ∈ n.enqueued lib keys t i.informer) ↔
      ∃ v ∈ u :: states, i.selects lib v := by
  obtain ⟨hu, hstates⟩ := List.forall_mem_cons.mp hnamed
  rw [List.exists_mem_cons_iff, add_enqueues hids hi hu, updates_enqueue hids hi hstates]

theorem deletion_enqueued (u : Unstructured) (states : List Unstructured) {gone : Notified}
    {last : Option Unstructured} (hids : (t.current.map ScopeInterest.id).Nodup)
    (hi : i ∈ t.current) (hnamed : ∀ v ∈ u :: states, v.IsNamed ns name)
    (hgone : gone.Tells keys ns name last) :
    ((∃ n ∈ .add u :: updates u states, i.keyFor ns name ∈ n.enqueued lib keys t i.informer) →
      i.keyFor ns name ∈ (Notice.delete gone).enqueued lib keys t i.informer) ↔
    ((∃ v ∈ u :: states, i.selects lib v) → ∀ d ∈ last, i.selects lib d) := by
  have hgone : i.keyFor ns name ∈ (Notice.delete gone).enqueued lib keys t i.informer ↔
      ∀ d ∈ last, i.selects lib d := by
    refine (mem_fanOut hids hi hgone).trans ?_
    simp [ScopeInterest.matchesEither, ScopeInterest.selects]
  rw [enqueued_iff_selects hids hi hnamed, hgone]

def sampleWatchLib : WatchLib String where
  parse := .ok
  selects sel labels := labels.any (·.1 = sel)
  parseRedactionPath := fun _ => .error "no paths here"
  quote := fun s => s

def sampleKeyLib : KeyLib := ⟨fun _ => .error "no keys here", fun s => s⟩

def podInterest (version : String) (selectors : List String) : ScopeInterest String where
  informer := ⟨⟨"", version, "pods"⟩, namespaceA⟩
  gvk := ⟨coreGroup, version, podKind⟩
  sink := "s"
  ruleKeys := ["r"]
  selectors := selectors
  matchAll := selectors.isEmpty
  redaction := none

def labelled (labels : List String) : Unstructured where
  ns := namespaceA
  name := "x"
  object := .obj [("metadata", .obj [("labels", .obj (labels.map fun l => (l, .str "")))])]

def appOrWeb : InterestTable String := ⟨[podInterest "v1" ["app", "web"]]⟩

theorem moved_deletion_enqueued :
    (podInterest "v1" ["app", "web"]).keyFor ⟨"a", by decide⟩ "x" ∈
      (Notice.delete (.plain (.unstructured (labelled ["web"])))).enqueued sampleWatchLib
        sampleKeyLib appOrWeb (podInterest "v1" ["app", "web"]).informer := by
  refine (deletion_enqueued (labelled ["app"]) [labelled [], labelled ["web"]]
    (by decide) (.head _) ?_ (tells_of_named ⟨rfl, rfl⟩)).mpr ?_ ⟨_, .head _, by decide⟩
  · intro v hv
    simp only [List.mem_cons, List.not_mem_nil, or_false] at hv
    rcases hv with rfl | rfl | rfl <;> exact ⟨rfl, rfl⟩
  · rintro - _ ⟨⟩
    exact (by decide : ScopeInterest.matchesLabels sampleWatchLib (podInterest "v1" ["app", "web"])
      ((labelled ["web"]).getLabels.getD []) = true)

/-- The object loses the label before it is deleted: it was recorded, and its deletion is not. -/
theorem unlabelled_deletion_dropped :
    (∃ n ∈ Notice.add (labelled ["app"]) :: updates (labelled ["app"]) [labelled []],
        (podInterest "v1" ["app", "web"]).keyFor ⟨"a", by decide⟩ "x" ∈
          n.enqueued sampleWatchLib sampleKeyLib appOrWeb (podInterest "v1" ["app", "web"]).informer) ∧
      (podInterest "v1" ["app", "web"]).keyFor ⟨"a", by decide⟩ "x" ∉
        (Notice.delete (.plain (.unstructured (labelled [])))).enqueued sampleWatchLib
          sampleKeyLib appOrWeb (podInterest "v1" ["app", "web"]).informer := by
  exact ⟨⟨_, .head _, by decide⟩, by decide⟩

end Kuberecord

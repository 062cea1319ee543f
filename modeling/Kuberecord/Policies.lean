import Kuberecord.Redaction
import Mathlib.Data.List.Nodup

namespace Kuberecord

def RedactionPolicy.Compiled (parseRedactionPath : String → Except String RedactionPath)
    (p : RedactionPolicy) : Prop :=
  ∀ path ∈ p.paths, parseRedactionPath path.raw = .ok path

theorem distinctPaths_spec {paths : List RedactionPath}
    (h : ∀ a ∈ paths, ∀ b ∈ paths, a.raw = b.raw → a = b) :
    (distinctPaths paths).Nodup ∧ ∀ path, path ∈ distinctPaths paths ↔ path ∈ paths := by
  have go (merged : List RedactionPath) (hm : merged.Nodup)
      (h : ∀ a ∈ merged ++ paths, ∀ b ∈ merged ++ paths, a.raw = b.raw → a = b) :
      (paths.foldl (fun merged path => if merged.any (·.raw = path.raw) then merged else merged ++
        [path]) merged).Nodup ∧
        ∀ path, path ∈ paths.foldl (fun merged path =>
          if merged.any (·.raw = path.raw) then merged else merged ++ [path]) merged ↔
          path ∈ merged ++ paths := by
    clear * - hm h
    induction paths generalizing merged with
    | nil => exact ⟨hm, by simp⟩
    | cons p paths ih =>
      rw [List.foldl_cons]
      by_cases hp : merged.any (·.raw = p.raw)
      · rw [if_pos hp]
        obtain ⟨q, hq, hraw⟩ := List.any_eq_true.mp hp
        obtain rfl := h q (by simp [hq]) p (by simp) (by simpa using hraw)
        obtain ⟨hn, hmem⟩ := ih merged hm fun a ha b hb => h a (by grind) b (by grind)
        exact ⟨hn, fun path => by rw [hmem]; grind⟩
      · rw [if_neg hp]
        have hnew : p ∉ merged := fun hm => hp (List.any_eq_true.mpr ⟨p, hm, by simp⟩)
        obtain ⟨hn, hmem⟩ := ih (merged ++ [p]) (by simp [List.nodup_append, hm]; grind)
          (fun a ha b hb => h a (by grind) b (by grind))
        exact ⟨hn, fun path => by rw [hmem]; simp⟩
  exact go [] List.nodup_nil h

theorem mem_of_distinctPaths {paths : List RedactionPath} {path : RedactionPath}
    (h : path ∈ distinctPaths paths) :
    path ∈ paths := by
  have go (merged : List RedactionPath) (h : path ∈ paths.foldl (fun merged path =>
      if merged.any (·.raw = path.raw) then merged else merged ++ [path]) merged) : path ∈ merged ∨
      path ∈ paths := by
    clear * - h
    induction paths generalizing merged with
    | nil => exact .inl h
    | cons p paths ih =>
      rw [List.foldl_cons] at h
      split_ifs at h
      · exact (ih _ h).imp_right (.tail _)
      · rcases ih _ h with h | h
        · rcases List.mem_append.mp h with h | h
          · exact .inl h
          · exact .inr (by simp [List.mem_singleton.mp h])
        · exact .inr (.tail _ h)
  exact (go [] h).resolve_left List.not_mem_nil

theorem mem_of_mapM_ok {α β ε : Type} {f : α → Except ε β} {l : List α} {l' : List β} {b : β}
    (h : l.mapM f = .ok l') (hb : b ∈ l') : ∃ a ∈ l, f a = .ok b := by
  induction l generalizing l' with
  | nil =>
    cases h
    cases hb
  | cons a l ih =>
    rw [List.mapM_cons] at h
    cases ha : f a with
    | error e => simp [ha, bind, Except.bind] at h
    | ok b' =>
      cases hl : l.mapM f with
      | error e => simp [ha, hl, bind, Except.bind] at h
      | ok l'' =>
        simp only [ha, hl, bind, Except.bind, pure, Except.pure, Except.ok.injEq] at h
        subst h
        rcases List.mem_cons.mp hb with rfl | hb
        · exact ⟨a, .head _, ha⟩
        · obtain ⟨c, hc, hf⟩ := ih hl hb
          exact ⟨c, .tail _ hc, hf⟩

theorem compileRedaction_compiled {parse : String → Except String RedactionPath} {paths : List String}
    {policy : RedactionPolicy} (hraw : ∀ s path, parse s = .ok path → path.raw = s)
    (hbuiltin : builtinRedaction.Compiled parse) (h : compileRedaction parse paths = .ok policy) :
    policy.Compiled parse := by
  simp only [compileRedaction] at h
  cases hc : paths.mapM parse with
  | error err => simp [hc, bind, Except.bind] at h
  | ok compiled =>
    simp only [hc, bind, Except.bind, pure, Except.pure, Except.ok.injEq] at h
    subst h
    intro path hp
    rcases List.mem_append.mp (mem_of_distinctPaths ((List.mem_insertionSort _).mp hp)) with hp | hp
    · obtain ⟨s, -, hs⟩ := mem_of_mapM_ok hc hp
      exact hraw s path hs ▸ hs
    · exact hbuiltin path hp

theorem sorted_distinct_perm {paths paths' : List RedactionPath} (h : paths.Perm paths')
    (hinj : ∀ a ∈ paths, ∀ b ∈ paths, a.raw = b.raw → a = b) :
    sortPaths (distinctPaths paths) = sortPaths (distinctPaths paths') ∧
      (distinctPaths paths).Perm (distinctPaths paths') := by
  obtain ⟨hn, hmem⟩ := distinctPaths_spec hinj
  obtain ⟨hn', hmem'⟩ := distinctPaths_spec
    fun a ha b hb => hinj a (h.mem_iff.mpr ha) b (h.mem_iff.mpr hb)
  have hd := (List.perm_ext_iff_of_nodup hn hn').mpr fun path => by rw [hmem, hmem', h.mem_iff]
  have : Std.Total fun a b : RedactionPath => a.raw ≤ b.raw := ⟨fun a b => le_total a.raw b.raw⟩
  have : IsTrans RedactionPath fun a b => a.raw ≤ b.raw := ⟨fun _ _ _ => le_trans⟩
  refine ⟨List.Perm.eq_of_pairwise (fun a b ha hb hab hba => ?_) (List.pairwise_insertionSort _ _)
    (List.pairwise_insertionSort _ _) ?_, hd⟩
  · exact hinj a ((hmem a).mp ((List.mem_insertionSort _).mp ha))
      b (h.mem_iff.mpr ((hmem' b).mp ((List.mem_insertionSort _).mp hb))) (le_antisymm hab hba)
  · exact (List.perm_insertionSort _ _).trans (hd.trans (List.perm_insertionSort _ _).symm)

theorem mergeRedaction_perm {parse : String → Except String RedactionPath}
    {policies policies' : List (Option RedactionPolicy)} (h : policies.Perm policies')
    (hc : ∀ p ∈ policies, ∀ q ∈ p, q.Compiled parse) :
    mergeRedaction policies = mergeRedaction policies' := by
  have hperm := h.flatMap_right
    fun policy : Option RedactionPolicy => (policy.map RedactionPolicy.paths).getD []
  have hraw : ∀ a ∈ policies.flatMap (fun policy => (policy.map RedactionPolicy.paths).getD []),
      parse a.raw = .ok a := by
    intro a ha
    obtain ⟨p, hp, ha⟩ := List.mem_flatMap.mp ha
    cases p with
    | none => simp at ha
    | some q => exact hc _ hp q rfl a ha
  simp only [mergeRedaction]
  generalize policies.flatMap (fun policy => (policy.map RedactionPolicy.paths).getD []) =
    paths at hperm hraw ⊢
  obtain ⟨hsort, hd⟩ := sorted_distinct_perm hperm fun a ha b hb hr =>
    Except.ok.inj ((hraw a ha).symm.trans (hr ▸ hraw b hb))
  rw [hsort]
  by_cases he : distinctPaths paths = []
  · rw [if_pos he, if_pos (List.nil_perm.mp (he ▸ hd))]
  · rw [if_neg he, if_neg fun he' : distinctPaths _ = [] => he (List.perm_nil.mp (he' ▸ hd))]

theorem exists_mem_of_mapM_ok {α β ε : Type} {f : α → Except ε β} {l : List α} {l' : List β} {a : α}
    (h : l.mapM f = .ok l') (ha : a ∈ l) : ∃ b ∈ l', f a = .ok b := by
  induction l generalizing l' with
  | nil => cases ha
  | cons x l ih =>
    rw [List.mapM_cons] at h
    cases hx : f x with
    | error e => simp [hx, bind, Except.bind] at h
    | ok y =>
      cases hl : l.mapM f with
      | error e => simp [hx, hl, bind, Except.bind] at h
      | ok l'' =>
        simp only [hx, hl, bind, Except.bind, pure, Except.pure, Except.ok.injEq] at h
        subst h
        rcases List.mem_cons.mp ha with rfl | ha
        · exact ⟨y, .head _, hx⟩
        · obtain ⟨b, hb, hf⟩ := ih hl ha
          exact ⟨b, .tail _ hb, hf⟩

section

variable {parse : String → Except String RedactionPath}

theorem RedactionPolicy.Compiled.injective {paths : List RedactionPath}
    (h : ∀ path ∈ paths, parse path.raw = .ok path) :
    ∀ a ∈ paths, ∀ b ∈ paths, a.raw = b.raw → a = b :=
  fun a ha b hb hr => Except.ok.inj ((h a ha).symm.trans (hr ▸ h b hb))

theorem mem_compileRedaction {paths : List String} {policy : RedactionPolicy}
    (hraw : ∀ s path, parse s = .ok path → path.raw = s) (hbuiltin : builtinRedaction.Compiled parse)
    (h : compileRedaction parse paths = .ok policy) (path : RedactionPath) :
    path ∈ policy.paths ↔ path ∈ builtinRedaction.paths ∨ ∃ s ∈ paths, parse s = .ok path := by
  simp only [compileRedaction] at h
  cases hc : paths.mapM parse with
  | error err => simp [hc, bind, Except.bind] at h
  | ok compiled =>
    simp only [hc, bind, Except.bind, pure, Except.pure, Except.ok.injEq] at h
    subst h
    have hall : ∀ path ∈ compiled ++ builtinRedaction.paths, parse path.raw = .ok path := by
      intro path hp
      rcases List.mem_append.mp hp with hp | hp
      · obtain ⟨s, -, hs⟩ := mem_of_mapM_ok hc hp
        exact hraw s path hs ▸ hs
      · exact hbuiltin path hp
    simp only [sortPaths, List.mem_insertionSort]
    rw [(distinctPaths_spec (RedactionPolicy.Compiled.injective hall)).2, List.mem_append, or_comm]
    refine or_congr_right ⟨mem_of_mapM_ok hc, ?_⟩
    rintro ⟨s, hs, hp⟩
    obtain ⟨path', hpath', hp'⟩ := exists_mem_of_mapM_ok hc hs
    exact Except.ok.inj (hp'.symm.trans hp) ▸ hpath'

theorem mem_mergeRedaction {policies : List (Option RedactionPolicy)}
    (hc : ∀ p ∈ policies, ∀ q ∈ p, q.Compiled parse) (path : RedactionPath) :
    (∃ q ∈ mergeRedaction policies, path ∈ q.paths) ↔ ∃ p ∈ policies, ∃ q ∈ p, path ∈ q.paths := by
  have hmem : path ∈ policies.flatMap (fun policy => (policy.map RedactionPolicy.paths).getD []) ↔
      ∃ p ∈ policies, ∃ q ∈ p, path ∈ q.paths := by
    rw [List.mem_flatMap]
    refine exists_congr fun p => and_congr_right fun _ => ?_
    cases p <;> simp
  have hall : ∀ path ∈ policies.flatMap (fun policy => (policy.map RedactionPolicy.paths).getD []),
      parse path.raw = .ok path := by
    intro path hp
    obtain ⟨p, hp, hq⟩ := List.mem_flatMap.mp hp
    cases p with
    | none => cases hq
    | some q => exact hc _ hp q rfl path hq
  rw [← hmem, ← (distinctPaths_spec (RedactionPolicy.Compiled.injective hall)).2]
  simp only [mergeRedaction]
  split_ifs with he
  · rw [he]
    simp
  · simp [sortPaths]

inductive RedactionPolicy.Built (parse : String →
    Except String RedactionPath) : Option RedactionPolicy → Prop
  | nil : Built parse none
  | compile {paths : List String} {policy : RedactionPolicy} (h : compileRedaction parse paths =
      .ok policy) :
      Built parse (some policy)
  | merge {policies : List (Option RedactionPolicy)} (h : ∀ p ∈ policies, Built parse p) :
      Built parse (mergeRedaction policies)

theorem RedactionPolicy.Built.spec (hraw : ∀ s path, parse s = .ok path → path.raw = s)
    (hbuiltin : builtinRedaction.Compiled parse) {p : Option RedactionPolicy} (h : Built parse p) :
    ∀ q ∈ p, q.Compiled parse ∧ ∀ path ∈ builtinRedaction.paths, path ∈ q.paths := by
  induction h with
  | nil =>
    intro q hq
    cases hq
  | compile h =>
    rintro _ ⟨⟩
    exact ⟨compileRedaction_compiled hraw hbuiltin h, fun path hp =>
      (mem_compileRedaction hraw hbuiltin h path).mpr (.inl hp)⟩
  | merge h ih =>
    intro q hq
    have hmem := mem_mergeRedaction fun p hp q hq => (ih p hp q hq).1
    refine ⟨fun path hpath => ?_, fun path hpath => ?_⟩
    · obtain ⟨p, hp, q', hq', hpath⟩ := (hmem path).mp ⟨q, hq, hpath⟩
      exact (ih p hp q' hq').1 path hpath
    · have hne : ∃ first, first ∈ q.paths := by
        simp only [mergeRedaction] at hq
        split_ifs at hq with he
        · cases hq
        · cases hq
          obtain ⟨first, hfirst⟩ := List.exists_mem_of_ne_nil _ he
          exact ⟨first, (List.mem_insertionSort _).mpr hfirst⟩
      obtain ⟨first, hfirst⟩ := hne
      obtain ⟨p, hp, q', hq', -⟩ := (hmem first).mp ⟨q, hq, hfirst⟩
      obtain ⟨q'', hq'', hpath⟩ := (hmem path).mpr ⟨p, hp, q', hq', (ih p hp q' hq').2 path hpath⟩
      cases Option.mem_unique hq hq''
      exact hpath

theorem mem_merge_built (hraw : ∀ s path, parse s = .ok path → path.raw = s)
    (hbuiltin : builtinRedaction.Compiled parse) {policies : List (Option RedactionPolicy)}
    (h : ∀ p ∈ policies, RedactionPolicy.Built parse p) (hne : policies ≠ [])
    (path : RedactionPath) :
    path ∈ ((mergeRedaction policies).getD builtinRedaction).paths ↔
      ∃ p ∈ policies, path ∈ (p.getD builtinRedaction).paths := by
  have hspec := fun p hp => (h p hp).spec hraw hbuiltin
  have hmem := mem_mergeRedaction (fun p hp q hq => (hspec p hp q hq).1) path
  cases hm : mergeRedaction policies with
  | none =>
    have hall : ∀ p ∈ policies, p = none := by
      intro p hp
      cases p with
      | none => rfl
      | some q =>
        obtain ⟨first, hfirst⟩ : ∃ first, first ∈ builtinRedaction.paths := ⟨_, .head _⟩
        have := (mem_mergeRedaction (fun p hp q hq => (hspec p hp q hq).1) first).mpr
          ⟨_, hp, q, rfl, (hspec _ hp q rfl).2 first hfirst⟩
        simp [hm] at this
    obtain ⟨p, hp⟩ := List.exists_mem_of_ne_nil _ hne
    refine ⟨fun hpath => ⟨p, hp, by rwa [hall p hp]⟩, ?_⟩
    rintro ⟨p, hp, hpath⟩
    rwa [hall p hp] at hpath
  | some merged =>
    rw [hm] at hmem
    simp only [Option.mem_def, Option.some.injEq, exists_eq_left'] at hmem
    rw [Option.getD_some, hmem]
    refine ⟨fun ⟨p, hp, q, hq, hpath⟩ => ⟨p, hp, by rwa [hq]⟩, ?_⟩
    rintro ⟨p, hp, hpath⟩
    cases p with
    | some q => exact ⟨_, hp, q, rfl, hpath⟩
    | none => exact hmem.mp (((RedactionPolicy.Built.merge h).spec hraw hbuiltin merged hm).2 path hpath)

end

end Kuberecord

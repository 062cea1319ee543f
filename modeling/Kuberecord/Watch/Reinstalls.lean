import Kuberecord.Policies
import Kuberecord.Watch.Relabelings

namespace Kuberecord

open Tallies

variable {Sel : Type} {lib : WatchLib Sel} {pool : Pool}

theorem findSome?_perm {α β : Type*} {f : α → Option β} {l l' : List α} (h : l.Perm l')
    (hf : ∀ a ∈ l, ∀ b ∈ l, ∀ x y, f a = some x → f b = some y → x = y) :
    l.findSome? f = l'.findSome? f := by
  cases hl : l.findSome? f with
  | none =>
    rw [List.findSome?_eq_none_iff] at hl
    exact (List.findSome?_eq_none_iff.mpr fun a ha => hl a (h.mem_iff.mpr ha)).symm
  | some x =>
    obtain ⟨a, ha, hx⟩ := List.exists_of_findSome?_eq_some hl
    cases hl' : l'.findSome? f with
    | none => exact absurd hx (by simp [List.findSome?_eq_none_iff.mp hl' a (h.mem_iff.mp ha)])
    | some y =>
      obtain ⟨b, hb, hy⟩ := List.exists_of_findSome?_eq_some hl'
      rw [hf a ha b (h.mem_iff.mpr hb) x y hx hy]

def ScopeInterest.copy (pool : Pool) (cacheKey : String) (i : ScopeInterest Sel) : Option Json :=
  (pool i.informer).bind fun entry => entry.indexer cacheKey

theorem consult_obj (pool : Pool) (cacheKey : String) (interests : List (ScopeInterest Sel))
    (missing : Option (ScopeInterest Sel)) :
    (consult pool cacheKey interests missing).obj = interests.findSome?
    (ScopeInterest.copy pool cacheKey) ∧
      (consult pool cacheKey interests missing).found =
        (interests.findSome? (ScopeInterest.copy pool cacheKey)).isSome ∧
      (consult pool cacheKey interests missing).scopeActive = true := by
  induction interests generalizing missing with
  | nil => cases missing <;> exact ⟨rfl, rfl, rfl⟩
  | cons i interests ih =>
    cases hp : pool i.informer with
    | none => simpa [consult, hp, ScopeInterest.copy] using ih (some i)
    | some entry =>
      cases hx : entry.indexer cacheKey with
      | none => simpa [consult, hp, hx, ScopeInterest.copy] using ih missing
      | some u => simp [consult, hp, hx, ScopeInterest.copy]

theorem consult_err (pool : Pool) (cacheKey : String) (interests : List (ScopeInterest Sel))
    (missing : Option (ScopeInterest Sel)) :
    (consult pool cacheKey interests missing).err.isSome =
      ((interests.findSome? (ScopeInterest.copy pool cacheKey)).isNone &&
        (missing.isSome || interests.any fun i => (pool i.informer).isNone)) := by
  induction interests generalizing missing with
  | nil => cases missing <;> rfl
  | cons i interests ih =>
    cases hp : pool i.informer with
    | none => simp [consult, hp, ScopeInterest.copy, ih]
    | some entry =>
      cases hx : entry.indexer cacheKey with
      | none => simp [consult, hp, hx, ScopeInterest.copy, ih]
      | some u => simp [consult, hp, hx, ScopeInterest.copy]

def answering (pool : Pool) (ref : Key) (interests : List (ScopeInterest Sel)) :
    List (ScopeInterest Sel) :=
  let exact : IdentityKey := ⟨ref.group, ref.kind, ref.ns, ref.sink⟩
  let clusterWide : IdentityKey := ⟨ref.group, ref.kind, allNamespaces, ref.sink⟩
  if (interests.filter (·.identity = exact)).any fun i => (i.copy pool ref.informerCacheKey).isSome then
    interests.filter (·.identity = exact)
  else interests.filter (·.identity = clusterWide)

def Alike (pool : Pool) (desired : List (ScopeInterest Sel)) (ref : Key) : Prop :=
  ∀ i ∈ answering pool ref desired, ∀ j ∈ answering pool ref desired, ∀ x y,
    i.copy pool ref.informerCacheKey = some x → j.copy pool ref.informerCacheKey = some y → x = y

section

variable {interests interests' desired : List (ScopeInterest Sel)} {t t' : InterestTable Sel} {ref : Key}

theorem answering_perm (h : interests.Perm interests') :
    (answering pool ref interests).Perm (answering pool ref interests') := by
  simp only [answering]
  rw [(h.filter _).any_eq]
  split_ifs
  · exact h.filter _
  · exact h.filter _

theorem answering_cons {i : ScopeInterest Sel} (h : i ∈ answering pool ref (i :: interests)) :
    ∃ rest, answering pool ref (i :: interests) = i :: rest := by
  simp only [answering] at h ⊢
  split_ifs at h ⊢
  · exact ⟨_, List.filter_cons_of_pos (List.mem_filter.mp h).2⟩
  · exact ⟨_, List.filter_cons_of_pos (List.mem_filter.mp h).2⟩

theorem mem_of_answering {i : ScopeInterest Sel} (h : i ∈ answering pool ref interests) :
    i ∈ interests := by
  simp only [answering] at h
  split_ifs at h
  · exact List.mem_of_mem_filter h
  · exact List.mem_of_mem_filter h

theorem looked_up_eq (t : InterestTable Sel) (ref : Key) :
    (t.lookupIdentity ref).findSome? (ScopeInterest.copy pool ref.informerCacheKey) =
      (answering pool ref t.current).findSome? (ScopeInterest.copy pool ref.informerCacheKey) := by
  simp only [InterestTable.lookupIdentity, InterestTable.byIdentity, answering]
  split_ifs with heq hany hany
  · rfl
  · rw [heq]
  · obtain ⟨i, hi, hcopy⟩ := List.any_eq_true.mp hany
    rw [List.findSome?_append, Option.or_of_isSome]
    exact List.findSome?_isSome_iff.mpr ⟨i, hi, hcopy⟩
  · rw [List.findSome?_append, List.findSome?_eq_none_iff.mpr, Option.none_or]
    intro i hi
    rw [Bool.not_eq_true, List.any_eq_false] at hany
    exact Option.not_isSome_iff_eq_none.mp (hany i hi)

theorem lookupIdentity_perm (order order' : Shuffle (ScopeInterest Sel)) (ref : Key) :
    ((t.replace order desired).1.lookupIdentity ref).Perm
    ((t'.replace order' desired).1.lookupIdentity ref) := by
  have hperm (key : IdentityKey) :
      ((t.replace order desired).1.byIdentity key).Perm ((t'.replace order' desired).1.byIdentity key) :=
    ((order.perm desired).trans (order'.perm desired).symm).filter _
  simp only [InterestTable.lookupIdentity]
  split_ifs
  · exact hperm _
  · exact (hperm _).append (hperm _)

theorem looked_up_agree (h : Alike pool desired ref) (order order' : Shuffle (ScopeInterest Sel)) :
    ((t.replace order desired).1.lookupIdentity ref).findSome?
    (ScopeInterest.copy pool ref.informerCacheKey) =
      ((t'.replace order' desired).1.lookupIdentity ref).findSome?
        (ScopeInterest.copy pool ref.informerCacheKey) := by
  have hdesired : (answering pool ref (order.run desired)).Perm (answering pool ref desired) :=
    answering_perm (order.perm desired)
  rw [looked_up_eq, looked_up_eq]
  refine findSome?_perm (hdesired.trans (answering_perm (order'.perm desired)).symm) fun i hi j hj => ?_
  exact h i (hdesired.mem_iff.mp hi) j (hdesired.mem_iff.mp hj)

theorem exists_order_looked_up {i : ScopeInterest Sel} {x : Json} (h : i ∈ answering pool ref desired)
    (hx : i.copy pool ref.informerCacheKey = some x) : ∃ order : Shuffle (ScopeInterest Sel),
      ((t.replace order desired).1.lookupIdentity ref).findSome?
        (ScopeInterest.copy pool ref.informerCacheKey) =
        some x := by
  obtain ⟨order, rest, hrun⟩ := Shuffle.exists_head (mem_of_answering h)
  refine ⟨order, ?_⟩
  have hfirst : i ∈ answering pool ref (i :: rest) := by
    rw [← hrun]
    exact (answering_perm (order.perm desired)).mem_iff.mpr h
  obtain ⟨rest', heq⟩ := answering_cons hfirst
  rw [looked_up_eq, InterestTable.replace, hrun, heq, List.findSome?_cons, hx]

end

def GetAnswer.Agrees (a b : GetAnswer) : Prop :=
  a.obj = b.obj ∧ a.found = b.found ∧ a.scopeActive = b.scopeActive ∧ a.err.isSome = b.err.isSome

theorem InterestTable.mem_of_lookupIdentity {t : InterestTable Sel} {ref : Key} {i : ScopeInterest Sel}
    (h : i ∈ t.lookupIdentity ref) : i ∈ t.current := by
  simp only [InterestTable.lookupIdentity] at h
  split_ifs at h
  · exact List.mem_of_mem_filter h
  · exact (List.mem_append.mp h).elim List.mem_of_mem_filter List.mem_of_mem_filter

theorem InterestTable.get_obj (t : InterestTable Sel) (ref : Key) :
    (t.get pool ref).obj = (t.lookupIdentity ref).findSome?
    (ScopeInterest.copy pool ref.informerCacheKey) := by
  unfold InterestTable.get
  cases t.lookupIdentity ref with
  | nil => rfl
  | cons i interests => exact (consult_obj pool ref.informerCacheKey (i :: interests) none).1

theorem InterestTable.get_agrees {t t' : InterestTable Sel} {ref : Key}
    (hperm : (t.lookupIdentity ref).Perm (t'.lookupIdentity ref))
    (hcopies : (t.lookupIdentity ref).findSome? (ScopeInterest.copy pool ref.informerCacheKey) =
      (t'.lookupIdentity ref).findSome? (ScopeInterest.copy pool ref.informerCacheKey)) :
    (t.get pool ref).Agrees (t'.get pool ref) := by
  unfold InterestTable.get
  generalize t.lookupIdentity ref = interests at hperm hcopies ⊢
  generalize t'.lookupIdentity ref = interests' at hperm hcopies ⊢
  cases interests with
  | nil =>
    obtain rfl := List.nil_perm.mp hperm
    exact ⟨rfl, rfl, rfl, rfl⟩
  | cons i interests =>
    cases interests' with
    | nil => cases List.perm_nil.mp hperm
    | cons i' interests' =>
      obtain ⟨ho, hf, ha⟩ := consult_obj pool ref.informerCacheKey (i :: interests) none
      obtain ⟨ho', hf', ha'⟩ := consult_obj pool ref.informerCacheKey (i' :: interests') none
      refine ⟨by rw [ho, ho', hcopies], by rw [hf, hf', hcopies], by rw [ha, ha'], ?_⟩
      rw [consult_err, consult_err, hcopies, hperm.any_eq]

theorem InterestTable.redactionFor_perm {t t' : InterestTable Sel} {ref : Key}
    (hperm : (t.lookupIdentity ref).Perm (t'.lookupIdentity ref))
    (hc : ∀ i ∈ t.lookupIdentity ref, ∀ q ∈ i.redaction, q.Compiled lib.parseRedactionPath) :
    t.redactionFor ref = t'.redactionFor ref := by
  unfold InterestTable.redactionFor
  generalize t.lookupIdentity ref = interests at hperm hc ⊢
  generalize t'.lookupIdentity ref = interests' at hperm ⊢
  match interests, interests', hperm, hc with
  | [], _, hperm, _ => rw [List.nil_perm.mp hperm]
  | [i], _, hperm, _ => rw [List.singleton_perm.mp hperm]
  | _ :: _ :: _, [], hperm, _ => cases List.perm_nil.mp hperm
  | _ :: _ :: _, [j], hperm, _ => cases List.perm_singleton.mp hperm
  | i :: j :: interests, i' :: j' :: interests', hperm, hc =>
    have hall : ∀ p ∈ (i :: j :: interests).map ScopeInterest.redaction, ∀ q ∈ p,
        q.Compiled lib.parseRedactionPath := by
      intro p hp
      obtain ⟨k, hk, rfl⟩ := List.mem_map.mp hp
      exact hc k hk
    exact congrArg some (mergeRedaction_perm (hperm.map _) hall)

theorem reinstalled_set_invisible (lib : WatchLib Sel) {desired : List (ScopeInterest Sel)} {ref : Key}
    (hc : ∀ i ∈ desired, ∀ q ∈ i.redaction, q.Compiled lib.parseRedactionPath) :
    (Alike pool desired ref ↔ ∀ (order order' : Shuffle (ScopeInterest Sel)) (t t' : InterestTable Sel),
      ((t.replace order desired).1.get pool ref).Agrees ((t'.replace order' desired).1.get pool ref)) ∧
    ∀ (order order' : Shuffle (ScopeInterest Sel)) (t t' : InterestTable Sel),
      (t.replace order desired).1.redactionFor ref = (t'.replace order' desired).1.redactionFor ref := by
  refine ⟨⟨fun h order order' t t' => ?_, fun h i hi j hj x y hx hy => ?_⟩, fun order order' t t' => ?_⟩
  · exact InterestTable.get_agrees (lookupIdentity_perm order order' ref)
      (looked_up_agree h order order')
  · obtain ⟨order, hx⟩ := exists_order_looked_up (t := {}) hi hx
    obtain ⟨order', hy⟩ := exists_order_looked_up (t := {}) hj hy
    have hobj := (h order order' {} {}).1
    rw [InterestTable.get_obj, InterestTable.get_obj, hx, hy] at hobj
    exact Option.some.inj hobj
  · refine InterestTable.redactionFor_perm (lookupIdentity_perm order order' ref) fun i hi => hc i ?_
    exact (order.perm desired).mem_iff.mp (InterestTable.mem_of_lookupIdentity hi)

def twoVersions : List (ScopeInterest String) := [podInterest "v1" [], podInterest "v2" []]

def podKey : Key := (podInterest "v1" []).keyFor namespaceA "x"

def encodedCopies (v1 v2 : Option Json) : Pool := fun key =>
  some { indexer := fun _ => if key.gvr.version = "v1" then v1 else v2 }

theorem missing_copy_invisible :
    ((({} : InterestTable String).replace .id twoVersions).1.get
      (encodedCopies (some .null) none) podKey).Agrees
      ((({} : InterestTable String).replace .reverse twoVersions).1.get
          (encodedCopies (some .null) none) podKey) := by
  refine (reinstalled_set_invisible sampleWatchLib fun i hi q hq => ?_).1.mp
    (fun i hi j hj x y hx hy => ?_) .id .reverse {} {}
  · simp only [twoVersions, List.mem_cons, List.not_mem_nil, or_false] at hi
    rcases hi with rfl | rfl <;> cases hq
  · have mem {i : ScopeInterest String}
      (h : i ∈ answering (encodedCopies (some .null) none) podKey twoVersions) :
        i = podInterest "v1" [] ∨ i = podInterest "v2" [] := by
      simpa [twoVersions] using mem_of_answering h
    rcases mem hi with rfl | rfl <;> rcases mem hj with rfl | rfl <;>
      simp_all [ScopeInterest.copy, encodedCopies, podInterest]

/-- Two API versions of one kind: the table's order decides which encoding is recorded. -/
theorem reinstalled_set_visible :
    ((({} : InterestTable String).replace .id twoVersions).1.get
        (encodedCopies (some (.bool true)) (some (.bool false))) podKey).obj = some (.bool true) ∧
      ((({} : InterestTable String).replace .reverse twoVersions).1.get
        (encodedCopies (some (.bool true)) (some (.bool false))) podKey).obj = some (.bool false) := by
  exact ⟨rfl, rfl⟩

end Kuberecord

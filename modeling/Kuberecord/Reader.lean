import Kuberecord.Custody

/-!
Reconstructing a document from the rows of its history, in timestamp order: a row with `data`
replaces the document, any other row patches it.
-/

namespace Kuberecord

/-- What is documented of the libraries; `apply` is the reader's JSON Patch. -/
structure Lib.Lawful (lib : Lib) (apply : Bytes → Bytes → Option Bytes) : Prop where
  patch : ∀ a b patch diff, lib.compareJSON a b = some patch → lib.marshal patch = some diff →
    apply diff a = some b
  marshal : ∀ j b, lib.marshal j = some b → b ≠ []
  zstd : lib.zstd.Lossless

variable {lib : Lib} {apply : Bytes → Bytes →
  Option Bytes} {rows : List Record} {r : Record} {doc : Option Bytes}
  {norm : NormalizedObject} {plan : Plan} {base : Option CacheEntry} {ephemeral : Bool}

def replayRow (apply : Bytes → Bytes → Option Bytes) (doc : Option Bytes) (r : Record) : Option Bytes :=
  if r.data = [] then doc.bind (apply r.diff) else some r.data

def replay (apply : Bytes → Bytes → Option Bytes) (rows : List Record) : Option Bytes :=
  rows.foldl (replayRow apply) none

def Record.Follows (lib : Lib) (apply : Bytes → Bytes → Option Bytes) (doc : Option Bytes)
    (r : Record) : Prop :=
  r.data = [] → ∃ d d', doc = some d ∧ apply r.diff d = some d' ∧ lib.sha256 d' = r.sha256

def Readable (lib : Lib) (apply : Bytes → Bytes → Option Bytes) (rows : List Record) : Prop :=
  ∀ before r after, rows = before ++ r :: after → r.Follows lib apply (replay apply before)

theorem Readable.nil : Readable lib apply [] := by simp [Readable]

theorem Readable.of_append {rows' : List Record} (h : Readable lib apply (rows ++ rows')) :
    Readable lib apply rows := by
  rintro before r after rfl
  exact h before r (after ++ rows') (by simp)

theorem Readable.snoc (h : Readable lib apply rows) (hr : r.Follows lib apply (replay apply rows)) :
    Readable lib apply (rows ++ [r]) := by
  intro before r' after he
  rcases List.append_eq_append_iff.mp he with ⟨mid, rfl, hm⟩ | ⟨mid, rfl, hm⟩
  · cases mid with
    | nil =>
      cases hm
      simpa using hr
    | cons x mid => simp at hm
  · cases mid with
    | nil =>
      cases hm
      simpa using hr
    | cons x mid =>
      cases hm
      exact h before r' mid rfl

def CacheEntry.Holds (lib : Lib) (e : CacheEntry) (d : Bytes) : Prop :=
  e.json = none ∨ e.decodeBaseline lib.zstd = some (some d)

def Mirrors (lib : Lib) (apply : Bytes → Bytes → Option Bytes) (rows : List Record) :
    Option CacheEntry → Prop
  | none => rows = []
  | some e => ∃ d, replay apply rows = some d ∧ e.Holds lib d

theorem modifiedPlan_diff {every : Int} {e : CacheEntry}
    (h : (modifiedPlan lib ephemeral every e norm).carriesFullState = false) :
    ∃ d patch, e.json ≠ none ∧ e.decodeBaseline lib.zstd = some d ∧
      lib.compareJSON (d.getD []) norm.json = some patch ∧
      lib.marshal patch = some (modifiedPlan lib ephemeral every e norm).diffString := by
  by_cases he : ephemeral
  · simp [modifiedPlan, he] at h
  by_cases hj : e.json = none
  · simp [modifiedPlan, hj] at h
  cases hd : e.decodeBaseline lib.zstd with
  | none => simp [modifiedPlan, he, hj, hd] at h
  | some d =>
    cases hc : lib.compareJSON (d.getD []) norm.json with
    | none => simp [modifiedPlan, he, hj, hd, hc] at h
    | some patch =>
      cases hm : lib.marshal patch with
      | none => simp [modifiedPlan, he, hj, hd, hc, hm] at h
      | some bytes =>
        refine ⟨d, patch, hj, rfl, hc, ?_⟩
        simp only [modifiedPlan, he, hj, hd, hc, hm, Bool.false_eq_true, ↓reduceIte] at h ⊢
        split_ifs <;> rfl

theorem Planned.diff (h : Planned lib ephemeral norm base plan) (hc : plan.carriesFullState = false) :
    ∃ e d patch, base = some e ∧ e.json ≠ none ∧ e.decodeBaseline lib.zstd = some d ∧
      lib.compareJSON (d.getD []) norm.json = some patch ∧ lib.marshal patch = some plan.diffString := by
  cases h with
  | miss | superseding => cases hc
  | modified e every =>
    obtain ⟨d, patch, h⟩ := modifiedPlan_diff hc
    exact ⟨e, d, patch, rfl, h⟩

theorem replay_snoc : replay apply (rows ++ [r]) = replayRow apply (replay apply rows) r := by
  simp [replay]

section

variable {obj : Json} {policy : Option RedactionPolicy}

theorem upsertRecord_replay (hl : lib.Lawful apply) (hn : normalizeObject lib obj policy = some norm)
    (hp : Planned lib ephemeral norm base plan) (hm : Mirrors lib apply rows base)
    (clusterID : String) (key : Key) (ts : Nat) :
    (upsertRecord clusterID key norm plan ts).Follows lib apply (replay apply rows) ∧
      replay apply (rows ++ [upsertRecord clusterID key norm plan ts]) = some norm.json := by
  obtain ⟨v, hv⟩ := normalizeObject_json hn
  have hne := hl.marshal _ _ hv
  rw [replay_snoc]
  cases hc : plan.carriesFullState with
  | true =>
    have hdata : (upsertRecord clusterID key norm plan ts).data = norm.json := by simp [upsertRecord, hc]
    exact ⟨fun h => absurd (hdata ▸ h) hne, by rw [replayRow, hdata, if_neg hne]⟩
  | false =>
    have hdata : (upsertRecord clusterID key norm plan ts).data = [] := by simp [upsertRecord, hc]
    obtain ⟨e, d, patch, rfl, hj, hdec, hcmp, hmar⟩ := hp.diff hc
    obtain ⟨d', hd', hh⟩ := hm
    obtain rfl : d = some d' := Option.some.inj (hdec.symm.trans (hh.resolve_left hj))
    have happ : apply plan.diffString d' = some norm.json := hl.patch _ _ _ _ hcmp hmar
    refine ⟨fun _ => ⟨d', norm.json, hd', happ, (normalizeObject_hash hn).symm⟩, ?_⟩
    rw [replayRow, if_pos hdata, hd']
    exact happ

theorem confirmedEntry_holds (hl : lib.Lawful apply) :
    (confirmedEntry lib ephemeral norm plan).Holds lib norm.json := by
  cases ephemeral with
  | true => exact .inl rfl
  | false => exact .inr (hl.zstd.decode_compress norm.json _ rfl rfl)

end

end Kuberecord

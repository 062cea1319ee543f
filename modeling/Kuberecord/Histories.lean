import Kuberecord.Drafts

namespace Kuberecord

variable {lib : Lib} {apply : Bytes → Bytes →
  Option Bytes} {rows : List Record} {r : Record} {every : Int}

def Faithful (lib : Lib) (apply : Bytes → Bytes → Option Bytes) (rows : List Record) : Prop :=
  ∀ before r after, rows = before ++ r :: after → ∃ d, replay apply (before ++ [r]) = some d ∧
    lib.sha256 d = r.sha256

def diffsSince (rows : List Record) : Nat := (rows.reverse.takeWhile (·.data = [])).length

theorem diffsSince_snoc : diffsSince (rows ++ [r]) = if r.data = [] then diffsSince rows + 1 else 0 := by
  unfold diffsSince
  by_cases hr : r.data = []
  · simp [hr]
  · simp [hr]

theorem Faithful.nil : Faithful lib apply [] := by
  intro before r after h
  simp at h

theorem Faithful.snoc (h : Faithful lib apply rows) {d : Bytes}
    (hd : replay apply (rows ++ [r]) = some d) (hs : lib.sha256 d = r.sha256) :
    Faithful lib apply (rows ++ [r]) := by
  intro before r' after he
  rcases List.append_eq_append_iff.mp he with ⟨mid, rfl, hm⟩ | ⟨mid, rfl, hm⟩
  · cases mid with
    | nil =>
      cases hm
      simp only [List.append_nil]
      exact ⟨d, hd, hs⟩
    | cons x mid => simp at hm
  · cases mid with
    | nil =>
      cases hm
      simp only [List.append_nil] at hd
      exact ⟨d, hd, hs⟩
    | cons x mid =>
      cases hm
      exact h before r' mid rfl

theorem replay_from {base : Record} (hb : base.data ≠ []) (before rest : List Record) :
    replay apply (before ++ base :: rest) = replay apply (base :: rest) := by
  simp only [replay, List.foldl_append, List.foldl_cons, replayRow, if_neg hb]

theorem Faithful.from (h : Faithful lib apply rows) {before rest : List Record} {base : Record}
    (he : rows = before ++ base :: rest) (hb : base.data ≠ []) : Faithful lib apply (base :: rest) := by
  intro l r l' hl
  obtain ⟨d, hd, hs⟩ := h (before ++ l) r l' (by rw [he, hl, List.append_assoc])
  refine ⟨d, ?_, hs⟩
  cases l with
  | nil =>
    cases hl
    rw [← hd, List.append_nil]
    exact (replay_from hb before []).symm
  | cons x l =>
    cases hl
    rw [← hd, List.append_assoc, List.cons_append, replay_from hb]

structure Sealed (lib : Lib) (apply : Bytes → Bytes →
    Option Bytes) (every : Int) (rows : List Record) : Prop where
  faithful : Faithful lib apply rows
  ordered : rows.Pairwise (fun r r' => r.timestamp < r'.timestamp)
  bounded : 0 < every → diffsSince rows < every

theorem Sealed.nil : Sealed lib apply every [] := ⟨.nil, .nil, id⟩

structure CacheEntry.Agrees (lib : Lib) (apply : Bytes → Bytes → Option Bytes) (rows : String →
    List Record)
    (e : CacheEntry) : Prop where
  unclaimed : e.pendingDelete = false
  run : e.modifiedSinceCheckpoint = diffsSince (rows e.uid)
  baseline : e.json ≠ none → e.uid ≠ "" ∧ ∃ d, replay apply (rows e.uid) = some d ∧
    e.decodeBaseline lib.zstd = some (some d)

theorem modifiedPlan_run {ephemeral : Bool} {e : CacheEntry} {norm : NormalizedObject} {plan : Plan}
    (hp : modifiedPlan lib ephemeral every e norm = plan) :
    plan.revertEntry = some e ∧ (plan.eventType = .modified ∨ plan.eventType = .checkpoint ∧ 0 < every) ∧
      (plan.carriesFullState = true ∧ plan.modifiedRun = 0 ∨
        plan.carriesFullState = false ∧ plan.modifiedRun = e.modifiedSinceCheckpoint + 1 ∧
          (0 < every → (e.modifiedSinceCheckpoint + 1 : Int) < every)) := by
  have full {plan : Plan} (h : { eventType := .modified, revertEntry := some e } = plan) :
      plan.revertEntry = some e ∧ (plan.eventType = .modified ∨ plan.eventType = .checkpoint ∧
      0 < every) ∧
      (plan.carriesFullState = true ∧ plan.modifiedRun = 0 ∨
        plan.carriesFullState = false ∧ plan.modifiedRun = e.modifiedSinceCheckpoint + 1 ∧
          (0 < every → (e.modifiedSinceCheckpoint + 1 : Int) < every)) :=
    h ▸ ⟨rfl, .inl rfl, .inl ⟨rfl, rfl⟩⟩
  unfold modifiedPlan at hp
  dsimp only at hp
  split_ifs at hp with heph hjson
  · exact full hp
  · exact full hp
  split at hp
  · exact full hp
  split at hp
  · exact full hp
  split at hp
  · exact full hp
  split_ifs at hp with hdue
  · subst hp
    refine ⟨rfl, .inr ⟨rfl, ?_⟩, .inl ⟨rfl, rfl⟩⟩
    by_contra hle
    simp [checkpointDue, Int.not_lt.mp hle] at hdue
  · subst hp
    refine ⟨rfl, .inl rfl, .inr ⟨rfl, rfl, fun hpos => ?_⟩⟩
    by_contra hge
    refine hdue ?_
    simp only [checkpointDue]
    rw [if_neg (by omega), if_pos (by push_cast; omega)]
    rfl

section

variable {ephemeral : Bool} {norm : NormalizedObject} {base : Option CacheEntry} {plan : Plan}

theorem Paced.revertEntry (h : Paced lib ephemeral every norm base plan) :
    ∀ e ∈ plan.revertEntry, base = some e := by
  intro e he
  cases h with
  | miss | superseding => cases he
  | modified b hs =>
    rw [(modifiedPlan_run rfl).1] at he
    exact he

theorem Paced.eventType (h : Paced lib ephemeral every norm base plan) :
    plan.eventType ≠ .deleted ∧ (plan.eventType = .checkpoint → 0 < every) := by
  cases h with
  | miss eventType ht =>
    rcases ht with rfl | rfl
    · exact ⟨nofun, nofun⟩
    · exact ⟨nofun, nofun⟩
  | superseding => exact ⟨nofun, nofun⟩
  | modified b hs =>
    have hrun := modifiedPlan_run (rfl : modifiedPlan lib ephemeral every b norm = _)
    rcases hrun.2.1 with ht | ⟨ht, hpos⟩
    · rw [ht]
      exact ⟨nofun, nofun⟩
    · rw [ht]
      exact ⟨nofun, fun _ => hpos⟩

theorem Paced.planned (h : Paced lib ephemeral every norm base plan) :
    plan.carriesFullState = true ∧ plan.modifiedRun = 0 ∨
      plan.carriesFullState = false ∧ ∃ e d patch, base = some e ∧ ¬ Supersedes norm e ∧ e.json ≠ none ∧
        e.decodeBaseline lib.zstd = some d ∧ lib.compareJSON (d.getD []) norm.json = some patch ∧
        lib.marshal patch = some plan.diffString ∧ plan.modifiedRun = e.modifiedSinceCheckpoint + 1 ∧
        (0 < every → (e.modifiedSinceCheckpoint + 1 : Int) < every) := by
  cases h with
  | miss | superseding => exact .inl ⟨rfl, rfl⟩
  | modified e hs =>
    rcases (modifiedPlan_run rfl).2.2 with hfull | ⟨hdiff, hrun, hlt⟩
    · exact .inl hfull
    · obtain ⟨d, patch, hj, hd, hc, hm⟩ := modifiedPlan_diff hdiff
      exact .inr ⟨hdiff, e, d, patch, rfl, hs, hj, hd, hc, hm, hrun, hlt⟩

def addRow (rows : String → List Record) (r : Record) : String → List Record :=
  Function.update rows r.uid (rows r.uid ++ [r])

variable {history : String → List Record} {obj : Json} {policy : Option RedactionPolicy}
  {clusterID : String} {key : Key}
  {ts : Nat}

theorem Paced.continues (hp : Paced lib ephemeral every norm base plan) (clusterID : String)
    (key : Key) (ts : Nat) (hl : lib.Lawful apply)
    (hn : normalizeObject lib obj policy = some norm)
    (hb : ∀ e ∈ base, e.Agrees lib apply history) :
    replay apply (history norm.uid ++ [upsertRecord clusterID key norm plan ts]) = some norm.json ∧
      diffsSince (history norm.uid ++ [upsertRecord clusterID key norm plan ts]) = plan.modifiedRun ∧
      (0 < every → (plan.modifiedRun : Int) < every) := by
  obtain ⟨v, hv⟩ := normalizeObject_json hn
  have hne := hl.marshal _ _ hv
  rw [replay_snoc, diffsSince_snoc]
  rcases hp.planned with ⟨hfull, hrun⟩ | ⟨hdiff, e, d, patch, rfl, hs, hj, hd, hc, hm, hrun, hlt⟩
  · have hdata : (upsertRecord clusterID key norm plan ts).data = norm.json :=
      by simp [upsertRecord, hfull]
    rw [replayRow, hdata, if_neg hne, if_neg hne, hrun]
    exact ⟨rfl, rfl, id⟩
  · have hdata : (upsertRecord clusterID key norm plan ts).data = [] := by simp [upsertRecord, hdiff]
    obtain ⟨hu, d', hd', hdec⟩ := (hb e rfl).baseline hj
    have huid : e.uid = norm.uid := by
      by_contra hne
      exact hs ⟨hu, hne⟩
    obtain rfl : d = some d' := Option.some.inj (hd.symm.trans hdec)
    rw [replayRow, if_pos hdata, if_pos hdata, ← huid, hd', hrun, (hb e rfl).run]
    refine ⟨hl.patch _ _ _ _ hc hm, rfl, ?_⟩
    rw [(hb e rfl).run] at hlt
    exact_mod_cast hlt

theorem Paced.seals (hp : Paced lib ephemeral every norm base plan) (hl : lib.Lawful apply)
    (hn : normalizeObject lib obj policy = some norm) (hb : ∀ e ∈ base, e.Agrees lib apply history)
    (hs : Sealed lib apply every (history norm.uid)) (hts : ∀ r ∈ history norm.uid, r.timestamp < ts) :
    Sealed lib apply every (history norm.uid ++ [upsertRecord clusterID key norm plan ts]) := by
  obtain ⟨hreplay, hdiffs, hlt⟩ := hp.continues clusterID key ts hl hn hb
  refine ⟨hs.faithful.snoc hreplay (normalizeObject_hash hn).symm, ?_, ?_⟩
  · refine List.pairwise_append.mpr ⟨hs.ordered, List.pairwise_singleton _ _, fun r hr r' hr' => ?_⟩
    cases List.mem_singleton.mp hr'
    exact hts r hr
  · rw [hdiffs]
    exact hlt

theorem Paced.confirms (hp : Paced lib false every norm base plan) (hl : lib.Lawful apply)
    (hn : normalizeObject lib obj policy = some norm) (hb : ∀ e ∈ base, e.Agrees lib apply history)
    (hu : norm.uid ≠ "") :
    (confirmedEntry lib false norm plan).Agrees lib
    apply (addRow history (upsertRecord clusterID key norm plan ts)) := by
  obtain ⟨hreplay, hdiffs, -⟩ := hp.continues clusterID key ts hl hn hb
  have hrows : addRow history (upsertRecord clusterID key norm plan ts) norm.uid =
      history norm.uid ++ [upsertRecord clusterID key norm plan ts] := Function.update_self ..
  refine ⟨rfl, ?_, fun _ => ⟨hu, norm.json, ?_, hl.zstd.decode_compress norm.json _ rfl rfl⟩⟩
  · exact (hrows ▸ hdiffs).symm
  · exact hrows ▸ hreplay

end

end Kuberecord

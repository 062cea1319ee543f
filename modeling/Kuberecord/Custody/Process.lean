import Kuberecord.Custody

namespace Kuberecord

open Threads

variable {cfg : Config} {owner : Tid} {seen : Seen} {key : Key} {st : Inst} {k : String} {r : Record}

theorem enqueueCloseOut_outs {records : List Record} (ho : key.Owns st k) :
    (custody cfg).Obeys (enqueueCloseOut key st k r) ⟨.worker key, seen, .outs st k (r :: records)⟩
      (fun _ h' => h' = ⟨.worker key, seen, .outsOf st k records⟩) := by
  simp [enqueueCloseOut, custody, Hand.Allowed, Hand.MayEnqueue, Hand.next, Hand.nextSeen,
    Hand.nextPhase, ho]

theorem enqueueCloseOut_history (hn : owner.isWorker = false) (ho : key.Owns st k)
    (he : key.ephemeral = false) (hi : seen.inst = some st) {x : KnownState}
    (hs : seen.Outlived key x) :
    (custody cfg).Obeys (enqueueCloseOut key st k (x.reincarnation.closeOutRecord cfg.clusterID key))
      ⟨owner, seen, .idle⟩ (fun _ h' => h' = ⟨owner, seen, .idle⟩) := by
  simp only [enqueueCloseOut, Program.perform_bind, Protocol.obeys_op]
  refine ⟨⟨rfl, ho, rfl, .inr (.inr ⟨hn, rfl, hi, he, x, hs, rfl⟩)⟩, fun accepted _ => ?_⟩
  cases accepted <;> simp [custody, Hand.Allowed, Hand.next, Hand.nextSeen, Hand.nextPhase, Phase.outsOf]

theorem retryPendingCloseOuts_obeys (ho : key.Owns st k) (hi : seen.inst = some st) :
    (custody cfg).Obeys (retryPendingCloseOuts key st k) ⟨.worker key, seen, .idle⟩
      (fun _ h' => h' = ⟨.worker key, seen, .idle⟩) := by
  simp only [retryPendingCloseOuts, Program.perform_bind, Protocol.obeys_op]
  refine ⟨⟨rfl, hi, key, rfl, ho⟩, fun records _ => ?_⟩
  refine Protocol.Obeys.forM _ (I := fun records (h : Hand) =>
    h = ⟨.worker key, seen, .outsOf st k records⟩) ?_ rfl
  rintro r records _ rfl
  exact enqueueCloseOut_outs ho

theorem emitDelete_obeys (ho : key.Owns st key.cacheKey) (he : key.ephemeral = false) {uid : String}
    (hm : Hand.MayClaim ⟨owner, seen, .idle⟩ st key.cacheKey uid) :
    (custody cfg).Obeys (emitDelete cfg key st uid) ⟨owner, seen, .idle⟩
      (fun _ h' => h' = ⟨owner, seen, .idle⟩) := by
  simp only [emitDelete, Program.perform_bind, Protocol.obeys_op]
  refine ⟨.inl ⟨rfl, hm⟩, fun claim _ => ?_⟩
  cases claim <;> simp [custody, Hand.Allowed, Hand.MayEnqueue, Hand.next, Hand.nextSeen,
    Hand.nextPhase, ho, he]

theorem forgetEphemeral_obeys (ho : key.Owns st key.cacheKey) (he : key.ephemeral = true)
    (hi : seen.inst = some st) (hm : seen.Misses key) :
    (custody cfg).Obeys (forgetEphemeral key st) ⟨.worker key, seen, .idle⟩
      (fun _ h' => h' = ⟨.worker key, seen, .idle⟩) := by
  simp only [forgetEphemeral, Program.perform_bind, Protocol.obeys_op]
  refine ⟨.inl ⟨rfl, hi, key, ho, .inl ⟨rfl, hm⟩⟩, fun claim _ => ?_⟩
  cases claim <;> simp [custody, Hand.Allowed, Hand.next, Hand.nextSeen, Hand.nextPhase, ho, he]

theorem closeOutSuperseded_obeys (ho : key.Owns st key.cacheKey) {e : CacheEntry}
    {norm : NormalizedObject} (hn : Observed cfg key seen norm) (hs : Supersedes norm e) :
    (custody cfg).Obeys (closeOutSuperseded cfg key st e) ⟨.worker key, seen,
      .loaded st key.cacheKey (some e)⟩
      (fun _ h' => h' = ⟨.worker key, seen,
        if key.ephemeral then .loaded st key.cacheKey (some e) else .superseded st key.cacheKey e⟩) := by
  unfold closeOutSuperseded
  by_cases he : key.ephemeral
  · simp [he]
  · simp only [he, Bool.false_eq_true, ↓reduceIte, Program.perform_bind, Protocol.obeys_op]
    refine ⟨.inr ⟨key, e, norm, rfl, ho, by simpa using he, rfl, hn, hs, rfl⟩, fun claim _ => ?_⟩
    cases claim <;>
      simp [enqueueCloseOut, custody, Hand.Allowed, Hand.MayEnqueue, Hand.next, Hand.nextSeen,
        Hand.nextPhase, ho]

theorem issueUpsert_obeys (ho : key.Owns st key.cacheKey) {base : Option CacheEntry}
    {norm : NormalizedObject} {plan : Plan} {p : Phase} (hd : Decided cfg key seen base norm plan)
    (hp : p = .loaded st key.cacheKey base ∧ (∀ e ∈ base, Supersedes norm e → key.ephemeral = true) ∨
      ∃ e, base = some e ∧ Supersedes norm e ∧ p = .superseded st key.cacheKey e) :
    (custody cfg).Obeys (issueUpsert cfg key st norm plan) ⟨.worker key, seen, p⟩
      (fun _ h' => h' = ⟨.worker key, seen, .idle⟩) := by
  simp only [issueUpsert, Program.perform_bind, Protocol.obeys_op]
  refine ⟨⟨key, base, norm, plan, rfl, ho, hd, rfl, hp⟩, fun t _ => ?_⟩
  have hn : (custody cfg).next ⟨.worker key, seen, p⟩
      (.reserve st key.cacheKey (confirmedEntry cfg.lib key.ephemeral norm plan)) t =
      ⟨.worker key, seen,
        .reserved st key.cacheKey base (confirmedEntry cfg.lib key.ephemeral norm plan) t none⟩ := by
    rcases hp with ⟨rfl, -⟩ | ⟨e, rfl, -, rfl⟩ <;> rfl
  rw [hn]
  refine ⟨trivial, fun ts _ => ⟨⟨base, norm, plan, ts, rfl, ho, rfl, hd, rfl, rfl, rfl, rfl⟩,
    fun accepted _ => ?_⟩⟩
  cases accepted with
  | true => rfl
  | false =>
    cases hr : plan.revertEntry <;>
      simp [revertVersion, custody, Hand.Allowed, Hand.next, Hand.nextSeen, Hand.nextPhase]

theorem processUpsert_obeys (ho : key.Owns st key.cacheKey) (writer : Writer) {obj : Json}
    (hi : seen.inst = some st) (hs : seen.Shows key obj) :
    (custody cfg).Obeys (processUpsert cfg key st writer obj) ⟨.worker key, seen, .idle⟩
      (fun _ h' => h'.phase.done) := by
  simp only [processUpsert, Program.perform_bind, Protocol.obeys_op]
  refine ⟨trivial, fun policy _ => ?_⟩
  cases policy with
  | none => exact trivial
  | some policy =>
    simp only
    cases hn : normalizeObject cfg.lib obj policy with
    | none => exact trivial
    | some norm =>
      have hobs : Observed cfg key seen norm := ⟨obj, policy, hs, hn⟩
      have idle : ∀ (_ : Option Err) (h' : Hand), h' = ⟨.worker key, seen, .idle⟩ → h'.phase.done := by
        rintro _ _ rfl
        trivial
      simp only [Protocol.obeys_op]
      refine ⟨⟨rfl, hi, key, rfl, ho⟩, fun base _ => ?_⟩
      cases base with
      | none =>
        simp only
        split_ifs with he
        · exact (issueUpsert_obeys ho ⟨hobs, .miss _ (by decide) (fun _ => rfl)⟩
            (.inl ⟨rfl, by simp⟩)).mono _ idle
        · refine ⟨trivial, fun warm _ =>
            (issueUpsert_obeys ho ⟨hobs, .miss _ ?_ ?_⟩ (.inl ⟨rfl, by simp⟩)).mono _ idle⟩
          · cases warm <;> decide
          · exact fun h => absurd h he
      | some e =>
        simp only
        split_ifs with hsup hhash
        · refine Protocol.Obeys.bind _ (closeOutSuperseded_obeys ho hobs hsup) ?_
          rintro _ _ rfl
          refine (issueUpsert_obeys ho ⟨hobs, .superseding e hsup⟩ ?_).mono _ idle
          by_cases he : key.ephemeral
          · exact .inl ⟨by simp [he], by simp [he]⟩
          · exact .inr ⟨e, rfl, hsup, by simp [he]⟩
        · exact ⟨trivial, fun _ _ => trivial⟩
        · refine (issueUpsert_obeys ho ⟨hobs, .modified e _ hsup hhash⟩ (.inl ⟨rfl, ?_⟩)).mono _ idle
          rintro _ ⟨⟩ h
          exact absurd h hsup

theorem process_obeys (key : Key) : (custody cfg).Obeys (process cfg key) ⟨.worker key, {}, .idle⟩
      (fun _ h' => h'.phase.done) := by
  simp only [process, Program.perform_bind, Protocol.obeys_op]
  refine ⟨trivial, fun lookup _ => ?_⟩
  cases lookup with
  | none => exact trivial
  | some lookup =>
    simp only
    split_ifs with hactive heph
    · exact trivial
    · simp only [Bool.and_eq_true, Option.isNone_iff_eq_none] at heph
      refine ⟨trivial, fun st hst => ?_⟩
      refine Protocol.Obeys.bind _ (forgetEphemeral_obeys ⟨hst, rfl⟩ heph.2 rfl ?_) ?_
      · exact ⟨lookup, rfl, by simpa using hactive, heph.1⟩
      · rintro _ _ rfl
        exact trivial
    · refine ⟨trivial, fun writer _ => ?_⟩
      cases writer with
      | none => exact trivial
      | some writer =>
        refine ⟨trivial, fun st hst => ?_⟩
        refine Protocol.Obeys.bind _ (retryPendingCloseOuts_obeys ⟨hst, rfl⟩ rfl) ?_
        rintro _ _ rfl
        cases hobj : lookup.obj with
        | none =>
          have he : key.ephemeral = false := by simpa [hobj] using heph
          refine Protocol.Obeys.bind _ (emitDelete_obeys ⟨hst, rfl⟩ he ?_) ?_
          · exact ⟨rfl, key, ⟨hst, rfl⟩, .inl ⟨rfl, lookup, rfl, by simpa using hactive, hobj⟩⟩
          · rintro _ _ rfl
            exact trivial
        | some obj => exact processUpsert_obeys ⟨hst, rfl⟩ writer rfl ⟨lookup, rfl,
            by simpa using hactive, hobj⟩

end Kuberecord

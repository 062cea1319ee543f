import Kuberecord.Gating
import Kuberecord.Library.Runs

namespace Kuberecord

inductive CacheOp
  | reserve (entry : CacheEntry)
  | reserveDelete (expectedUID : String)
  | commitIfCurrent (t : Ticket) (entry : CacheEntry)
  | deleteIfCurrent (t : Ticket)
  | unclaimDelete (t : Ticket)
  | storeIfAbsent (entry : CacheEntry)
  | deletePrefix (pre : String)

def CacheOp.ticket? : CacheOp → Option Ticket
  | .commitIfCurrent t _ | .deleteIfCurrent t | .unclaimDelete t => some t
  | _ => none

structure Issuer where
  cache : HashCache := .empty
  issued : List Ticket := []

namespace Issuer

variable {key : String} {s s' : Issuer} {t : Ticket} {op : CacheOp} {ops : List CacheOp}

def put (s : Issuer) (key : String) (slot : Slot) : Issuer :=
  { s with cache := Function.update s.cache key slot }

def issue (s : Issuer) (key : String) (r : Slot × Ticket) : Issuer :=
  { s.put key r.1 with issued := r.2 :: s.issued }

def call (key : String) (s : Issuer) : CacheOp → Issuer
  | .reserve entry => s.issue key ((s.cache key).reserve entry)
  | .reserveDelete expectedUID =>
    match (s.cache key).reserveDelete expectedUID with
    | (slot, .claimed _ t) => s.issue key (slot, t)
    | (slot, _) => s.put key slot
  | .commitIfCurrent t entry => s.put key ((s.cache key).commitIfCurrent t.version entry).1
  | .deleteIfCurrent t => s.put key ((s.cache key).deleteIfCurrent t.version).1
  | .unclaimDelete t => s.put key ((s.cache key).unclaimDelete t.version)
  | .storeIfAbsent entry => s.put key ((s.cache key).storeIfAbsent entry)
  | .deletePrefix pre => { s with cache := s.cache.deletePrefix pre }

def step (key : String) (s : Issuer) (op : CacheOp) : Option Issuer :=
  if ∀ t ∈ op.ticket?, t ∈ s.issued then some (s.call key op) else none

def Installed (s : Issuer) (key : String) (t : Ticket) : Prop :=
  (s.cache key).entry.isSome ∧ (s.cache key).installs = t.issue

/-- The key was removed and re-created since `t` was issued, and the restarted versions
are back at the one `t` carries. -/
def Recycled (s : Issuer) (key : String) (t : Ticket) : Prop :=
  t.issue < (s.cache key).base ∧ (s.cache key).Current t.version

instance : Decidable (s.Recycled key t) := inferInstanceAs (Decidable (_ ∧ _))

structure Sound (key : String) (s : Issuer) : Prop where
  gated : (s.cache key).Gated
  issued : ∀ t ∈ s.issued, (s.cache key).Issued t

theorem Sound.put (h : s.Sound key) {slot : Slot} (hg : slot.Gated)
    (hi : ∀ t, (s.cache key).Issued t → slot.Issued t) : (s.put key slot).Sound key :=
  ⟨by simpa [Issuer.put] using hg, fun t ht => by simpa [Issuer.put] using hi t (h.issued t ht)⟩

theorem Sound.issue (h : s.Sound key) {slot : Slot} (hg : slot.Gated)
    (hi : ∀ t, (s.cache key).Issued t → slot.Issued t) (ht : slot.Issued t) :
    (s.issue key (slot, t)).Sound key := by
  refine ⟨by simpa [Issuer.issue, Issuer.put] using hg, ?_⟩
  intro u hu
  simp only [Issuer.issue, List.mem_cons] at hu
  rcases hu with rfl | hu
  · simpa [Issuer.issue, Issuer.put] using ht
  · simpa [Issuer.issue, Issuer.put] using hi u (h.issued u hu)

theorem Sound.call (h : s.Sound key) (ht : ∀ t ∈ op.ticket?, t ∈ s.issued) :
    (s.call key op).Sound key := by
  cases op with
  | reserve entry => exact h.issue h.gated.reserve (fun _ hi => hi.install) (.fresh h.gated)
  | reserveDelete uid =>
    simp only [Issuer.call]
    have hg := h.gated.reserveDelete uid
    have hi : ∀ t, (s.cache key).Issued t → ((s.cache key).reserveDelete uid).1.Issued t :=
      fun _ hi => hi.reserveDelete uid
    split
    · rename_i slot e t hc
      rw [hc] at hg hi
      refine h.issue hg hi ?_
      obtain ⟨hs, -, -, rfl, rfl⟩ := Slot.reserveDelete_claimed hc
      have hf := Slot.Issued.fresh h.gated
        (e := { e with version := e.version + 1, pendingDelete := true })
      simpa [Slot.version, hs] using hf
    · rename_i slot r hr hc
      rw [hc] at hg hi
      exact h.put hg hi
  | commitIfCurrent t entry =>
    exact h.put (h.gated.commitIfCurrent (h.issued t (ht t rfl)).version_pos)
      (fun _ hi => hi.commitIfCurrent)
  | deleteIfCurrent t => exact h.put h.gated.deleteIfCurrent (fun _ hi => hi.deleteIfCurrent)
  | unclaimDelete t => exact h.put h.gated.unclaimDelete (fun _ hi => hi.unclaimDelete)
  | storeIfAbsent entry => exact h.put h.gated.storeIfAbsent (fun _ hi => hi.storeIfAbsent)
  | deletePrefix pre =>
    constructor
    · simp only [Issuer.call, HashCache.deletePrefix]
      split_ifs
      · exact h.gated.remove
      · exact h.gated
    · intro t ht
      have hi := h.issued t ht
      simp only [Issuer.call, HashCache.deletePrefix]
      split_ifs
      · exact hi.withEntry _
      · exact hi

theorem run_sound (h : Runs.Run (step key) (fun _ _ => True) {} ops s) : s.Sound key := by
  refine h.invariant ?_ ⟨Slot.Gated.empty, by simp⟩
  intro s op s' hs _ hst
  simp only [step, Option.ite_none_right_eq_some, Option.some.injEq] at hst
  exact hst.2 ▸ hs.call hst.1

theorem call_stale (hop : op.ticket? = some t) (hv : t.version ≠ 0)
    (hc : ¬ (s.cache key).Current t.version) : (s.call key op).cache = s.cache := by
  cases op <;> simp only [CacheOp.ticket?, Option.some.injEq, reduceCtorEq] at hop <;> subst hop
  · simp [call, put, Slot.commitIfCurrent_stale hc hv]
  · simp [call, put, Slot.deleteIfCurrent_stale hc]
  · simp [call, put, Slot.unclaimDelete_stale hc]

def Honoured (s : Issuer) (key : String) (t : Ticket) : Prop :=
  ∀ op s', op.ticket? = some t → step key s op = some s' →
    (s'.cache ≠ s.cache → s.Installed key t) ∧ (t.issue < (s.cache key).installs → s'.cache = s.cache)

theorem honoured_iff (h : Runs.Run (step key) (fun _ _ => True) {} ops s) (ht : t ∈ s.issued) :
    s.Honoured key t ↔ ¬ s.Recycled key t := by
  obtain ⟨hg, hi⟩ := run_sound h
  have hit := hi t ht
  constructor
  · rintro hh ⟨hb, hc⟩
    have hlt : t.issue < (s.cache key).installs := Nat.lt_of_lt_of_le hb hg.base_le
    have hst : step key s (.deleteIfCurrent t) = some (s.call key (.deleteIfCurrent t)) := by
      simp [step, CacheOp.ticket?, ht]
    have heq := congrFun ((hh _ _ rfl hst).2 hlt) key
    obtain ⟨cur, hs, _⟩ := Slot.current_iff.mp hc
    simp only [call, put, Slot.deleteIfCurrent_current hc, Function.update_self] at heq
    rw [← heq] at hs
    simp [Slot.remove] at hs
  · intro hr op s' hop hst
    simp only [step, Option.ite_none_right_eq_some, Option.some.injEq] at hst
    obtain ⟨-, rfl⟩ := hst
    by_cases hc : (s.cache key).Current t.version
    · have hb : (s.cache key).base ≤ t.issue := Nat.le_of_not_lt (fun hlt => hr ⟨hlt, hc⟩)
      have he := hit.issue_eq hg hb hc
      obtain ⟨cur, hs, _⟩ := Slot.current_iff.mp hc
      exact ⟨fun _ => ⟨by simp [hs], he.symm⟩, fun hlt => absurd he (Nat.ne_of_lt hlt)⟩
    · have hn := call_stale hop hit.version_pos hc
      exact ⟨fun hne => absurd hn hne, fun _ => hn⟩

def replay (key : String) (ops : List CacheOp) : Issuer := ops.foldl (call key) {}

theorem honoured_after_supersede :
    (replay "|Pod|a/x" [.reserve { hash := "h" }, .reserve { hash := "i" }]).Honoured
      "|Pod|a/x" ⟨1, 1⟩ :=
  have hrun : Runs.Run (step "|Pod|a/x") (fun _ _ => True) {} [.reserve { hash := "h" },
    .reserve { hash := "i" }]
      (replay "|Pod|a/x" [.reserve { hash := "h" }, .reserve { hash := "i" }]) := Runs.Run.of_exec rfl
  (honoured_iff hrun (by decide)).mpr (by decide)

/-- A first write is still in flight when the object dies, is recorded dead and comes back. -/
theorem recycled_version_not_honoured : ∃ (ops : List CacheOp) (s : Issuer) (t : Ticket),
    Runs.Run (step "|Pod|a/x") (fun _ _ => True) {} ops s ∧ t ∈ s.issued ∧
      ¬ s.Honoured "|Pod|a/x" t := by
  let ops : List CacheOp := [.reserve { hash := "h", uid := "u" }, .reserveDelete "",
    .deleteIfCurrent ⟨2, 2⟩,
    .reserve { hash := "i", uid := "v" }]
  refine ⟨ops, replay "|Pod|a/x" ops, ⟨1, 1⟩, Runs.Run.of_exec rfl, by decide, fun h => ?_⟩
  have hc := (h (.commitIfCurrent ⟨1, 1⟩ { hash := "h", uid := "u" }) _ rfl rfl).2 (by decide)
  exact absurd (congrFun hc "|Pod|a/x") (by decide)

end Issuer

end Kuberecord
